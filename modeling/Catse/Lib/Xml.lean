import Mathlib.Data.List.Basic
import Mathlib.Tactic.Common

/-!
# Compact XML documents

Elements, as a tree and as the tags that they are written with. In the compact form there is nothing
between a closing or empty tag and the next tag, attributes have one blank before them, and there
are no comments. `SpacedTag` is a tag with white space behind it, which is what an editor puts
there.
-/

namespace Catse

namespace Xml

/-- The characters that are no part of a name, as far as tags are concerned. -/
def markup : List UInt8 := [0, 9, 10, 13, 32, 34, 47, 60, 61, 62, 63]

/-- The name of an element or an attribute. -/
structure Name where
  chars : List UInt8
  ne_nil : chars ≠ []
  not_markup : ∀ b ∈ chars, b ∉ markup

/-- `key="value"`. -/
structure Attribute where
  key : Name
  value : List UInt8
  value_ok : ∀ b ∈ value, b ≠ 0 ∧ b ≠ 34

/-- Character data. -/
structure CharData where
  chars : List UInt8
  chars_ok : ∀ b ∈ chars, b ≠ 0 ∧ b ≠ 60

/-- ` key="value"`. -/
def Attribute.bytes (a : Attribute) : List UInt8 :=
  32 :: (a.key.chars ++ 61 :: 34 :: (a.value ++ [34]))

/-! ## Tags -/

/-- A tag, and for a start tag the character data behind it. -/
inductive Tag where
  | start (name : Name) (attrs : List Attribute) (text : CharData)
  | empty (name : Name) (attrs : List Attribute)
  | close (name : Name)

namespace Tag

/-- A tag up to its end. -/
def head : Tag → List UInt8
  | start name attrs _ => 60 :: (name.chars ++ attrs.flatMap Attribute.bytes)
  | empty name attrs => 60 :: (name.chars ++ attrs.flatMap Attribute.bytes)
  | close name => 60 :: 47 :: name.chars

/-- The end of a tag, and the character data behind it. -/
def ending : Tag → List UInt8
  | start _ _ text => 62 :: text.chars
  | empty _ _ => [47, 62]
  | close _ => [62]

def bytes (t : Tag) : List UInt8 := t.head ++ t.ending

def attrs : Tag → List Attribute
  | start _ attrs _ => attrs
  | empty _ attrs => attrs
  | close _ => []

def text : Tag → List UInt8
  | start _ _ text => text.chars
  | _ => []

end Tag

/-! ## Elements -/

/-- An element with a start tag and a closing tag, which has character data only before its first
child, or one with an empty tag. -/
inductive Element where
  | node (name : Name) (attrs : List Attribute) (text : CharData) (children : List Element)
  | empty (name : Name) (attrs : List Attribute)

/-- What a start tag or an empty tag says, with the character data up to the next tag. -/
structure Opening where
  name : Name
  attrs : List Attribute
  text : List UInt8

mutual

/-- The tags of an element. -/
def Element.tags : Element → List Tag
  | .node name attrs text children =>
    .start name attrs text :: (Element.tagsOf children ++ [.close name])
  | .empty name attrs => [.empty name attrs]

/-- The tags of elements one after the other. -/
def Element.tagsOf : List Element → List Tag
  | [] => []
  | e :: es => e.tags ++ Element.tagsOf es

end

mutual

/-- The elements of a tree in document order. -/
def Element.openings : Element → List Opening
  | .node name attrs text children => ⟨name, attrs, text.chars⟩ :: Element.openingsOf children
  | .empty name attrs => [⟨name, attrs, []⟩]

/-- The elements of trees in document order. -/
def Element.openingsOf : List Element → List Opening
  | [] => []
  | e :: es => e.openings ++ Element.openingsOf es

end

/-- What a tag opens. -/
def Tag.opening : Tag → Option Opening
  | .start name attrs text => some ⟨name, attrs, text.chars⟩
  | .empty name attrs => some ⟨name, attrs, []⟩
  | .close _ => none

mutual

/-- The tags that open elements are in document order. -/
theorem Element.filterMap_tags (e : Element) : e.tags.filterMap Tag.opening = e.openings := by
  cases e with
  | node name attrs text children =>
    rw [Element.tags, Element.openings]
    show _ :: (Element.tagsOf children ++ [Tag.close name]).filterMap Tag.opening = _
    rw [List.filterMap_append, Element.filterMap_tagsOf children]
    exact congrArg _ (List.append_nil _)
  | empty name attrs => rfl

theorem Element.filterMap_tagsOf (es : List Element) :
    (Element.tagsOf es).filterMap Tag.opening = Element.openingsOf es := by
  cases es with
  | nil => rfl
  | cons e es =>
    rw [Element.tagsOf, Element.openingsOf, List.filterMap_append, Element.filterMap_tags e,
      Element.filterMap_tagsOf es]

end

/-! ## Documents -/

/-- A declaration in front of the root, with white space behind it. -/
structure Prolog where
  chars : List UInt8
  space : List UInt8
  chars_ok : ∀ b ∈ chars, b ≠ 0 ∧ b ≠ 60
  space_ok : ∀ b ∈ space, b ∈ ([9, 10, 13, 32] : List UInt8)

/-- `<?...?>`. -/
def Prolog.bytes (p : Prolog) : List UInt8 := 60 :: 63 :: (p.chars ++ 63 :: 62 :: p.space)

/-- A document, whose root has a closing tag. -/
structure Document where
  prolog : Option Prolog
  name : Name
  attrs : List Attribute
  text : CharData
  children : List Element

namespace Document

def root (d : Document) : Element := .node d.name d.attrs d.text d.children

def start (d : Document) : List UInt8 := d.prolog.elim [] Prolog.bytes

def bytes (d : Document) : List UInt8 := d.start ++ d.root.tags.flatMap Tag.bytes

end Document

/-! ## White space -/

/-- A tag with white space behind it, which is there only for a closing or empty tag: behind a start
tag it would be character data. -/
structure SpacedTag where
  tag : Tag
  gap : List UInt8
  gap_space : ∀ b ∈ gap, b ∈ ([9, 10, 13, 32] : List UInt8)
  gap_start : ∀ name attrs text, tag = .start name attrs text → gap = []

def SpacedTag.bytes (p : SpacedTag) : List UInt8 := p.tag.bytes ++ p.gap

end Xml

end Catse
