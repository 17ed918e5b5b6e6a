import Catse.Myxml2.XmlTags

/-!
# White space between tags

`getXml` goes one byte on from the end of a closing or empty tag, and takes what stands there for
the `<` of the next tag. In a compact document it is. Where white space stands between the two tags
it is not, and the next tag is skipped: its `<` is read as part of its name, so nothing is recorded
of it (`Mode.name`). If the white space has a blank behind its first byte, the name that is read
ends there, and what follows is read as the name of an attribute, up to the first `=`: the next tag
with attributes is skipped, and all tags before it (`Mode.attrs`).

`skipped` are these tags. `getXml` fails if the last one is among them, and otherwise returns a
record of each of the others (`turnsRead`).
-/

namespace Catse.Myxml2

open Xml

/-! ## Tags that are skipped -/

/-- What is recorded of an element: its name, if it is one of those that are recorded, its
attributes with recorded names, and its text. -/
def recordOf (o : Opening) : Option XmlNode :=
  (nameOf o.name.chars).map fun name =>
    ⟨name, o.text, o.attrs.filterMap fun a => (keyOf a.key.chars).map fun k => (k, a.value)⟩

/-- What a tag adds to the list that is returned. -/
def node (t : Tag) : Option XmlNode := t.opening.bind recordOf

/-- How the next tag is read. -/
inductive Mode where
  /-- From its `<` on. -/
  | tag
  /-- As a name. -/
  | name
  /-- As the name of an attribute, if it has attributes itself. -/
  | attrs

/-- How the tag behind white space is read. -/
def modeOf : List UInt8 → Mode
  | [] => .tag
  | _ :: gap => if 32 ∈ gap then .attrs else .name

/-- The white space behind a tag that is skipped. Behind the `>` of a start tag or a closing tag it
is read as text. -/
def left (p : SpacedTag) : List UInt8 :=
  match p.tag with
  | .empty _ _ => p.gap
  | _ => []

/-- The tags that are skipped. -/
def skipped : Mode → List SpacedTag → List Tag
  | _, [] => []
  | .tag, p :: ps => skipped (modeOf p.gap) ps
  | .name, p :: ps => p.tag :: skipped (modeOf (left p)) ps
  | .attrs, p :: ps =>
    p.tag :: skipped (if p.tag.attrs.isEmpty then .attrs else modeOf (left p)) ps

/-- The tags that are not skipped. -/
def kept : Mode → List SpacedTag → List Tag
  | _, [] => []
  | .tag, p :: ps => p.tag :: kept (modeOf p.gap) ps
  | .name, p :: ps => kept (modeOf (left p)) ps
  | .attrs, p :: ps => kept (if p.tag.attrs.isEmpty then .attrs else modeOf (left p)) ps

/-- The last tag is skipped. -/
def Overruns : Mode → List SpacedTag → Prop
  | _, [] => False
  | .tag, p :: ps => Overruns (modeOf p.gap) ps
  | .name, p :: ps => ps = [] ∨ Overruns (modeOf (left p)) ps
  | .attrs, p :: ps =>
    ps = [] ∨ Overruns (if p.tag.attrs.isEmpty then .attrs else modeOf (left p)) ps

/-- No text that is read as part of the name of an attribute has a `=` in it. -/
def Quiet : Mode → List SpacedTag → Prop
  | _, [] => True
  | .tag, p :: ps => Quiet (modeOf p.gap) ps
  | .name, p :: ps => Quiet (modeOf (left p)) ps
  | .attrs, p :: ps => (p.tag.attrs.isEmpty → 61 ∉ p.tag.text) ∧
      Quiet (if p.tag.attrs.isEmpty then .attrs else modeOf (left p)) ps

/-- What is returned for all tags is what is returned for those that are kept and for those that are
skipped. -/
theorem length_kept (m : Mode) (ps : List SpacedTag) :
    ((kept m ps).filterMap node).length + ((skipped m ps).filterMap node).length =
      ((ps.map SpacedTag.tag).filterMap node).length := by
  have hcons : ∀ (t : Tag) (ts : List Tag), ((t :: ts).filterMap node).length =
      (node t).toList.length + (ts.filterMap node).length := by
    intro t ts
    rw [List.filterMap_cons]
    cases node t with
    | none => exact (Nat.zero_add _).symm
    | some x => exact Nat.add_comm _ _
  induction ps generalizing m with
  | nil => cases m <;> rfl
  | cons p ps ih =>
    rw [List.map_cons, hcons]
    cases m with
    | tag =>
      rw [kept, skipped, hcons, ← ih (modeOf p.gap), add_assoc]
    | name =>
      rw [kept, skipped, hcons, ← ih (modeOf (left p)), add_left_comm]
    | attrs =>
      rw [kept, skipped, hcons, ← ih (if p.tag.attrs.isEmpty then .attrs else modeOf (left p)),
        add_left_comm]

/-- Without a record among the tags that are skipped nothing is missing. -/
theorem filterMap_kept {m : Mode} {ps : List SpacedTag} (h : ∀ t ∈ skipped m ps, node t = none) :
    (kept m ps).filterMap node = (ps.map SpacedTag.tag).filterMap node := by
  induction ps generalizing m with
  | nil => cases m <;> rfl
  | cons p ps ih =>
    cases m with
    | tag =>
      rw [kept, List.map_cons, List.filterMap_cons, List.filterMap_cons, ih h]
    | name =>
      obtain ⟨hp, hps⟩ := List.forall_mem_cons.mp h
      rw [kept, List.map_cons, List.filterMap_cons_none hp, ih hps]
    | attrs =>
      obtain ⟨hp, hps⟩ := List.forall_mem_cons.mp h
      rw [kept, List.map_cons, List.filterMap_cons_none hp, ih hps]

/-! ## Tags as they are read -/

theorem not_mem_markup {b c : UInt8} (hb : b ∉ markup) (hc : c ∈ markup) : b ≠ c :=
  fun h => hb (h ▸ hc)

theorem name_last (name : Name) (pre bs : List UInt8) : pre ++ name.chars ≠ bs ++ [47] := by
  intro h
  have hlast := congrArg List.getLast? h
  rw [List.getLast?_append_of_ne_nil _ name.ne_nil, List.getLast?_concat] at hlast
  exact name.not_markup 47 (List.mem_of_getLast? hlast) (by decide)

theorem name_tag (name : Name) : ∀ b ∈ name.chars, b ≠ 0 ∧ b ≠ 32 ∧ b ≠ 62 := by
  intro b hb
  have hmem := name.not_markup b hb
  exact ⟨not_mem_markup hmem (by decide), not_mem_markup hmem (by decide),
    not_mem_markup hmem (by decide)⟩

theorem name_key (name : Name) : ∀ b ∈ name.chars, b ≠ 0 ∧ b ≠ 61 := by
  intro b hb
  have hmem := name.not_markup b hb
  exact ⟨not_mem_markup hmem (by decide), not_mem_markup hmem (by decide)⟩

/-- An attribute as it is written. -/
def raw (a : Attribute) : RawAttribute where
  key := a.key.chars
  value := a.value
  key_ok := name_key a.key
  value_ok := a.value_ok

theorem flatMap_raw (attrs : List Attribute) :
    (attrs.map raw).flatMap RawAttribute.bytes = attrs.flatMap Attribute.bytes :=
  List.flatMap_map _ _ _

/-- A tag as it is written. -/
def writtenTag (name : Name) (attrs : List Attribute) : RawTag where
  name := name.chars
  attrs := attrs.map raw
  name_ok := name_tag name
  last_ok := name_last name []
  head_ok b hb := by
    have hmem := name.not_markup b (List.mem_of_mem_head? hb)
    exact ⟨not_mem_markup hmem (by decide), not_mem_markup hmem (by decide)⟩
  ne_nil h := absurd h name.ne_nil

theorem written_bytes (name : Name) (attrs : List Attribute) :
    (writtenTag name attrs).bytes = name.chars ++ attrs.flatMap Attribute.bytes :=
  congrArg _ (flatMap_raw attrs)

/-- White space that is no blank. -/
def isBreak (b : UInt8) : Prop := b = 9 ∨ b = 10 ∨ b = 13

/-- A tag whose name begins with white space and `<`. -/
def unreadName (gap : List UInt8) (hgap : ∀ b ∈ gap, isBreak b) (name : List UInt8)
    (hname : ∀ b ∈ name, b ≠ 0 ∧ b ≠ 32 ∧ b ≠ 62) (hlast : ∀ bs, 60 :: name ≠ bs ++ [47])
    (attrs : List RawAttribute) : RawTag where
  name := gap ++ 60 :: name
  attrs := attrs
  name_ok b hb := by
    rcases List.mem_append.mp hb with hb | hb
    · rcases hgap b hb with rfl | rfl | rfl <;> decide
    · rcases List.mem_cons.mp hb with rfl | hb
      · decide
      · exact hname b hb
  last_ok bs h := by
    have hlast' := congrArg List.getLast? h
    rw [List.getLast?_append_of_ne_nil _ (List.cons_ne_nil _ _), List.getLast?_concat] at hlast'
    obtain ⟨init, hinit⟩ := List.getLast?_eq_some_iff.mp hlast'
    exact hlast init hinit
  head_ok b hb := by
    cases gap with
    | nil =>
      cases hb
      decide
    | cons c gap =>
      obtain rfl : c = b := Option.some_inj.mp hb
      rcases hgap c List.mem_cons_self with rfl | rfl | rfl <;> decide
  ne_nil h := absurd h (List.append_ne_nil_of_right_ne_nil _ (List.cons_ne_nil _ _))

/-- A tag whose name is white space, with an attribute. -/
def unreadBlank (gap : List UInt8) (hgap : ∀ b ∈ gap, isBreak b) (a : RawAttribute)
    (attrs : List RawAttribute) : RawTag where
  name := gap
  attrs := a :: attrs
  name_ok b hb := by rcases hgap b hb with rfl | rfl | rfl <;> decide
  last_ok bs h := by
    have hmem : (47 : UInt8) ∈ gap := h ▸ List.mem_append_right bs List.mem_cons_self
    rcases hgap 47 hmem with h | h | h <;> cases h
  head_ok b hb := by rcases hgap b (List.mem_of_mem_head? hb) with rfl | rfl | rfl <;> decide
  ne_nil _ := List.cons_ne_nil _ _

/-- No recorded name begins like this. -/
theorem nameOf_eq_none {name : List UInt8} (h : ∀ b ∈ name.head?, isBreak b ∨ b = 60) :
    nameOf name = none := by
  have hwords : ∀ w ∈ pname, ∃ b ∈ w.2.head?, ¬(isBreak b ∨ b = 60) := by
    unfold isBreak
    decide +kernel
  have hfind : pname.find? (fun w => decide (name = w.2)) = none := by
    refine List.find?_eq_none.mpr fun w hw heq => ?_
    obtain ⟨b, hb, hnot⟩ := hwords w hw
    exact hnot (h b ((of_decide_eq_true heq) ▸ hb))
  rw [nameOf, wordOf, hfind]
  rfl

/-- A tag behind white space without a blank is read as one whose name is not recorded. -/
theorem exists_name {gap : List UInt8} (hgap : ∀ b ∈ gap, isBreak b) (t : Tag) :
    ∃ r : RawTag, nameOf r.name = none ∧ r.bytes = gap ++ t.head := by
  have hnone : ∀ name : List UInt8, nameOf (gap ++ 60 :: name) = none := by
    intro name
    refine nameOf_eq_none fun b hb => ?_
    cases gap with
    | nil =>
      cases hb
      exact .inr rfl
    | cons c gap =>
      obtain rfl : c = b := Option.some_inj.mp hb
      exact .inl (hgap c List.mem_cons_self)
  have hopen : ∀ (name : Name) (attrs : List Attribute), ∃ r : RawTag, nameOf r.name = none ∧
      r.bytes = gap ++ 60 :: (name.chars ++ attrs.flatMap Attribute.bytes) := by
    intro name attrs
    refine ⟨unreadName gap hgap name.chars (name_tag name) (name_last name [60]) (attrs.map raw),
      hnone _, ?_⟩
    show (gap ++ 60 :: name.chars) ++ (attrs.map raw).flatMap RawAttribute.bytes = _
    rw [flatMap_raw, List.append_assoc]
    rfl
  cases t with
  | start name attrs text => exact hopen name attrs
  | empty name attrs => exact hopen name attrs
  | close name =>
    have hname : ∀ b ∈ 47 :: name.chars, b ≠ 0 ∧ b ≠ 32 ∧ b ≠ 62 :=
      List.forall_mem_cons.mpr ⟨by decide, name_tag name⟩
    exact ⟨unreadName gap hgap (47 :: name.chars) hname (name_last name [60, 47]) [], hnone _,
      List.append_nil _⟩

/-- A tag with attributes behind a blank is read as one whose name is not recorded, and whatever is
between the blank and the first `=` as the name of its first attribute. -/
theorem exists_attrs {gap : List UInt8} (hgap : ∀ b ∈ gap, isBreak b) {before : List UInt8}
    (hbefore : ∀ b ∈ before, b ≠ 0 ∧ b ≠ 61) {t : Tag} (ht : t.attrs ≠ []) :
    ∃ r : RawTag, nameOf r.name = none ∧ r.bytes = gap ++ 32 :: (before ++ t.head) := by
  have hnone : nameOf gap = none :=
    nameOf_eq_none fun b hb => .inl (hgap b (List.mem_of_mem_head? hb))
  have hopen : ∀ (name : Name) (a : Attribute) (attrs : List Attribute), ∃ r : RawTag,
      nameOf r.name = none ∧ r.bytes =
        gap ++ 32 :: (before ++ 60 :: (name.chars ++ (a :: attrs).flatMap Attribute.bytes)) := by
    intro name a attrs
    have hkey : ∀ b ∈ before ++ 60 :: (name.chars ++ 32 :: a.key.chars), b ≠ 0 ∧ b ≠ 61 :=
      List.forall_mem_append.mpr ⟨hbefore, List.forall_mem_cons.mpr ⟨by decide,
        List.forall_mem_append.mpr ⟨name_key name,
          List.forall_mem_cons.mpr ⟨by decide, name_key a.key⟩⟩⟩⟩
    refine ⟨unreadBlank gap hgap ⟨_, a.value, hkey, a.value_ok⟩ (attrs.map raw), hnone, ?_⟩
    show gap ++ (32 :: ((before ++ 60 :: (name.chars ++ 32 :: a.key.chars)) ++ 61 :: 34 ::
      (a.value ++ [34])) ++ (attrs.map raw).flatMap RawAttribute.bytes) = _
    rw [flatMap_raw, List.flatMap_cons, Attribute.bytes]
    simp only [List.append_assoc, List.cons_append]
  cases t with
  | start name attrs text =>
    obtain ⟨a, attrs, rfl⟩ := List.exists_cons_of_ne_nil ht
    exact hopen name a attrs
  | empty name attrs =>
    obtain ⟨a, attrs, rfl⟩ := List.exists_cons_of_ne_nil ht
    exact hopen name a attrs
  | close name => exact absurd rfl ht

theorem space_plain : ∀ b ∈ ([9, 10, 13, 32] : List UInt8), b ≠ 0 ∧ b ≠ 61 := by simp

/-- The bytes of a tag without attributes, when there is no `=` in its text. -/
theorem piece_plain {p : SpacedTag} (hattrs : p.tag.attrs = []) (htext : 61 ∉ p.tag.text) :
    ∀ b ∈ p.bytes, b ≠ 0 ∧ b ≠ 61 := by
  have htag : ∀ b ∈ p.tag.bytes, b ≠ 0 ∧ b ≠ 61 := by
    unfold Tag.bytes
    cases hp : p.tag with
    | start name attrs text =>
      rw [hp] at hattrs htext
      obtain rfl : attrs = [] := hattrs
      rw [Tag.head, List.flatMap_nil, List.append_nil, Tag.ending]
      refine List.forall_mem_append.mpr ⟨List.forall_mem_cons.mpr ⟨by decide, name_key name⟩,
        List.forall_mem_cons.mpr ⟨by decide, fun b hb => ⟨(text.chars_ok b hb).1, ?_⟩⟩⟩
      exact fun h => htext (h ▸ hb)
    | empty name attrs =>
      rw [hp] at hattrs
      obtain rfl : attrs = [] := hattrs
      rw [Tag.head, List.flatMap_nil, List.append_nil, Tag.ending]
      exact List.forall_mem_append.mpr
        ⟨List.forall_mem_cons.mpr ⟨by decide, name_key name⟩, by simp⟩
    | close name =>
      rw [Tag.head, Tag.ending]
      exact List.forall_mem_append.mpr ⟨List.forall_mem_cons.mpr ⟨by decide,
        List.forall_mem_cons.mpr ⟨by decide, name_key name⟩⟩, by simp⟩
  exact List.forall_mem_append.mpr ⟨htag, fun b hb => space_plain b (p.gap_space b hb)⟩

theorem pieces_plain {ps : List SpacedTag} (hattrs : ∀ p ∈ ps, p.tag.attrs = [])
    (htexts : ∀ p ∈ ps, 61 ∉ p.tag.text) : ∀ b ∈ ps.flatMap SpacedTag.bytes, b ≠ 0 ∧ b ≠ 61 := by
  intro b hb
  obtain ⟨p, hp, hb⟩ := List.mem_flatMap.mp hb
  exact piece_plain (hattrs p hp) (htexts p hp) b hb

/-! ## Limits -/

/-- The limits of `getXml`. -/
structure WithinLimits (xs : List XmlNode) : Prop where
  nodes : xs.length + 1 ≤ 2^20
  attrs : ∀ x ∈ xs, x.vkv.length ≤ 2
  all : (xs.map fun x => x.vkv.length).sum ≤ 2^19

/-- What the tags add to the list is within the limits, with `m` records and `k` attributes before
them. -/
structure Fits (m k : ℕ) (ts : List Tag) : Prop where
  nodes : m + (ts.filterMap node).length + 1 ≤ 2^20
  attrs : ∀ x ∈ ts.filterMap node, x.vkv.length ≤ 2
  all : k + ((ts.filterMap node).map fun x => x.vkv.length).sum ≤ 2^19

/-- How many attributes a tag adds. -/
def cost (t : Tag) : ℕ := (node t).elim 0 fun x => x.vkv.length

theorem Fits.tail {m k : ℕ} {t : Tag} {ts : List Tag} (h : Fits m k (t :: ts)) : Fits m k ts := by
  obtain ⟨hnodes, hattrs, hall⟩ := h
  cases hnode : node t with
  | none =>
    rw [List.filterMap_cons_none hnode] at hnodes hattrs hall
    exact ⟨hnodes, hattrs, hall⟩
  | some x =>
    rw [List.filterMap_cons_some hnode] at hnodes hattrs hall
    rw [List.length_cons] at hnodes
    rw [List.map_cons, List.sum_cons] at hall
    exact ⟨by omega, fun y hy => hattrs y (List.mem_cons_of_mem _ hy), by omega⟩

theorem Fits.step {m k : ℕ} {t : Tag} {ts : List Tag} (h : Fits m k (t :: ts)) :
    Fits (m + (node t).toList.length) (k + cost t) ts ∧ (node t ≠ none → m + 2 ≤ 2^20) ∧
      cost t ≤ 2 ∧ k + cost t ≤ 2^19 := by
  obtain ⟨hnodes, hattrs, hall⟩ := h
  unfold cost
  cases hnode : node t with
  | none =>
    rw [List.filterMap_cons_none hnode] at hnodes hattrs hall
    exact ⟨⟨hnodes, hattrs, hall⟩, fun hne => absurd rfl hne, Nat.zero_le 2,
      (Nat.le_add_right _ _).trans hall⟩
  | some x =>
    rw [List.filterMap_cons_some hnode] at hnodes hattrs hall
    rw [List.length_cons] at hnodes
    rw [List.map_cons, List.sum_cons] at hall
    show Fits (m + 1) (k + x.vkv.length) ts ∧ _ ∧ x.vkv.length ≤ 2 ∧ k + x.vkv.length ≤ 2^19
    exact ⟨⟨by omega, fun y hy => hattrs y (List.mem_cons_of_mem _ hy), by omega⟩,
      fun _ => by omega, hattrs x List.mem_cons_self, by omega⟩

theorem Fits.drop {m k : ℕ} {ts us : List Tag} (h : Fits m k (ts ++ us)) : Fits m k us := by
  induction ts with
  | nil => exact h
  | cons t ts ih => exact ih h.tail

/-- A tag as it is written adds what it should. -/
theorem written_node (name : Name) (attrs : List Attribute) (text : List UInt8) :
    (writtenTag name attrs).node text = (nameOf name.chars).map fun n =>
      ⟨n, text, attrs.filterMap fun a => (keyOf a.key.chars).map fun k => (k, a.value)⟩ := by
  rw [RawTag.node]
  show (nameOf name.chars).map (fun n => XmlNode.mk n text (recorded (attrs.map raw))) = _
  rw [recorded, List.filterMap_map]
  rfl

/-- What is recorded of a tag as it is written. -/
theorem node_written {t : Tag} {name : Name} {attrs : List Attribute} {text : List UInt8}
    (ht : t.opening = some ⟨name, attrs, text⟩) :
    node t = (writtenTag name attrs).node text ∧ cost t =
      (recordedIf (nameOf (writtenTag name attrs).name).isSome
        (writtenTag name attrs).attrs).length := by
  have hnode : node t = (writtenTag name attrs).node text := by
    rw [written_node, node, ht]
    rfl
  refine ⟨hnode, ?_⟩
  rw [cost, hnode, RawTag.node, recordedIf]
  cases nameOf (writtenTag name attrs).name <;> rfl

/-! ## Turns of the loop -/

theorem flatMap_cons {ps : List SpacedTag} (h : ps ≠ []) :
    ∃ bs, ps.flatMap SpacedTag.bytes = 60 :: bs := by
  obtain ⟨p, ps, rfl⟩ := List.exists_cons_of_ne_nil h
  cases hp : p.tag <;> exact ⟨_, by rw [List.flatMap_cons, SpacedTag.bytes, Tag.bytes, hp]; rfl⟩

section Turn

variable {stop : ℕ} {s : XmlState} {xs : List XmlNode}

theorem recordedIf_of_none {t : RawTag} (hnone : nameOf t.name = none) :
    recordedIf (nameOf t.name).isSome t.attrs = [] := by
  rw [hnone]
  rfl

theorem fits_of_none {t : RawTag} (hnone : nameOf t.name = none) (hall : s.bufVkvLen ≤ 2^19) :
    t.Fits s xs := by
  refine ⟨fun hsome => absurd hnone hsome, ?_, ?_⟩
  · rw [recordedIf_of_none hnone]
    decide
  · rw [recordedIf_of_none hnone]
    exact hall

/-- A tag that is skipped. -/
theorem turn_skip {t : RawTag} (hnone : nameOf t.name = none) {p : SpacedTag} {ps : List SpacedTag}
    (hps : ps ≠ [])
    (h : s.Reads stop (t.bytes ++ (p.tag.ending ++ (p.gap ++ ps.flatMap SpacedTag.bytes))) xs)
    (hall : s.bufVkvLen ≤ 2^19) (n : ℕ) :
    ∃ s' : XmlState, getXmlLoop stop (n + 1) s = getXmlLoop stop n s' ∧
      s'.Reads stop (left p ++ ps.flatMap SpacedTag.bytes).tail xs ∧
      s'.bufVkvLen = s.bufVkvLen := by
  obtain ⟨bs, hbs⟩ := flatMap_cons hps
  have hfits : t.Fits s xs := fits_of_none hnone hall
  -- A tag without a known name leaves the nodes and the attributes as they are.
  have hsame : ∀ {s' : XmlState} {rest text : List UInt8},
      s'.Reads stop rest (xs ++ (t.node text).toList) →
      s'.bufVkvLen = s.bufVkvLen + (recordedIf (nameOf t.name).isSome t.attrs).length →
      s'.Reads stop rest xs ∧ s'.bufVkvLen = s.bufVkvLen := by
    intro s' rest text hreads hlen
    rw [RawTag.node, hnone, Option.map_none, Option.toList_none, List.append_nil] at hreads
    rw [recordedIf_of_none hnone] at hlen
    exact ⟨hreads, hlen⟩
  rw [hbs] at h ⊢
  cases hp : p.tag with
  | start name attrs text =>
    rw [hp, p.gap_start name attrs text hp] at h
    obtain ⟨s', hs', hreads, hlen⟩ := turn_start text.chars_ok h hfits n
    rw [left, hp]
    exact ⟨s', hs', hsame hreads hlen⟩
  | empty name attrs =>
    rw [hp] at h
    obtain ⟨c, cs, hcs⟩ : ∃ c cs, p.gap ++ 60 :: bs = c :: cs :=
      List.exists_cons_of_ne_nil (List.append_ne_nil_of_right_ne_nil _ (List.cons_ne_nil _ _))
    rw [hcs] at h
    obtain ⟨s', hs', hreads, hlen⟩ := turn_empty h hfits n
    have hleft : (left p ++ 60 :: bs).tail = cs := by
      rw [left, hp]
      show (p.gap ++ 60 :: bs).tail = cs
      rw [hcs, List.tail_cons]
    rw [hleft]
    exact ⟨s', hs', hsame hreads hlen⟩
  | close name =>
    rw [hp] at h
    have hgap : ∀ b ∈ p.gap, b ≠ 0 ∧ b ≠ 60 := by
      intro b hb
      have hspace := p.gap_space b hb
      exact ⟨fun h0 => absurd (h0 ▸ hspace) (by decide), fun h0 => absurd (h0 ▸ hspace) (by decide)⟩
    obtain ⟨s', hs', hreads, hlen⟩ := turn_start hgap h hfits n
    rw [left, hp]
    exact ⟨s', hs', hsame hreads hlen⟩

/-- A tag that is read as it is written, in front of other tags. -/
theorem turn_tag_next {p : SpacedTag} {ps : List SpacedTag} (hps : ps ≠ []) {ts : List Tag}
    (h : s.Reads stop ((p :: ps).flatMap SpacedTag.bytes).tail xs)
    (hfits : Fits xs.length s.bufVkvLen (p.tag :: ts)) (n : ℕ) :
    ∃ s' : XmlState, getXmlLoop stop (n + 1) s = getXmlLoop stop n s' ∧
      s'.Reads stop (p.gap ++ ps.flatMap SpacedTag.bytes).tail (xs ++ (node p.tag).toList) ∧
      s'.bufVkvLen = s.bufVkvLen + cost p.tag := by
  -- The next tag begins with `<`, at which the text of this one is ended.
  obtain ⟨bs, hbs⟩ := flatMap_cons hps
  obtain ⟨-, hnodes, htag, hall⟩ := hfits.step
  obtain ⟨c, cs, hcs⟩ : ∃ c cs, p.gap ++ 60 :: bs = c :: cs :=
    List.exists_cons_of_ne_nil (List.append_ne_nil_of_right_ne_nil _ (List.cons_ne_nil _ _))
  rw [List.flatMap_cons, SpacedTag.bytes, hbs, List.append_assoc, hcs] at h
  rw [hbs, hcs]
  -- What the table of nodes and of attributes has room for.
  have hopen : ∀ {name attrs text}, p.tag.opening = some ⟨name, attrs, text⟩ →
      (writtenTag name attrs).Fits s xs := by
    intro name attrs text hopening
    obtain ⟨hnode, hcost⟩ := node_written hopening
    rw [hcost] at htag hall
    refine ⟨fun hsome => hnodes ?_, htag, hall⟩
    rw [hnode, RawTag.node]
    exact fun hnone => hsome (Option.map_eq_none_iff.mp hnone)
  cases hp : p.tag with
  | start name attrs text =>
    have hopening : p.tag.opening = some ⟨name, attrs, text.chars⟩ := by rw [hp]; rfl
    obtain ⟨hnode, hcost⟩ := node_written hopening
    rw [p.gap_start name attrs text hp] at hcs
    obtain ⟨rfl, rfl⟩ := List.cons_eq_cons.mp hcs
    have hbytes : (p.tag.bytes ++ 60 :: bs).tail =
        (writtenTag name attrs).bytes ++ 62 :: (text.chars ++ 60 :: bs) := by
      rw [hp, written_bytes, Tag.bytes, Tag.head, Tag.ending]
      simp only [List.cons_append, List.append_assoc, List.tail_cons]
    rw [hbytes] at h
    obtain ⟨s', hs', hreads, hlen⟩ := turn_start text.chars_ok h (hopen hopening) n
    rw [← hnode, hp] at hreads
    rw [← hcost, hp] at hlen
    exact ⟨s', hs', hreads, hlen⟩
  | empty name attrs =>
    have hopening : p.tag.opening = some ⟨name, attrs, []⟩ := by rw [hp]; rfl
    obtain ⟨hnode, hcost⟩ := node_written hopening
    have hbytes : (p.tag.bytes ++ c :: cs).tail =
        (writtenTag name attrs).bytes ++ 47 :: 62 :: c :: cs := by
      rw [hp, written_bytes, Tag.bytes, Tag.head, Tag.ending]
      simp only [List.cons_append, List.append_assoc, List.tail_cons, List.nil_append]
    rw [hbytes] at h
    obtain ⟨s', hs', hreads, hlen⟩ := turn_empty h (hopen hopening) n
    rw [← hnode, hp] at hreads
    rw [← hcost, hp] at hlen
    exact ⟨s', hs', hreads, hlen⟩
  | close name =>
    have hbytes : (p.tag.bytes ++ c :: cs).tail = 47 :: (name.chars ++ 62 :: c :: cs) := by
      rw [hp, Tag.bytes, Tag.head, Tag.ending]
      simp only [List.cons_append, List.append_assoc, List.tail_cons, List.nil_append]
    rw [hbytes] at h
    obtain ⟨s', hs', hreads, hlen⟩ := turn_close (fun b hb => (name_tag name b hb).2.2) h n
    refine ⟨s', hs', ?_, hlen⟩
    show s'.Reads stop cs (xs ++ [])
    rw [List.append_nil]
    exact hreads

/-- After a blank without a `=` behind it there is an error. -/
theorem turn_blank {gap bs : List UInt8} (hgap : ∀ b ∈ gap, isBreak b) (hbs : ∀ b ∈ bs, b ≠ 61)
    (h : s.Reads stop (gap ++ 32 :: bs) xs) (n : ℕ) :
    getXmlLoop stop (n + 1) s = .error .unexpectedEnd := by
  obtain ⟨hholds, hlength, -⟩ := h
  obtain ⟨hname, hblank, hmore⟩ := holds_append.mp hholds
  rw [List.length_append, List.length_cons] at hlength
  have hbyte : ∀ b, isBreak b → b ≠ 0 ∧ b ≠ 32 ∧ b ≠ 62 ∧ b ≠ 63 ∧ b ≠ 47 := by
    rintro b (rfl | rfl | rfl) <;> decide
  -- The turn takes the blank for the end of a name.
  have hfirst : s.buf (s.begin + 1) ≠ 63 ∧ s.buf (s.begin + 1) ≠ 47 := by
    cases gap with
    | nil =>
      have h32 : s.buf (s.begin + 1) = 32 := hblank
      rw [h32]
      decide
    | cons b gap =>
      rw [show s.buf (s.begin + 1) = b from hname.1]
      exact (hbyte b (hgap b List.mem_cons_self)).2.2.2
  have hscan : scanTo (fun i => s.buf i == 32 || atTagEnd s.buf i) stop (s.begin + 1) =
      .ok (s.begin + 1 + gap.length) := by
    refine scanTo_eq (by omega) (fun j hj => ?_) ?_
    · obtain ⟨-, h32, h62, -, h47⟩ := hbyte _ (hgap _ (List.getElem_mem hj))
      rw [← hname.getElem hj] at h32 h62 h47
      simp [atTagEnd, h32, h62, h47]
    · show (s.buf (s.begin + 1 + gap.length) == 32 || _) = true
      rw [hblank]
      rfl
  have hword : findWord pname s.buf (s.begin + 1) (s.begin + 1 + gap.length) = none :=
    (findWord_eq pname_ne_zero hname fun b hb => (hbyte b (hgap b hb)).1).trans
      (nameOf_eq_none fun b hb => .inl (hgap b (List.mem_of_mem_head? hb)))
  have hopen : atTagEnd s.buf (s.begin + 1 + gap.length) = false := by
    rw [atTagEnd, hblank]
    rfl
  -- The attribute that it looks for has no `=`, so that the scan runs to the end.
  have hattr : xmlAttribute stop false ⟨s.buf, s.begin + 1 + gap.length, [], s.bufVkvLen⟩ =
      .error .unexpectedEnd := by
    rw [xmlAttribute, checkEnd]
    by_cases hend : stop ≤ s.begin + 1 + gap.length + 1
    · rw [if_pos hend]
      rfl
    · rw [if_neg hend]
      show (scanTo (fun i => s.buf i == 61) stop (s.begin + 1 + gap.length + 1) >>= _) = _
      rw [scanTo_end hmore hbs (by omega)]
      rfl
  obtain ⟨m, hm⟩ := Nat.exists_eq_succ_of_ne_zero
    (by omega : stop - (s.begin + 1 + gap.length) ≠ 0)
  rw [getXmlLoop, checkEnd_eq (by omega)]
  show (if s.buf (s.begin + 1) = 63 then _ else if s.buf (s.begin + 1) = 47 then _
    else xmlTag stop s (s.begin + 1) >>= _) = _
  rw [if_neg hfirst.1, if_neg hfirst.2, xmlTag, hscan]
  show ((if findWord pname s.buf (s.begin + 1) (s.begin + 1 + gap.length) ≠ none ∧ _ then _
    else _) >>= _) = _
  rw [hword, if_neg (fun h => h.1 rfl)]
  show ((xmlAttributes stop false (stop - (s.begin + 1 + gap.length)) _ >>= _) >>= _) = _
  rw [hm, Nat.succ_eq_add_one, xmlAttributes, hopen, if_neg Bool.false_ne_true, hattr]
  rfl

end Turn

/-! ## Runs of the loop -/

theorem modeOf_cons_of_not_mem {c : UInt8} {gap : List UInt8} (h : 32 ∉ gap) :
    modeOf (c :: gap) = .name := if_neg h

theorem modeOf_cons_of_mem {c : UInt8} {gap : List UInt8} (h : 32 ∈ gap) :
    modeOf (c :: gap) = .attrs := if_pos h

/-- White space behind a tag. -/
def Space (gap : List UInt8) : Prop := ∀ b ∈ gap, b ∈ ([9, 10, 13, 32] : List UInt8)

theorem left_space (p : SpacedTag) : Space (left p) := by
  unfold left
  cases p.tag with
  | empty name attrs => exact p.gap_space
  | start name attrs text => exact fun b hb => absurd hb List.not_mem_nil
  | close name => exact fun b hb => absurd hb List.not_mem_nil

theorem Space.breaks {gap : List UInt8} (h : Space gap) (h32 : 32 ∉ gap) :
    ∀ b ∈ gap, isBreak b := by
  intro b hb
  have hall : ∀ b ∈ ([9, 10, 13, 32] : List UInt8), b = 32 ∨ isBreak b := by
    unfold isBreak
    simp
  exact (hall b (h b hb)).resolve_left fun heq => h32 (heq ▸ hb)

/-- A document ends with a closing tag. -/
def Closed (ps : List SpacedTag) : Prop :=
  ∀ p ∈ ps.getLast?, (∃ name, p.tag = .close name) ∧ p.gap = []

/-- What the loop does with tags that are read in a mode. -/
structure LoopRuns (stop n : ℕ) (s : XmlState) (xs : List XmlNode) (m : Mode)
    (ps : List SpacedTag) : Prop where
  fails : Overruns m ps → getXmlLoop stop n s = .error .unexpectedEnd
  returns : ¬Overruns m ps → ∃ s', getXmlLoop stop n s = .ok s' ∧
    List.Forall₂ (XmlDot.Shows s'.buf stop) s'.vd (xs ++ (kept m ps).filterMap node)

/-- Tags up to the first one with attributes. -/
theorem exists_attrs_or (ps : List SpacedTag) :
    (∃ qs p ps', ps = qs ++ p :: ps' ∧ (∀ q ∈ qs, q.tag.attrs = []) ∧ p.tag.attrs ≠ []) ∨
      ∀ q ∈ ps, q.tag.attrs = [] := by
  induction ps with
  | nil => exact .inr fun q hq => absurd hq List.not_mem_nil
  | cons p ps ih =>
    by_cases hp : p.tag.attrs = []
    · rcases ih with ⟨qs, q, ps', rfl, hqs, hq⟩ | hall
      · exact .inl ⟨p :: qs, q, ps', rfl, List.forall_mem_cons.mpr ⟨hp, hqs⟩, hq⟩
      · exact .inr (List.forall_mem_cons.mpr ⟨hp, hall⟩)
    · exact .inl ⟨[], p, ps, rfl, fun q hq => absurd hq List.not_mem_nil, hp⟩

/-- The tags that are skipped before one with attributes, and that one. -/
theorem attrs_append {qs ps : List SpacedTag} {p : SpacedTag} (hqs : ∀ q ∈ qs, q.tag.attrs = [])
    (hp : p.tag.attrs ≠ []) :
    kept .attrs (qs ++ p :: ps) = kept (modeOf (left p)) ps ∧
      (Overruns .attrs (qs ++ p :: ps) ↔ ps = [] ∨ Overruns (modeOf (left p)) ps) ∧
      (Quiet .attrs (qs ++ p :: ps) →
        (∀ q ∈ qs, 61 ∉ q.tag.text) ∧ Quiet (modeOf (left p)) ps) := by
  induction qs with
  | nil =>
    have hempty : p.tag.attrs.isEmpty = false := List.isEmpty_eq_false_iff.mpr hp
    simp only [List.nil_append, kept, Overruns, Quiet, hempty]
    exact ⟨rfl, Iff.rfl, fun h => ⟨fun q hq => absurd hq List.not_mem_nil, h.2⟩⟩
  | cons q qs ih =>
    obtain ⟨hq, hqs'⟩ := List.forall_mem_cons.mp hqs
    obtain ⟨hkept, hover, hquiet⟩ := ih hqs'
    have hempty : q.tag.attrs.isEmpty = true := List.isEmpty_iff.mpr hq
    have hne : qs ++ p :: ps ≠ [] := List.append_ne_nil_of_right_ne_nil _ (List.cons_ne_nil _ _)
    rw [List.cons_append, kept, Overruns, Quiet, hempty]
    refine ⟨hkept, ?_, fun h => ?_⟩
    · rw [or_iff_right hne]
      exact hover
    · obtain ⟨hrest, hps⟩ := hquiet h.2
      exact ⟨List.forall_mem_cons.mpr ⟨h.1 rfl, hrest⟩, hps⟩

theorem attrs_none {ps : List SpacedTag} (hne : ps ≠ []) (hps : ∀ q ∈ ps, q.tag.attrs = []) :
    Overruns .attrs ps ∧ (Quiet .attrs ps → ∀ q ∈ ps, 61 ∉ q.tag.text) := by
  induction ps with
  | nil => exact absurd rfl hne
  | cons q ps ih =>
    obtain ⟨hq, hps'⟩ := List.forall_mem_cons.mp hps
    have hempty : q.tag.attrs.isEmpty = true := List.isEmpty_iff.mpr hq
    rw [Overruns, Quiet, hempty]
    by_cases hnil : ps = []
    · subst hnil
      exact ⟨.inl rfl, fun h => List.forall_mem_cons.mpr ⟨h.1 rfl, fun q hq =>
        absurd hq List.not_mem_nil⟩⟩
    · obtain ⟨hover, hquiet⟩ := ih hnil hps'
      exact ⟨.inr hover, fun h => List.forall_mem_cons.mpr ⟨h.1 rfl, hquiet h.2⟩⟩

section Run

variable {stop : ℕ} {s : XmlState} {xs : List XmlNode}

theorem Closed.tail {p : SpacedTag} {ps : List SpacedTag} (h : Closed (p :: ps)) (hps : ps ≠ []) :
    Closed ps := by
  obtain ⟨q, qs, rfl⟩ := List.exists_cons_of_ne_nil hps
  exact h

theorem Closed.append {qs ps : List SpacedTag} (h : Closed (qs ++ ps)) (hps : ps ≠ []) :
    Closed ps := by
  intro p hp
  exact h p (by rwa [List.getLast?_append_of_ne_nil _ hps])

/-- A run from a tag that is skipped. -/
theorem run_skip {t : RawTag} (hnone : nameOf t.name = none) {p : SpacedTag} {ps : List SpacedTag}
    (hclosed : Closed (p :: ps))
    (h : s.Reads stop (t.bytes ++ (p.tag.ending ++ (p.gap ++ ps.flatMap SpacedTag.bytes))) xs)
    (hall : s.bufVkvLen ≤ 2^19) {n : ℕ}
    (ih : ps ≠ [] → ∀ s' : XmlState, s'.Reads stop (left p ++ ps.flatMap SpacedTag.bytes).tail xs →
      s'.bufVkvLen = s.bufVkvLen → LoopRuns stop n s' xs (modeOf (left p)) ps) :
    (ps = [] ∨ Overruns (modeOf (left p)) ps →
      getXmlLoop stop (n + 1) s = .error .unexpectedEnd) ∧
    (¬(ps = [] ∨ Overruns (modeOf (left p)) ps) → ∃ s', getXmlLoop stop (n + 1) s = .ok s' ∧
      List.Forall₂ (XmlDot.Shows s'.buf stop) s'.vd
        (xs ++ (kept (modeOf (left p)) ps).filterMap node)) := by
  by_cases hps : ps = []
  · subst hps
    obtain ⟨⟨name, hclose⟩, hgap⟩ := hclosed p rfl
    rw [hclose, hgap] at h
    exact ⟨fun _ => turn_start_end h (fits_of_none hnone hall) n,
      fun hnot => absurd (.inl rfl) hnot⟩
  · obtain ⟨s', hs', hreads, hlen⟩ := turn_skip hnone hps h hall n
    obtain ⟨hfails, hreturns⟩ := ih hps s' hreads hlen
    rw [hs', or_iff_right hps]
    exact ⟨hfails, hreturns⟩

/-- The loop reads the tags from one on in `n` turns, with the white space in front of it. -/
def TurnsRead (stop n : ℕ) : Prop :=
  ∀ {s : XmlState} {xs : List XmlNode} {ps : List SpacedTag} {gap : List UInt8}, ps ≠ [] →
    Closed ps → Space gap → s.Reads stop (gap ++ ps.flatMap SpacedTag.bytes).tail xs →
    Fits xs.length s.bufVkvLen (ps.map SpacedTag.tag) → Quiet (modeOf gap) ps →
    ps.length ≤ n → LoopRuns stop n s xs (modeOf gap) ps

/-- Without white space, the next tag is read as it is written. -/
theorem run_tag {n : ℕ} (ih : TurnsRead stop n) {p : SpacedTag} {ps : List SpacedTag}
    (hclosed : Closed (p :: ps))
    (h : s.Reads stop ((p :: ps).flatMap SpacedTag.bytes).tail xs)
    (hfits : Fits xs.length s.bufVkvLen ((p :: ps).map SpacedTag.tag))
    (hquiet : Quiet .tag (p :: ps)) (hn : ps.length ≤ n) :
    LoopRuns stop (n + 1) s xs .tag (p :: ps) := by
  by_cases hnil : ps = []
  · -- The last tag is an end tag, at which the loop returns.
    subst hnil
    obtain ⟨⟨name, hclose⟩, hend⟩ := hclosed p rfl
    have hread : ([p].flatMap SpacedTag.bytes).tail = 47 :: (name.chars ++ [62]) := by
      rw [List.flatMap_singleton, SpacedTag.bytes, Tag.bytes, hclose, hend]
      exact List.append_nil _
    rw [hread] at h
    obtain ⟨s', hs', hvd⟩ := turn_close_end (fun b hb => (name_tag name b hb).2.2) h n
    have hkept : (kept .tag [p]).filterMap node = [] := by
      show [p.tag].filterMap node = []
      rw [hclose]
      rfl
    have hover : ¬Overruns .tag [p] := by
      show ¬Overruns (modeOf p.gap) []
      exact not_false
    refine ⟨fun h => absurd h hover, fun _ => ⟨s', hs', ?_⟩⟩
    rw [hkept, List.append_nil]
    exact hvd
  · -- One turn for this tag, and the rest by the induction.
    obtain ⟨s', hs', hreads, hlen⟩ := turn_tag_next hnil h hfits n
    have hstep := hfits.step.1
    rw [← hlen, ← List.length_append] at hstep
    obtain ⟨hfails, hreturns⟩ := ih hnil (hclosed.tail hnil) p.gap_space hreads hstep hquiet hn
    have hkept : xs ++ (kept .tag (p :: ps)).filterMap node =
        xs ++ (node p.tag).toList ++ (kept (modeOf p.gap) ps).filterMap node := by
      show xs ++ (p.tag :: kept (modeOf p.gap) ps).filterMap node = _
      rw [List.append_assoc, List.filterMap_cons]
      cases node p.tag <;> rfl
    refine ⟨fun h => hs'.trans (hfails h), fun h => ?_⟩
    rw [hs', hkept]
    exact hreturns h

/-- White space without a blank is the first character of a name, which goes on to the end of the
name in the tag. -/
theorem run_name {n : ℕ} (ih : TurnsRead stop n) {c : UInt8} {gap : List UInt8}
    (hgap : Space gap) (h32 : 32 ∉ gap) {p : SpacedTag} {ps : List SpacedTag}
    (hclosed : Closed (p :: ps))
    (h : s.Reads stop (c :: gap ++ (p :: ps).flatMap SpacedTag.bytes).tail xs)
    (hfits : Fits xs.length s.bufVkvLen ((p :: ps).map SpacedTag.tag))
    (hquiet : Quiet .name (p :: ps)) (hn : ps.length ≤ n) :
    LoopRuns stop (n + 1) s xs .name (p :: ps) := by
  have hall : s.bufVkvLen ≤ 2^19 := (Nat.le_add_right _ _).trans hfits.all
  obtain ⟨t, hnone, hbytes⟩ := exists_name (Space.breaks hgap h32) p.tag
  have hread : (c :: gap ++ (p :: ps).flatMap SpacedTag.bytes).tail =
      t.bytes ++ (p.tag.ending ++ (p.gap ++ ps.flatMap SpacedTag.bytes)) := by
    rw [hbytes, List.flatMap_cons, SpacedTag.bytes, Tag.bytes]
    simp only [List.cons_append, List.append_assoc, List.tail_cons]
  rw [hread] at h
  obtain ⟨hfails, hreturns⟩ := run_skip hnone hclosed h hall
    fun hne s' hreads hlen => ih hne (hclosed.tail hne) (left_space p) hreads
      (hlen ▸ hfits.tail) hquiet hn
  exact ⟨hfails, hreturns⟩

/-- With a blank in the white space, attributes are looked for up to the first tag that has some. -/
theorem run_attrs {n : ℕ} (ih : TurnsRead stop n) {c : UInt8} {gap : List UInt8}
    (hgap : Space gap) (h32 : 32 ∈ gap) {ps : List SpacedTag} (hps : ps ≠ [])
    (hclosed : Closed ps) (h : s.Reads stop (c :: gap ++ ps.flatMap SpacedTag.bytes).tail xs)
    (hfits : Fits xs.length s.bufVkvLen (ps.map SpacedTag.tag)) (hquiet : Quiet .attrs ps)
    (hn : ps.length ≤ n + 1) : LoopRuns stop (n + 1) s xs .attrs ps := by
  have hall : s.bufVkvLen ≤ 2^19 := (Nat.le_add_right _ _).trans hfits.all
  -- The name that is read ends at the first blank.
  obtain ⟨breaks, more, rfl, hfirst⟩ := List.eq_append_cons_of_mem h32
  obtain ⟨hleft, hright⟩ := List.forall_mem_append.mp hgap
  have hbreaks := Space.breaks hleft hfirst
  have hmore : ∀ b ∈ more, b ≠ 0 ∧ b ≠ 61 := fun b hb =>
    space_plain b (hright b (List.mem_cons_of_mem _ hb))
  rcases exists_attrs_or ps with ⟨qs, p, ps, rfl, hqs, hp⟩ | hnone
  · obtain ⟨hkept, hover, hrest⟩ := attrs_append hqs hp
    obtain ⟨htexts, hquiet'⟩ := hrest hquiet
    have hbefore : ∀ b ∈ more ++ qs.flatMap SpacedTag.bytes, b ≠ 0 ∧ b ≠ 61 :=
      List.forall_mem_append.mpr ⟨hmore, pieces_plain hqs htexts⟩
    obtain ⟨t, hnone, hbytes⟩ := exists_attrs hbreaks hbefore hp
    have hread : (c :: (breaks ++ 32 :: more) ++ (qs ++ p :: ps).flatMap SpacedTag.bytes).tail =
        t.bytes ++ (p.tag.ending ++ (p.gap ++ ps.flatMap SpacedTag.bytes)) := by
      rw [hbytes, List.flatMap_append, List.flatMap_cons, SpacedTag.bytes, Tag.bytes]
      simp only [List.cons_append, List.append_assoc, List.tail_cons]
    rw [hread] at h
    rw [List.map_append] at hfits
    rw [List.length_append, List.length_cons] at hn
    have hclosed' := hclosed.append (List.cons_ne_nil p ps)
    obtain ⟨hfails, hreturns⟩ := run_skip hnone hclosed' h hall
      fun hne s' hreads hlen => ih hne (hclosed'.tail hne) (left_space p) hreads
        (hlen ▸ hfits.drop.tail) hquiet' (by omega)
    refine ⟨fun h => hfails (hover.mp h), fun h => ?_⟩
    rw [hkept]
    exact hreturns fun h' => h (hover.mpr h')
  · obtain ⟨hover, hrest⟩ := attrs_none hps hnone
    refine ⟨fun _ => ?_, fun h => absurd hover h⟩
    have hbefore : ∀ b ∈ more ++ ps.flatMap SpacedTag.bytes, b ≠ 0 ∧ b ≠ 61 :=
      List.forall_mem_append.mpr ⟨hmore, pieces_plain hnone (hrest hquiet)⟩
    have hread : (c :: (breaks ++ 32 :: more) ++ ps.flatMap SpacedTag.bytes).tail =
        breaks ++ 32 :: (more ++ ps.flatMap SpacedTag.bytes) := by
      simp only [List.cons_append, List.append_assoc, List.tail_cons]
    rw [hread] at h
    exact turn_blank hbreaks (fun b hb => (hbefore b hb).2) h n

/-- The loop reads any number of tags. -/
theorem turnsRead (stop n : ℕ) : TurnsRead stop n := by
  induction n with
  | zero =>
    intro s xs ps gap hps _ _ _ _ _ hn
    exact absurd (List.eq_nil_of_length_eq_zero (Nat.le_zero.mp hn)) hps
  | succ n ih =>
    intro s xs ps gap hps hclosed hgap h hfits hquiet hn
    -- The white space decides what the turn takes for the name of a tag.
    cases gap with
    | nil =>
      obtain ⟨p, ps, rfl⟩ := List.exists_cons_of_ne_nil hps
      exact run_tag ih hclosed h hfits hquiet (Nat.le_of_succ_le_succ hn)
    | cons c gap =>
      have hgap' := (List.forall_mem_cons.mp hgap).2
      by_cases h32 : 32 ∈ gap
      · rw [modeOf_cons_of_mem h32] at hquiet ⊢
        exact run_attrs ih hgap' h32 hps hclosed h hfits hquiet hn
      · rw [modeOf_cons_of_not_mem h32] at hquiet ⊢
        obtain ⟨p, ps, rfl⟩ := List.exists_cons_of_ne_nil hps
        exact run_name ih hgap' h32 hclosed h hfits hquiet (Nat.le_of_succ_le_succ hn)

end Run

end Catse.Myxml2
