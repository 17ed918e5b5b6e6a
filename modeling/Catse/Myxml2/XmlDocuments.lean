import Catse.Myxml2.XmlSpaces
import Mathlib.Data.List.GetD
import Mathlib.Data.List.TakeWhile

/-!
# Documents

`getXml` on whole documents: it returns the records of a compact document in document order
(`getXmlNodes_compact`), and of one with white space between tags it returns the same list, or
fails, just if the last tag is skipped or no tag with a record is (`getXmlNodes_space_iff`).
-/

namespace Catse.Myxml2

open Xml

/-! ## Strings in the buffer -/

theorem strlen_eq {src : List UInt8} (h : ∀ b ∈ src, b ≠ 0) : strlen src = src.length := by
  rw [strlen, List.takeWhile_eq_self_iff.mpr fun b hb => decide_eq_true (h b hb)]

theorem holds_getD (src : List UInt8) (i : ℕ) : Holds (fun i => src.getD i 0) i (src.drop i) := by
  induction hn : src.length - i generalizing i with
  | zero =>
    rw [List.drop_of_length_le (by omega)]
    trivial
  | succ n ih =>
    have hlt : i < src.length := by omega
    rw [List.drop_eq_getElem_cons hlt]
    exact ⟨List.getD_eq_getElem _ _ hlt, ih (i + 1) (by omega)⟩

theorem attribute_ne_zero (a : Attribute) : ∀ b ∈ a.bytes, b ≠ 0 :=
  List.forall_mem_cons.mpr ⟨by decide, List.forall_mem_append.mpr
    ⟨fun b hb => (name_key a.key b hb).1, List.forall_mem_cons.mpr ⟨by decide,
      List.forall_mem_cons.mpr ⟨by decide, List.forall_mem_append.mpr
        ⟨fun b hb => (a.value_ok b hb).1, by simp⟩⟩⟩⟩⟩

theorem piece_ne_zero (p : SpacedTag) : ∀ b ∈ p.bytes, b ≠ 0 := by
  have hopen : ∀ (name : Name) (attrs : List Attribute),
      ∀ b ∈ 60 :: (name.chars ++ attrs.flatMap Attribute.bytes), b ≠ 0 := by
    intro name attrs
    refine List.forall_mem_cons.mpr ⟨by decide, List.forall_mem_append.mpr
      ⟨fun b hb => (name_key name b hb).1, fun b hb => ?_⟩⟩
    obtain ⟨a, -, hb⟩ := List.mem_flatMap.mp hb
    exact attribute_ne_zero a b hb
  have htag : ∀ b ∈ p.tag.bytes, b ≠ 0 := by
    unfold Tag.bytes
    cases p.tag with
    | start name attrs text =>
      exact List.forall_mem_append.mpr ⟨hopen name attrs, List.forall_mem_cons.mpr ⟨by decide,
        fun b hb => (text.chars_ok b hb).1⟩⟩
    | empty name attrs =>
      rw [Tag.ending]
      exact List.forall_mem_append.mpr ⟨hopen name attrs, by simp⟩
    | close name =>
      rw [Tag.head, Tag.ending]
      exact List.forall_mem_append.mpr ⟨List.forall_mem_cons.mpr ⟨by decide,
        List.forall_mem_cons.mpr ⟨by decide, fun b hb => (name_key name b hb).1⟩⟩, by simp⟩
  exact List.forall_mem_append.mpr ⟨htag, fun b hb => (space_plain b (p.gap_space b hb)).1⟩

theorem piece_length (p : SpacedTag) : 0 < p.bytes.length := by
  rw [SpacedTag.bytes, Tag.bytes, List.append_assoc, List.length_append]
  cases p.tag <;> exact Nat.add_pos_left (Nat.succ_pos _) _

theorem length_le_flatMap (ps : List SpacedTag) :
    ps.length ≤ (ps.flatMap SpacedTag.bytes).length := by
  induction ps with
  | nil => exact le_rfl
  | cons p ps ih =>
    have hp := piece_length p
    rw [List.flatMap_cons, List.length_append, List.length_cons]
    omega

/-- The strings of the records are those that they should have. -/
theorem map_node {buf : ℕ → UInt8} {stop : ℕ} {d : List XmlDot} {xs : List XmlNode}
    (h : List.Forall₂ (XmlDot.Shows buf stop) d xs) : d.map (XmlDot.node buf stop) = xs := by
  have hkv : ∀ {vkv : List XmlKv} {ys}, List.Forall₂ (XmlKv.Shows buf stop) vkv ys →
      vkv.map (fun kv => (kv.k, cstr buf stop kv.v)) = ys := by
    intro vkv ys h
    induction h with
    | nil => rfl
    | cons hy _ ih => rw [List.map_cons, ih, hy.k, hy.v.cstr_eq hy.v.lt]
  induction h with
  | nil => rfl
  | @cons d x _ _ hx _ ih =>
    obtain ⟨hname, htext, hvkv⟩ := hx
    have hnode : d.node buf stop = x := by
      rw [XmlDot.node, hname, hkv hvkv]
      cases hd : d.text with
      | none =>
        rw [hd] at htext
        rw [Option.elim_none, ← show x.text = [] from htext]
      | some i =>
        rw [hd] at htext
        have hstr : StrAt buf stop i x.text := htext
        rw [Option.elim_some, hstr.cstr_eq hstr.lt]
    rw [List.map_cons, ih, hnode]

/-! ## Runs over documents -/

theorem filterMap_node (d : Document) :
    d.root.tags.filterMap node = d.root.openings.filterMap recordOf := by
  rw [← Element.filterMap_tags, List.filterMap_filterMap]
  rfl

theorem closed_of_tags {d : Document} {ps : List SpacedTag}
    (hps : ps.map SpacedTag.tag = d.root.tags) (hlast : ∀ p ∈ ps.getLast?, p.gap = []) :
    Closed ps := by
  intro p hp
  refine ⟨⟨d.name, ?_⟩, hlast p hp⟩
  have htags : (ps.map SpacedTag.tag).getLast? = some (.close d.name) := by
    rw [hps, Document.root, Element.tags, ← List.cons_append, List.getLast?_concat]
  rw [List.getLast?_map, Option.mem_def.mp hp] at htags
  exact Option.some_inj.mp htags

theorem prolog_ne_zero (p : Prolog) : ∀ b ∈ p.bytes, b ≠ 0 :=
  List.forall_mem_cons.mpr ⟨by decide, List.forall_mem_cons.mpr ⟨by decide,
    List.forall_mem_append.mpr ⟨fun b hb => (p.chars_ok b hb).1,
      List.forall_mem_cons.mpr ⟨by decide, List.forall_mem_cons.mpr ⟨by decide,
        fun b hb => (space_plain b (p.space_ok b hb)).1⟩⟩⟩⟩⟩

/-- The state at the start. -/
theorem reads_start (b : UInt8) (bs : List UInt8) :
    XmlState.Reads (b :: bs).length ⟨fun i => (b :: bs).getD i 0, 0, [], 0⟩ bs [] :=
  ⟨holds_getD (b :: bs) 1, (Nat.add_right_comm 0 1 bs.length).trans (by
    rw [Nat.zero_add, List.length_cons]), .nil⟩

/-- The loop gets to the first tag of the root. -/
theorem exists_root (d : Document) {bs : List UInt8} (hbs : ∀ b ∈ 60 :: bs, b ≠ 0) :
    ∃ (n : ℕ) (s : XmlState), (60 :: bs).length ≤ n ∧
      strlen (d.start ++ 60 :: bs) = (d.start ++ 60 :: bs).length ∧
      getXml (d.start ++ 60 :: bs) = getXmlLoop (d.start ++ 60 :: bs).length n s ∧
      s.Reads (d.start ++ 60 :: bs).length bs [] ∧ s.bufVkvLen = 0 := by
  have hstrlen : strlen (d.start ++ 60 :: bs) = (d.start ++ 60 :: bs).length := by
    refine strlen_eq (List.forall_mem_append.mpr ⟨?_, hbs⟩)
    unfold Document.start
    cases d.prolog with
    | none => exact fun b hb => absurd hb List.not_mem_nil
    | some p => exact prolog_ne_zero p
  rw [getXml, hstrlen]
  unfold Document.start
  cases d.prolog with
  | none => exact ⟨_, _, le_rfl, rfl, rfl, reads_start 60 bs, rfl⟩
  | some p =>
    have hchars : ∀ b ∈ p.chars ++ 63 :: 62 :: p.space, b ≠ 60 :=
      List.forall_mem_append.mpr ⟨fun b hb => (p.chars_ok b hb).2, List.forall_mem_cons.mpr
        ⟨by decide, List.forall_mem_cons.mpr ⟨by decide, fun b hb h =>
          absurd (h ▸ p.space_ok b hb) (by decide)⟩⟩⟩
    have hbytes : p.bytes ++ 60 :: bs =
        60 :: 63 :: ((p.chars ++ 63 :: 62 :: p.space) ++ 60 :: bs) := rfl
    rw [Option.elim_some, hbytes]
    obtain ⟨s, hs, hreads, hlen⟩ := turn_prolog hchars (reads_start 60 _)
      ((63 : UInt8) :: ((p.chars ++ 63 :: 62 :: p.space) ++ 60 :: bs)).length
    refine ⟨_, s, ?_, rfl, hs, hreads, hlen⟩
    simp only [List.length_cons, List.length_append]
    omega

/-- What `getXml` does with a document with white space between its tags. -/
theorem getXmlNodes_pieces {d : Document}
    (hfits : WithinLimits (d.root.openings.filterMap recordOf)) {ps : List SpacedTag}
    (hps : ps.map SpacedTag.tag = d.root.tags) (hlast : ∀ p ∈ ps.getLast?, p.gap = [])
    (hquiet : Quiet .tag ps) :
    (Overruns .tag ps →
      getXmlNodes (d.start ++ ps.flatMap SpacedTag.bytes) = .error .unexpectedEnd) ∧
    (¬Overruns .tag ps → getXmlNodes (d.start ++ ps.flatMap SpacedTag.bytes) =
      .ok ((kept .tag ps).filterMap node)) := by
  have hne : ps ≠ [] := by
    rintro rfl
    cases hps
  have hlimits : Fits 0 0 (ps.map SpacedTag.tag) := by
    rw [← filterMap_node, ← hps] at hfits
    exact ⟨(Nat.zero_add _).symm ▸ hfits.nodes, hfits.attrs, (Nat.zero_add _).symm ▸ hfits.all⟩
  have hzero : ∀ b ∈ ps.flatMap SpacedTag.bytes, b ≠ 0 := by
    intro b hb
    obtain ⟨p, -, hb⟩ := List.mem_flatMap.mp hb
    exact piece_ne_zero p b hb
  have hcount := length_le_flatMap ps
  obtain ⟨bs, hbs⟩ := flatMap_cons hne
  rw [hbs] at hzero hcount ⊢
  obtain ⟨n, s, hn, hstrlen, hstart, hreads, hlen⟩ := exists_root d hzero
  have hread : s.Reads (d.start ++ 60 :: bs).length ([] ++ ps.flatMap SpacedTag.bytes).tail [] := by
    rw [hbs]
    exact hreads
  obtain ⟨hfails, hreturns⟩ := turnsRead _ n hne (closed_of_tags hps hlast)
    (fun b hb => absurd hb List.not_mem_nil) hread (hlen ▸ hlimits) hquiet (hcount.trans hn)
  rw [getXmlNodes, hstart, hstrlen]
  refine ⟨fun h => ?_, fun h => ?_⟩
  · rw [hfails h]
    rfl
  · obtain ⟨s', hs', hvd⟩ := hreturns h
    rw [hs']
    exact congrArg Except.ok (map_node hvd)

/-! ## Compact documents -/

/-- A tag without white space behind it. -/
def compact (t : Tag) : SpacedTag :=
  ⟨t, [], fun _ hb => absurd hb List.not_mem_nil, fun _ _ _ _ => rfl⟩

theorem map_compact (ts : List Tag) : (ts.map compact).map SpacedTag.tag = ts := by
  rw [List.map_map]
  exact List.map_id ts

theorem flatMap_compact (ts : List Tag) :
    (ts.map compact).flatMap SpacedTag.bytes = ts.flatMap Tag.bytes := by
  rw [List.flatMap_map]
  exact congrArg (fun f => List.flatMap f ts) (funext fun t => List.append_nil _)

/-- Without white space no tag is skipped. -/
theorem kept_compact (ts : List Tag) : kept .tag (ts.map compact) = ts ∧
    ¬Overruns .tag (ts.map compact) ∧ Quiet .tag (ts.map compact) := by
  induction ts with
  | nil => exact ⟨rfl, not_false, trivial⟩
  | cons t ts ih =>
    obtain ⟨hkept, hover, hquiet⟩ := ih
    exact ⟨congrArg (t :: ·) hkept, hover, hquiet⟩

/-- The tags of a compact document are all recorded that have a record. -/
theorem getXmlNodes_tags {d : Document}
    (hfits : WithinLimits (d.root.openings.filterMap recordOf)) :
    getXmlNodes d.bytes = .ok (d.root.tags.filterMap node) := by
  obtain ⟨hkept, hover, hquiet⟩ := kept_compact d.root.tags
  have hlast : ∀ p ∈ (d.root.tags.map compact).getLast?, p.gap = [] := by
    intro p hp
    obtain ⟨t, -, rfl⟩ := List.mem_map.mp (List.mem_of_getLast? hp)
    rfl
  have hread := (getXmlNodes_pieces hfits (map_compact _) hlast hquiet).2 hover
  rw [hkept, flatMap_compact] at hread
  exact hread

/-- `getXml` returns the elements of a compact document that are recorded, in document order, with
their attributes and texts. -/
theorem getXmlNodes_compact {d : Document}
    (hfits : WithinLimits (d.root.openings.filterMap recordOf)) :
    getXmlNodes d.bytes = .ok (d.root.openings.filterMap recordOf) := by
  rw [getXmlNodes_tags hfits, filterMap_node]

/-! ## Two cells -/

/-- A name for documents that are written out. -/
def rowName : Name := ⟨bytes "row", by decide +kernel, by decide +kernel⟩

def cellName : Name := ⟨bytes "c", by decide +kernel, by decide +kernel⟩

def valueName : Name := ⟨bytes "v", by decide +kernel, by decide +kernel⟩

/-- `r="A1"`, with another address. -/
def address (s : String) (hs : ∀ b ∈ bytes s, b ≠ 0 ∧ b ≠ 34) : Attribute :=
  ⟨⟨bytes "r", by decide +kernel, by decide +kernel⟩, bytes s, hs⟩

def noText : CharData := ⟨[], fun _ hb => absurd hb List.not_mem_nil⟩

/-- `<row><c r="A1"><v>7</v></c><c r="B1"/></row>`. -/
def twoCells : Document where
  prolog := none
  name := rowName
  attrs := []
  text := noText
  children :=
    [.node cellName [address "A1" (by decide +kernel)] noText
        [.node valueName [] ⟨bytes "7", by decide +kernel⟩ []],
      .empty cellName [address "B1" (by decide +kernel)]]

/-- The same with a line break behind the closing tag that is tag `i`. -/
def twoLines (name : Name) (i : ℕ) : List SpacedTag :=
  (twoCells.root.tags.map compact).set i ⟨.close name, [10], by simp, by rintro _ _ _ ⟨⟩⟩

theorem getXmlNodes_twoCells : getXmlNodes twoCells.bytes =
    .ok [⟨.c, [], [(.r, bytes "A1")]⟩, ⟨.v, bytes "7", []⟩, ⟨.c, [], [(.r, bytes "B1")]⟩] :=
  getXmlNodes_compact ⟨by decide +kernel, by decide +kernel, by decide +kernel⟩

/-! ## White space between tags -/

/-- With white space between its tags, the list for a document is the same as for the compact
document, or there is an error, just if the last tag is skipped or no tag with a record is. -/
theorem getXmlNodes_space_iff {d : Document}
    (hfits : WithinLimits (d.root.openings.filterMap recordOf)) {ps : List SpacedTag}
    (hps : ps.map SpacedTag.tag = d.root.tags) (hlast : ∀ p ∈ ps.getLast?, p.gap = [])
    (hquiet : Quiet .tag ps) :
    (getXmlNodes (d.start ++ ps.flatMap SpacedTag.bytes) = getXmlNodes d.bytes ∨
      ∃ e, getXmlNodes (d.start ++ ps.flatMap SpacedTag.bytes) = .error e) ↔
    (Overruns .tag ps ∨ ∀ t ∈ skipped .tag ps, node t = none) := by
  obtain ⟨hfails, hreturns⟩ := getXmlNodes_pieces hfits hps hlast hquiet
  by_cases hover : Overruns .tag ps
  · exact iff_of_true (.inr ⟨_, hfails hover⟩) (.inl hover)
  · have hcompact : getXmlNodes d.bytes = .ok ((ps.map SpacedTag.tag).filterMap node) := by
      rw [getXmlNodes_tags hfits, hps]
    have hcount := length_kept .tag ps
    rw [hreturns hover, hcompact, or_iff_right hover]
    constructor
    · rintro (heq | ⟨e, he⟩)
      · -- The lists have the same length, so there is nothing of a skipped tag that is missing.
        rw [Except.ok.inj heq] at hcount
        have hnil := List.eq_nil_of_length_eq_zero (Nat.add_eq_left.mp hcount)
        exact List.filterMap_eq_nil_iff.mp hnil
      · cases he
    · exact fun h => .inl (congrArg Except.ok (filterMap_kept h))

/-- A line break in front of a closing tag changes nothing. -/
theorem getXmlNodes_space_harmless :
    getXmlNodes (twoCells.start ++ (twoLines valueName 3).flatMap SpacedTag.bytes) =
        getXmlNodes twoCells.bytes ∨
      ∃ e, getXmlNodes (twoCells.start ++ (twoLines valueName 3).flatMap SpacedTag.bytes) =
        .error e := by
  have hquiet : Quiet .tag (twoLines valueName 3) := trivial
  exact (getXmlNodes_space_iff ⟨by decide +kernel, by decide +kernel, by decide +kernel⟩ rfl
    (by decide +kernel) hquiet).mpr (.inr (by decide +kernel))

/-- A line break in front of a cell loses the cell. -/
theorem getXmlNodes_space_lost : (twoLines cellName 4).map SpacedTag.tag = twoCells.root.tags ∧
    (∀ p ∈ (twoLines cellName 4).getLast?, p.gap = []) ∧
    getXmlNodes (twoCells.start ++ (twoLines cellName 4).flatMap SpacedTag.bytes) =
      .ok [⟨.c, [], [(.r, bytes "A1")]⟩, ⟨.v, bytes "7", []⟩] ∧
    getXmlNodes twoCells.bytes =
      .ok [⟨.c, [], [(.r, bytes "A1")]⟩, ⟨.v, bytes "7", []⟩, ⟨.c, [], [(.r, bytes "B1")]⟩] :=
  ⟨rfl, by decide +kernel, by decide +kernel, by decide +kernel⟩

end Catse.Myxml2
