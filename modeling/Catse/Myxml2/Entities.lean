import Catse.Lib.Entities
import Catse.Myxml2.Convert

/-!
# The entities of a cell

What the replacements in `getVvs` make of the five entities of XML. Each of them decodes one entity
(`strReplace_eq_decode`), and those for `>`, `"`, `'` and `<` together decode these four at once.
The one for `&` comes first, so the text `&amp;gt;` of a cell in which `&gt;` was typed becomes
`&gt;` and then `>`: `unescape_spec` says for which texts this does not happen.
-/

namespace Catse.Myxml2

open Entity (decode escape)

/-- `&amp;`. -/
def amp : Entity (38 : UInt8) := ⟨bytes "amp;", 38, by decide, by decide⟩

/-- `&gt;`. -/
def gt : Entity (38 : UInt8) := ⟨bytes "gt;", 62, by decide, by decide⟩

/-- `&quot;`. -/
def quot : Entity (38 : UInt8) := ⟨bytes "quot;", 34, by decide, by decide⟩

/-- `&apos;`. -/
def apos : Entity (38 : UInt8) := ⟨bytes "apos;", 39, by decide, by decide⟩

/-- `&lt;`. -/
def lt : Entity (38 : UInt8) := ⟨bytes "lt;", 60, by decide, by decide⟩

/-- The entities other than `&amp;`. -/
def others : List (Entity (38 : UInt8)) := [gt, quot, apos, lt]

/-- A cell's text without carriage returns and with each entity replaced by its character, all of
them in one pass. -/
def decodeOnce (cell : List UInt8) : List UInt8 := decode (amp :: others) (cell.filter (· ≠ 13))

/-- What an XML writer makes of a text that was typed: `&` becomes `&amp;`, and of the other
characters that have an entity those become it that the writer chooses. -/
def typed (p : UInt8 → Bool) (u : List UInt8) : List UInt8 := escape (amp :: others) p u

theorem proper_others : Entity.Proper amp others where
  char_eq := rfl
  apart := by decide
  not_mem := by decide

/-! ## The replacements -/

/-- `strReplace` of an entity. -/
theorem strReplace_eq_decode (e : Entity (38 : UInt8)) (a : List UInt8) :
    strReplace e.spelling [e.char] a = decode [e] a := by
  fun_induction strReplace e.spelling [e.char] a with
  | case1 => exact Entity.decode_nil.symm
  | case2 x a hpre ih =>
    obtain ⟨rfl, r, rfl⟩ := List.cons_prefix_cons.mp (List.isPrefixOf_iff_prefix.mp hpre)
    have hnext : Entity.next? [e] (38 :: (e.name ++ r)) = some e := List.find?_cons_of_pos hpre
    have hdrop : (e.name ++ r).drop (e.spelling.length - 1) = r := List.drop_left
    rw [hdrop] at ih ⊢
    rw [ih, Entity.decode_of_next? hnext, List.singleton_append]
  | case3 x a hpre ih =>
    have hnone : Entity.next? [e] (x :: a) = none := by
      rw [Entity.next?_eq_none_iff]
      intro e' he' hpre'
      rw [List.mem_singleton.mp he'] at hpre'
      exact hpre (List.isPrefixOf_iff_prefix.mpr hpre')
    rw [ih, Entity.decode_of_none hnone]

/-- `strReplace` of one character by nothing. -/
theorem strReplace_singleton (x : UInt8) (a : List UInt8) :
    strReplace [x] [] a = a.filter (· ≠ x) := by
  fun_induction strReplace [x] [] a with
  | case1 => rfl
  | case2 y a hpre ih =>
    have hy := (List.cons_prefix_cons.mp (List.isPrefixOf_iff_prefix.mp hpre)).1
    rw [List.filter_cons_of_neg (by simp [hy]), List.nil_append, ih]
    rfl
  | case3 y a hpre ih =>
    have hy : y ≠ x := by
      intro hy
      exact hpre (List.isPrefixOf_iff_prefix.mpr ⟨a, by rw [hy]; rfl⟩)
    rw [List.filter_cons_of_pos (by simpa using hy), ih]

/-- The five replacements decode `&amp;` and then the others. -/
theorem unescape_eq_decode (cell : List UInt8) :
    unescape cell = decode others (decode [amp] (cell.filter (· ≠ 13))) := by
  have hchain : ∀ a, decode [lt] (decode [apos] (decode [quot] (decode [gt] a))) =
      decode others a := by
    intro a
    rw [Entity.decode_append (by decide), Entity.decode_append (by decide),
      Entity.decode_append (by decide)]
    rfl
  rw [← hchain, ← strReplace_singleton, ← strReplace_eq_decode amp, ← strReplace_eq_decode gt,
    ← strReplace_eq_decode quot, ← strReplace_eq_decode apos, ← strReplace_eq_decode lt]
  rfl

/-- Carriage returns are no part of an entity. -/
theorem filter_typed (p : UInt8 → Bool) (u : List UInt8) :
    (typed p u).filter (· ≠ 13) = typed p (u.filter (· ≠ 13)) := by
  induction u with
  | nil => rfl
  | cons c u ih =>
    have hspelled : ∀ e ∈ amp :: others, e.spelling.filter (· ≠ 13) = e.spelling ∧ e.char ≠ 13 := by
      decide
    rw [typed, Entity.escape_cons, List.filter_append, ← typed, ih]
    by_cases hc : c = 13
    · rw [hc, List.filter_cons_of_neg (by decide)]
      rfl
    · rw [List.filter_cons_of_pos (by simpa using hc), typed, typed, Entity.escape_cons]
      congr 1
      rcases proper_others.escapeChar_cases (p := p) c with ⟨-, h⟩ | ⟨-, e, he, -, h⟩ | ⟨-, h⟩
      · rw [h]
        exact (hspelled amp List.mem_cons_self).1
      · rw [h]
        exact (hspelled e (List.mem_cons_of_mem _ he)).1
      · rw [h, List.filter_cons_of_pos (by simpa using hc), List.filter_nil]

/-- Decoding once gives back what was typed. -/
theorem decodeOnce_typed (p : UInt8 → Bool) (u : List UInt8) :
    decodeOnce (typed p u) = u.filter (· ≠ 13) := by
  rw [decodeOnce, filter_typed]
  exact proper_others.decode_escape _

/-- The entities of a cell's text are decoded in one pass exactly when the text has no `&amp;` with
`gt;`, `quot;`, `apos;` or `lt;` after it. A text that was typed comes back from what an XML writer
makes of it exactly when it has nothing in it that looks like one of the entities `&gt;`, `&quot;`,
`&apos;` and `&lt;`. -/
theorem unescape_spec (cell : List UInt8) (p : UInt8 → Bool) (u : List UInt8) :
    (unescape cell = decodeOnce cell ↔
      ∀ e ∈ others, ¬amp.spelling ++ e.name <:+: cell.filter (· ≠ 13)) ∧
    (unescape (typed p u) = u.filter (· ≠ 13) ↔
      ∀ e ∈ others, ¬e.spelling <:+: u.filter (· ≠ 13)) := by
  have hcell : ∀ cell, unescape cell = decodeOnce cell ↔
      ∀ e ∈ others, ¬amp.spelling ++ e.name <:+: cell.filter (· ≠ 13) := by
    intro cell
    rw [unescape_eq_decode]
    exact (Entity.decode_mark_first rfl _).2
  refine ⟨hcell cell, ?_⟩
  have hsource := hcell (typed p u)
  rw [decodeOnce_typed, filter_typed] at hsource
  rw [hsource]
  apply forall₂_congr
  intro e he
  rw [typed, proper_others.infix_escape_iff he]

/-- `&gt;` typed into a cell is written as `&amp;gt;`, and comes out as `>`. -/
theorem unescape_twice :
    typed (fun _ => true) (bytes "&gt;") = bytes "&amp;gt;" ∧
      decodeOnce (bytes "&amp;gt;") = bytes "&gt;" ∧ unescape (bytes "&amp;gt;") = bytes ">" := by
  have htyped : typed (fun _ => true) (bytes "&gt;") = bytes "&amp;gt;" := by decide
  have honce : decodeOnce (bytes "&amp;gt;") = bytes "&gt;" := by
    rw [← htyped, decodeOnce_typed]
    decide
  refine ⟨htyped, honce, ?_⟩
  have hamp : decode [amp] (bytes "&amp;gt;") = 38 :: (gt.name ++ []) := by
    have hread : decode [amp] (gt.name ++ []) = gt.name ++ decode [amp] [] :=
      Entity.decode_append_of_not_mem gt.not_mem []
    have hnext : Entity.next? [amp] (38 :: (amp.name ++ (gt.name ++ []))) = some amp := by rfl
    rw [Entity.decode_nil] at hread
    exact (Entity.decode_of_next? hnext).trans (congrArg (List.cons 38) hread)
  have hgt : Entity.next? others (38 :: (gt.name ++ [])) = some gt := by rfl
  have hfilter : (bytes "&amp;gt;").filter (· ≠ 13) = bytes "&amp;gt;" := by decide
  rw [unescape_eq_decode, hfilter, hamp, Entity.decode_of_next? hgt, Entity.decode_nil]
  rfl

end Catse.Myxml2
