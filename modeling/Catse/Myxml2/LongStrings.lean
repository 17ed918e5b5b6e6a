import Catse.Lib.LongString
import Catse.Myxml2.Duplicates
import Catse.Myxml2.Entities
import Catse.Myxml2.Share
import Catse.Myxml2.Untouched

/-!
# String cells

What `fillRow` writes for a cell of a string column is the cell's text between `[[` and `]]`. The
text may have `]]` in it, end in a bracket that the two at the end pair up with, or begin with a
newline, and then it is not the value of what is written (`fillCell_string_iff`).
-/

namespace Catse.Myxml2

/-- Replacing writes nothing but what was there and what is put in its place. -/
theorem not_mem_strReplace {x : UInt8} {b c a : List UInt8} (hc : x ∉ c) (ha : x ∉ a) :
    x ∉ strReplace b c a := by
  fun_induction strReplace b c a with
  | case1 => exact ha
  | case2 y a hpre ih =>
    have hrest := ih fun hmem => ha (List.mem_cons_of_mem _ (List.mem_of_mem_drop hmem))
    exact fun hmem => (List.mem_append.mp hmem).elim hc hrest
  | case3 y a hpre ih =>
    rw [List.mem_cons, not_or] at ha ⊢
    exact ⟨ha.1, ih ha.2⟩

/-- No carriage return is left in a text whose escapes are replaced. -/
theorem not_mem_unescape (cell : List UInt8) : (13 : UInt8) ∉ unescape cell := by
  have hfilter : (13 : UInt8) ∉ strReplace (bytes "\r") [] cell := by
    have heq : strReplace (bytes "\r") [] cell = cell.filter (· ≠ 13) :=
      strReplace_singleton 13 cell
    rw [heq]
    simp
  have hamp := not_mem_strReplace (b := bytes "&amp;") (c := bytes "&") (by decide) hfilter
  have hgt := not_mem_strReplace (b := bytes "&gt;") (c := bytes ">") (by decide) hamp
  have hquot := not_mem_strReplace (b := bytes "&quot;") (c := bytes "\"") (by decide) hgt
  have hapos := not_mem_strReplace (b := bytes "&apos;") (c := bytes "'") (by decide) hquot
  exact not_mem_strReplace (by decide) hapos

/-- What is written for a cell of a string column is a Lua string with the cell's text as its value,
and nothing else, exactly when the text has no `]]` in it, does not end in `]`, and does not begin
with a newline. -/
theorem Context.fillCell_string_iff (c : Context) (shareCells : List StrPtr) {source : List UInt8}
    {r : List UInt8 × List UInt8} (h : convert .string source = .ok r) {cell : StrPtr}
    (hcell : c.text cell = r.2) :
    ∃ s, c.fillCell shareCells (.fix .string) cell = some (.text s) ∧
      (longString s = some (c.text cell, []) ↔
        (¬bytes "]]" <:+: c.text cell ∧ (c.text cell).getLast? ≠ some 93) ∧
          (c.text cell).head? ≠ some 10) := by
  refine ⟨_, rfl, longString_iff ?_⟩
  have hr : r.2 = strReplace (bytes "&#10;") (bytes "\n") (unescape source) := by
    cases h
    rfl
  rw [hcell, hr]
  exact not_mem_strReplace (by decide) (not_mem_unescape source)

/-- A text in which nothing is replaced is converted to itself. -/
theorem convert_string_self {t : List UInt8} (h : Untouched .string t) :
    convert .string t = .ok (t, t) := by
  obtain ⟨u, hu⟩ : ∃ u, convert .string t = .ok (u, u) := ⟨_, rfl⟩
  have hsame : u = t := (convert_spec hu).2.mpr h
  rw [hu, hsame]

theorem zero_first (_ : List UInt8) :
    ∃ c t, bytes "0" = c :: t ∧ (c = 45 ∨ 48 ≤ c ∧ c ≤ 57) :=
  ⟨48, [], rfl, .inr (by decide)⟩

/-- Surroundings in which every string has the same text. -/
def oneText (t : List UInt8) : Context where
  toAddresses := .below
  text := fun _ => t
  number := fun _ => bytes "0"
  number_first := zero_first

/-- A text that is the value of what is written for it. -/
theorem fillCell_string_plain :
    ∃ s, (oneText (bytes "a[1]b")).fillCell [] (.fix .string) (.buf 0) = some (.text s) ∧
      longString s = some (bytes "a[1]b", []) := by
  have hconv := convert_string_self (t := bytes "a[1]b") (by decide)
  have hcell : (oneText (bytes "a[1]b")).text (.buf 0) = bytes "a[1]b" := rfl
  obtain ⟨s, hs, hiff⟩ := (oneText (bytes "a[1]b")).fillCell_string_iff [] hconv hcell
  exact ⟨s, hs, hiff.mpr (by decide)⟩

/-- The text `x]` is written as `[[x]]]`, which is a string with the value `x` and a bracket. -/
theorem fillCell_string_bracket :
    convert .string (bytes "x]") = .ok (bytes "x]", bytes "x]") ∧
      (oneText (bytes "x]")).fillCell [] (.fix .string) (.buf 0) =
        some (.text (bytes "[[x]]]")) ∧
      longString (bytes "[[x]]]") = some (bytes "x", bytes "]") :=
  ⟨convert_string_self (by decide), rfl, by decide⟩

end Catse.Myxml2
