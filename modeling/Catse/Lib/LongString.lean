import Mathlib.Data.List.Infix
import Mathlib.Tactic.Common

/-!
# Long strings of Lua

A Lua string between `[[` and `]]`: it ends at the first `]]`, has no escape sequences, loses a line
break that directly follows the `[[`, and every line break in it is read as a newline.
`longString_iff` says which texts can be written so.
-/

namespace Catse

/-- A text up to the first `]]`, and what comes after it. -/
def untilClose : List UInt8 → Option (List UInt8 × List UInt8)
  | [] => none
  | x :: a =>
    if [93, 93].isPrefixOf (x :: a) then some ([], a.tail)
    else (untilClose a).map fun r => (x :: r.1, r.2)

/-- A text with every line break as a newline: a carriage return and a newline next to each other
are one line break. -/
def newlines : List UInt8 → List UInt8
  | 13 :: 10 :: a => 10 :: newlines a
  | 10 :: 13 :: a => 10 :: newlines a
  | 13 :: a => 10 :: newlines a
  | x :: a => x :: newlines a
  | [] => []

/-- The value of a long string that a source text starts with, and the text after it. -/
def longString (s : List UInt8) : Option (List UInt8 × List UInt8) :=
  if [91, 91].isPrefixOf s then
    (untilClose (s.drop 2)).map fun r =>
      let v := newlines r.1
      (if v.head? = some 10 then v.tail else v, r.2)
  else none

/-- Without carriage returns the line breaks are newlines already. -/
theorem newlines_eq_self {a : List UInt8} (h : (13 : UInt8) ∉ a) : newlines a = a := by
  fun_induction newlines a with
  | case1 a ih => exact absurd List.mem_cons_self h
  | case2 a ih => exact absurd (List.mem_cons_of_mem _ List.mem_cons_self) h
  | case3 a _ ih => exact absurd List.mem_cons_self h
  | case4 x a _ _ _ ih => rw [ih fun hmem => h (List.mem_cons_of_mem _ hmem)]
  | case5 => rfl

/-- A text that is closed has a first end. -/
theorem untilClose_close (t : List UInt8) :
    ∃ v r, untilClose (t ++ [93, 93]) = some (v, r) ∧ v ++ [93, 93] ++ r = t ++ [93, 93] ∧
      (r = [] ↔ ¬[93, 93] <:+: t ∧ t.getLast? ≠ some 93) := by
  induction t with
  | nil => exact ⟨[], [], rfl, rfl, iff_of_true rfl ⟨by decide, by decide⟩⟩
  | cons x t ih =>
    rw [List.cons_append, untilClose]
    by_cases hpre : [93, 93].isPrefixOf (x :: (t ++ [93, 93]))
    · -- The end is here: in the text, or its last character and the first bracket after it.
      obtain ⟨rfl, htail⟩ := List.cons_prefix_cons.mp (List.isPrefixOf_iff_prefix.mp hpre)
      rw [if_pos hpre]
      refine ⟨[], (t ++ [93, 93]).tail, rfl, ?_, iff_of_false ?_ ?_⟩
      · cases t with
        | nil => rfl
        | cons y t =>
          obtain ⟨rfl, -⟩ := List.cons_prefix_cons.mp htail
          rfl
      · intro hnil
        have hlen := congrArg List.length hnil
        rw [List.length_tail, List.length_append] at hlen
        simp at hlen
      · rintro ⟨hinf, hlast⟩
        cases t with
        | nil => exact hlast rfl
        | cons y t =>
          obtain ⟨rfl, -⟩ := List.cons_prefix_cons.mp htail
          exact hinf (List.prefix_append [93, 93] t).isInfix
    · obtain ⟨v, r, hclose, hsplit, hnil⟩ := ih
      rw [if_neg hpre, hclose]
      refine ⟨x :: v, r, rfl, by rw [List.cons_append, List.cons_append, hsplit], ?_⟩
      rw [hnil]
      have hno : ¬[93, 93] <+: x :: t := fun h =>
        hpre (List.isPrefixOf_iff_prefix.mpr (h.trans (List.prefix_append (x :: t) [93, 93])))
      rw [List.infix_cons_iff, or_iff_right hno]
      cases t with
      | nil =>
        have hx : x ≠ 93 := by
          rintro rfl
          exact hpre rfl
        simp [hx]
      | cons y t => rw [List.getLast?_cons_cons]

/-- A text without carriage returns is the value of the long string that is written for it exactly
when no `]]` occurs in it, it does not end in `]`, and it does not begin with a newline. -/
theorem longString_iff {t : List UInt8} (h : (13 : UInt8) ∉ t) :
    longString ([91, 91] ++ t ++ [93, 93]) = some (t, []) ↔
      (¬[93, 93] <:+: t ∧ t.getLast? ≠ some 93) ∧ t.head? ≠ some 10 := by
  obtain ⟨v, r, hclose, hsplit, hnil⟩ := untilClose_close t
  have hread : longString ([91, 91] ++ t ++ [93, 93]) =
      some (if (newlines v).head? = some 10 then (newlines v).tail else newlines v, r) := by
    show (untilClose (t ++ [93, 93])).map _ = _
    rw [hclose]
    rfl
  rw [hread, Option.some_inj, Prod.mk.injEq, hnil, and_comm]
  refine and_congr_right fun hwhole => ?_
  have hr := hnil.mpr hwhole
  rw [hr, List.append_nil] at hsplit
  have hv := List.append_cancel_right hsplit
  rw [hv, newlines_eq_self h]
  split_ifs with hhead
  · refine iff_of_false (fun htail => ?_) fun hne => hne hhead
    cases t with
    | nil => exact absurd hhead (by decide)
    | cons x t => exact absurd (congrArg List.length htail) (by simp)
  · exact iff_of_true rfl hhead

end Catse
