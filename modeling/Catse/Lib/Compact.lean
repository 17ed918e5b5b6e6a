import Mathlib.Algebra.Group.Nat.Defs
import Mathlib.Data.List.Basic
import Mathlib.Logic.Function.Basic
import Mathlib.Order.Lattice

/-!
# Compaction in place

A loop over places that go up, which moves what it keeps to the places from `a` on, in the array
that it reads. It never writes ahead of where it reads (`slide_eq`), so that the places from `a` on
have what the kept ones had at the start, in order, and the others are as they were (`placed`).
-/

namespace Catse

variable {α : Type}

/-- One round: the number of the next place to be filled, and the array. -/
def slideStep (f : ℕ → Bool) (r : ℕ × (ℕ → α)) (j : ℕ) : ℕ × (ℕ → α) :=
  if f j then (r.1 + 1, Function.update r.2 r.1 (r.2 j)) else r

theorem slideStep_fst (f : ℕ → Bool) (a : ℕ) (row : ℕ → α) (j : ℕ) :
    (slideStep f (a, row) j).1 = if f j then a + 1 else a := by
  rw [slideStep]
  split_ifs <;> rfl

/-- Nothing is written beyond the next place. -/
theorem slideStep_snd_of_lt (f : ℕ → Bool) {a k : ℕ} (h : a < k) (row : ℕ → α) (j : ℕ) :
    (slideStep f (a, row) j).2 k = row k := by
  rw [slideStep]
  split_ifs
  · exact Function.update_of_ne h.ne' _ _
  · rfl

/-- The loop over the places `l`. -/
def slide (f : ℕ → Bool) (l : List ℕ) (r : ℕ × (ℕ → α)) : ℕ × (ℕ → α) := l.foldl (slideStep f) r

/-- An array after the elements at the places `kept` have moved to the places from `a` on. -/
def placed (a : ℕ) (kept : List ℕ) (row : ℕ → α) (k : ℕ) : α :=
  if a ≤ k then (kept[k - a]?).elim (row k) row else row k

@[simp] theorem placed_nil (a : ℕ) (row : ℕ → α) : placed a [] row = row := by
  funext k
  simp [placed]

theorem placed_add {a k j : ℕ} {kept : List ℕ} (row : ℕ → α) (h : kept[k]? = some j) :
    placed a kept row (a + k) = row j := by
  rw [placed, if_pos (Nat.le_add_right a k), Nat.add_sub_cancel_left, h]
  rfl

/-- The first element moves, and then the others, which are not written to. -/
theorem placed_cons {a j : ℕ} {kept : List ℕ} (row : ℕ → α) (h : ∀ i ∈ kept, a < i) :
    placed (a + 1) kept (Function.update row a (row j)) = placed a (j :: kept) row := by
  funext k
  rcases lt_trichotomy k a with hk | rfl | hk
  · rw [placed, placed, if_neg (by omega), if_neg (by omega), Function.update_of_ne hk.ne]
  · rw [placed, placed, if_neg (by omega), if_pos le_rfl, Function.update_self, Nat.sub_self]
    rfl
  · obtain ⟨i, rfl⟩ : ∃ i, k = a + 1 + i := ⟨k - (a + 1), by omega⟩
    have hi : a + 1 + i - a = i + 1 := by omega
    rw [placed, placed, if_pos (by omega), if_pos (by omega), Nat.add_sub_cancel_left, hi,
      List.getElem?_cons_succ]
    cases hget : kept[i]? with
    | none => exact Function.update_of_ne (by omega) _ _
    | some i' =>
      have := h i' (List.mem_of_getElem? hget)
      exact Function.update_of_ne (by omega) _ _

theorem slide_cons (f : ℕ → Bool) (j : ℕ) (l : List ℕ) (r : ℕ × (ℕ → α)) :
    slide f (j :: l) r = slide f l (slideStep f r j) := rfl

/-- What the loop comes to. -/
theorem slide_eq (f : ℕ → Bool) {l : List ℕ} (hl : l.Pairwise (· < ·)) {a : ℕ}
    (ha : ∀ j ∈ l, a ≤ j) (row : ℕ → α) :
    slide f l (a, row) = (a + (l.filter f).length, placed a (l.filter f) row) := by
  induction l generalizing a row with
  | nil => rw [List.filter_nil, placed_nil]; rfl
  | cons j l ih =>
    obtain ⟨hj, hl⟩ := List.pairwise_cons.mp hl
    obtain ⟨haj, ha⟩ := List.forall_mem_cons.mp ha
    rw [slide_cons, slideStep]
    by_cases hf : f j = true
    · have hlt : ∀ i ∈ l, a < i := fun i hi => lt_of_le_of_lt haj (hj i hi)
      rw [if_pos hf, List.filter_cons_of_pos hf, ih hl hlt,
        placed_cons row fun i hi => hlt i (List.mem_of_mem_filter hi), List.length_cons]
      exact Prod.ext (by dsimp only; omega) rfl
    · rw [if_neg hf, List.filter_cons_of_neg hf, ih hl ha]

end Catse
