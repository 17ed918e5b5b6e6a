import Catse.Lib.Compact
import Catse.Lib.SortedTable
import Mathlib.Tactic.Ring

/-!
# Sorted arrays

A sorted table as a C program has it: an array, of which the first `n` elements are the table
(`elements`). `bisect` is its binary search between two bounds, which ends with the bounds crossed
unless it hits, `moveUp` makes room for a new element, and `sift` drops elements in place. Each of
them does to the table what `SortedTable` does to a list: `bisect_of_found` and `bisect_of_absent`
for the search, `elements_insert` for a new element, `elements_sift` for the dropping. `IsBsearch`
is what is known of the `bsearch` of the C library.
-/

namespace Catse.SortedArray

open SortedTable

variable {α : Type}

/-- The first `n` elements of an array. -/
def elements (arr : ℕ → α) (n : ℕ) : List α := (List.range n).map arr

@[simp] theorem length_elements (arr : ℕ → α) (n : ℕ) : (elements arr n).length = n := by
  rw [elements, List.length_map, List.length_range]

theorem getElem?_elements (arr : ℕ → α) {n i : ℕ} (h : i < n) :
    (elements arr n)[i]? = some (arr i) := by
  rw [elements, List.getElem?_map, List.getElem?_range h]
  rfl

theorem getElem_elements (arr : ℕ → α) {n i : ℕ} (h : i < (elements arr n).length) :
    (elements arr n)[i] = arr i := by
  simp only [elements, List.getElem_map, List.getElem_range]

theorem mem_elements {arr : ℕ → α} {n : ℕ} {x : α} : x ∈ elements arr n ↔ ∃ i < n, arr i = x := by
  simp only [elements, List.mem_map, List.mem_range]

/-- A relation of the elements in order, by their places. -/
theorem pairwise_elements {R : α → α → Prop} {arr : ℕ → α} {n : ℕ} :
    (elements arr n).Pairwise R ↔ ∀ i j, i < j → j < n → R (arr i) (arr j) := by
  rw [List.pairwise_iff_getElem]
  simp only [getElem_elements, length_elements]
  exact ⟨fun h i j hij hj => h i j (hij.trans hj) hj hij, fun h i j _ hj hij => h i j hij hj⟩

/-! ## The search -/

/-- The bounds when a search ends, and the place of what was hit. -/
structure Ended where
  a : ℤ
  b : ℤ
  hit : Option ℕ
  deriving DecidableEq

/-- The binary search between the bounds `a` and `b`, by the comparison with the element at a
place. -/
def bisect (cmp : ℕ → ℤ) (a b : ℤ) : Ended :=
  if a ≤ b then
    if cmp ((a + b) / 2).toNat < 0 then bisect cmp a ((a + b) / 2 - 1)
    else if 0 < cmp ((a + b) / 2).toNat then bisect cmp ((a + b) / 2 + 1) b
    else ⟨a, b, some ((a + b) / 2).toNat⟩
  else ⟨a, b, none⟩
termination_by (b + 1 - a).toNat

/-- The middle of two bounds, the upper one of which is exclusive in `search`. -/
theorem middle_cast {a e : ℕ} (h : a < e) : ((a : ℤ) + (e - 1)) / 2 = ((a + e - 1) / 2 : ℕ) := by
  omega

/-- A search that hits ends there, and its bounds have not crossed. -/
theorem bisect_found {cmp : ℕ → ℤ} {a e c : ℕ} (h : search cmp a e = .found c) :
    ∃ a' b' : ℤ, bisect cmp a (e - 1) = ⟨a', b', some c⟩ ∧ a' ≤ b' := by
  fun_induction search cmp a e with
  | case1 a e hlt hneg ih =>
    obtain ⟨a', b', heq, hle⟩ := ih h
    refine ⟨a', b', ?_, hle⟩
    rw [bisect, if_pos (by omega), middle_cast hlt, Int.toNat_natCast, if_pos hneg, heq]
  | case2 a e hlt hneg hpos ih =>
    obtain ⟨a', b', heq, hle⟩ := ih h
    refine ⟨a', b', ?_, hle⟩
    rw [bisect, if_pos (by omega), middle_cast hlt, Int.toNat_natCast, if_neg hneg, if_pos hpos,
      ← heq]
    rfl
  | case3 a e hlt hneg hpos =>
    cases h
    refine ⟨a, e - 1, ?_, by omega⟩
    rw [bisect, if_pos (by omega), middle_cast hlt, Int.toNat_natCast, if_neg hneg, if_neg hpos]
  | case4 a e hlt => cases h

/-- A search that does not hit ends with the bounds crossed, at the place for the target. -/
theorem bisect_absent {cmp : ℕ → ℤ} {a e p : ℕ} (hae : a ≤ e) (h : search cmp a e = .absent p) :
    bisect cmp a (e - 1) = ⟨p, p - 1, none⟩ ∧ p ≤ e := by
  fun_induction search cmp a e with
  | case1 a e hlt hneg ih =>
    obtain ⟨heq, hle⟩ := ih (by omega) h
    refine ⟨?_, by omega⟩
    rw [bisect, if_pos (by omega), middle_cast hlt, Int.toNat_natCast, if_pos hneg, heq]
  | case2 a e hlt hneg hpos ih =>
    obtain ⟨heq, hle⟩ := ih (by omega) h
    refine ⟨?_, hle⟩
    rw [bisect, if_pos (by omega), middle_cast hlt, Int.toNat_natCast, if_neg hneg, if_pos hpos,
      ← heq]
    rfl
  | case3 a e hlt hneg hpos => cases h
  | case4 a e hlt =>
    cases h
    have hpe : e = p := by omega
    rw [hpe]
    exact ⟨by rw [bisect, if_neg (by omega)], le_rfl⟩

/-- The search looks at the places between its bounds only. -/
theorem search_congr {cmp cmp' : ℕ → ℤ} {a e : ℕ} (h : ∀ i < e, cmp i = cmp' i) :
    search cmp a e = search cmp' a e := by
  fun_induction search cmp a e with
  | case1 a e hlt hneg ih =>
    rw [ih fun i hi => h i (by omega), eq_comm, search, if_pos hlt, ← h _ (by omega), if_pos hneg]
  | case2 a e hlt hneg hpos ih =>
    rw [ih h, eq_comm, search, if_pos hlt, ← h _ (by omega), if_neg hneg, if_pos hpos]
  | case3 a e hlt hneg hpos =>
    rw [eq_comm, search, if_pos hlt, ← h _ (by omega), if_neg hneg, if_neg hpos]
  | case4 a e hlt => rw [eq_comm, search, if_neg hlt]

theorem lookup_elements (f : α → ℤ) (arr : ℕ → α) (n : ℕ) :
    lookup f (elements arr n) = search (fun i => f (arr i)) 0 n := by
  rw [lookup, length_elements]
  refine search_congr fun i hi => ?_
  rw [probe, getElem?_elements arr hi]

/-- A target that is in the table is hit. -/
theorem bisect_of_found {f : α → ℤ} {arr : ℕ → α} {n c : ℕ}
    (h : lookup f (elements arr n) = .found c) :
    ∃ a b : ℤ, bisect (fun i => f (arr i)) 0 (n - 1) = ⟨a, b, some c⟩ ∧ a ≤ b := by
  rw [lookup_elements] at h
  exact bisect_found h

/-- A target that is not in the table is not hit. -/
theorem bisect_of_absent {f : α → ℤ} {arr : ℕ → α} {n p : ℕ}
    (h : lookup f (elements arr n) = .absent p) :
    bisect (fun i => f (arr i)) 0 (n - 1) = ⟨p, p - 1, none⟩ ∧ p ≤ n := by
  rw [lookup_elements] at h
  exact bisect_absent (Nat.zero_le n) h

/-! ## `bsearch` -/

/-- The elements are in the order that `bsearch` asks for: those below the key, those equal to it,
and those above it. -/
def Ascends (f : α → ℤ) (arr : ℕ → α) (n : ℕ) : Prop :=
  ∀ i j, i < j → j < n → (f (arr i) ≤ 0 → f (arr j) ≤ 0) ∧ (f (arr i) < 0 → f (arr j) < 0)

/-- What the C standard says of `bsearch`: it returns the place of an element that is equal, or a
null pointer when there is none. -/
structure IsBsearch (bsearch : (α → ℤ) → (ℕ → α) → ℕ → Option ℕ) : Prop where
  found : ∀ f arr n c, Ascends f arr n → bsearch f arr n = some c → c < n ∧ f (arr c) = 0
  null : ∀ f arr n, Ascends f arr n → bsearch f arr n = none → ∀ i < n, f (arr i) ≠ 0

/-- A search that does not hit has missed nothing. -/
theorem search_ne {cmp : ℕ → ℤ} {n a e p : ℕ}
    (hasc : ∀ i j, i < j → j < n → (cmp i ≤ 0 → cmp j ≤ 0) ∧ (cmp i < 0 → cmp j < 0))
    (hen : e ≤ n) (h : search cmp a e = .absent p) {i : ℕ} (hai : a ≤ i) (hie : i < e) :
    cmp i ≠ 0 := by
  fun_induction search cmp a e with
  | case1 a e hlt hneg ih =>
    rcases lt_trichotomy i ((a + e - 1) / 2) with hi | rfl | hi
    · exact ih (by omega) h hai hi
    · exact hneg.ne
    · exact ((hasc _ i hi (by omega)).2 hneg).ne
  | case2 a e hlt hneg hpos ih =>
    rcases lt_trichotomy i ((a + e - 1) / 2) with hi | rfl | hi
    · intro h0
      have hle := (hasc i _ hi (by omega)).1 h0.le
      omega
    · exact hpos.ne'
    · exact ih hen h hi hie
  | case3 a e hlt hneg hpos => cases h
  | case4 a e hlt => exact absurd (lt_of_le_of_lt hai hie) hlt

/-- `bsearch` by the same binary search. -/
def bsearch (f : α → ℤ) (arr : ℕ → α) (n : ℕ) : Option ℕ :=
  match lookup f (elements arr n) with
  | .found c => some c
  | .absent _ => none

theorem isBsearch_bsearch : IsBsearch (α := α) bsearch where
  found := by
    intro f arr n c hasc h
    unfold bsearch at h
    cases hl : lookup f (elements arr n) with
    | absent a =>
      rw [hl] at h
      cases h
    | found c' =>
      rw [hl] at h
      cases h
      obtain ⟨hc, h0⟩ := lookup_found hl
      rw [getElem_elements] at h0
      exact ⟨length_elements arr n ▸ hc, h0⟩
  null := by
    intro f arr n hasc h i hi
    unfold bsearch at h
    cases hl : lookup f (elements arr n) with
    | found c =>
      rw [hl] at h
      cases h
    | absent a =>
      rw [lookup_elements] at hl
      exact search_ne hasc le_rfl hl (Nat.zero_le i) hi

/-! ## A new element -/

/-- `memmove(arr + a + 1, arr + a, n - a)`. -/
def moveUp (arr : ℕ → α) (a n : ℕ) : ℕ → α :=
  fun i => if a < i ∧ i ≤ n then arr (i - 1) else arr i

/-- The table with a new element at the place `a`. -/
theorem elements_insert (arr : ℕ → α) {a n : ℕ} (ha : a ≤ n) (x : α) :
    elements (Function.update (moveUp arr a n) a x) (n + 1) =
      (elements arr n).take a ++ x :: (elements arr n).drop a := by
  have hlen : ((elements arr n).take a).length = a := by
    rw [List.length_take, length_elements, min_eq_left ha]
  refine List.ext_getElem ?_ fun i h1 h2 => ?_
  · rw [length_elements, List.length_append, List.length_cons, List.length_drop, hlen,
      length_elements]
    omega
  · rw [length_elements] at h1
    rw [getElem_elements]
    rcases lt_trichotomy i a with hi | rfl | hi
    · rw [Function.update_of_ne hi.ne, moveUp, if_neg (by omega),
        List.getElem_append_left (by omega), List.getElem_take, getElem_elements]
    · rw [Function.update_self]
      simp only [List.getElem_append_right hlen.le, hlen, Nat.sub_self, List.getElem_cons_zero]
    · obtain ⟨k, rfl⟩ : ∃ k, i = a + 1 + k := ⟨i - (a + 1), by omega⟩
      have hk : a + 1 + k - a = k + 1 := by omega
      rw [Function.update_of_ne (by omega), moveUp, if_pos (by omega)]
      simp only [List.getElem_append_right (hlen.trans_le (by omega : a ≤ a + 1 + k)), hlen, hk,
        List.getElem_cons_succ, List.getElem_drop, getElem_elements]
      congr 1
      omega

/-- The table with another element at the place `c`. -/
theorem elements_update (arr : ℕ → α) (n c : ℕ) (g : α → α) :
    elements (Function.update arr c (g (arr c))) n = (elements arr n).modify c g := by
  refine List.ext_getElem (by simp) fun i h1 h2 => ?_
  rw [getElem_elements, List.getElem_modify, getElem_elements]
  split_ifs with h
  · rw [h, Function.update_self]
  · exact Function.update_of_ne (Ne.symm h) _ _

/-! ## Dropping in place -/

/-- One round: the element at the place `i` moves to the next place to be filled if it is kept. -/
def siftStep (keep : α → Bool) (r : ℕ × (ℕ → α)) (i : ℕ) : ℕ × (ℕ → α) :=
  if keep (r.2 i) then (r.1 + 1, Function.update r.2 r.1 (r.2 i)) else r

/-- The loop over the first `n` places. -/
def sift (keep : α → Bool) (arr : ℕ → α) (n : ℕ) : ℕ × (ℕ → α) :=
  (List.range n).foldl (siftStep keep) (0, arr)

/-- An element is as it was when it is looked at. -/
theorem foldl_siftStep (keep : α → Bool) {f : ℕ → Bool} {l : List ℕ} (hl : l.Pairwise (· < ·))
    {r : ℕ × (ℕ → α)} (hr : ∀ j ∈ l, r.1 ≤ j) (hf : ∀ j ∈ l, keep (r.2 j) = f j) :
    l.foldl (siftStep keep) r = slide f l r := by
  induction l generalizing r with
  | nil => rfl
  | cons j l ih =>
    obtain ⟨hj, hl⟩ := List.pairwise_cons.mp hl
    obtain ⟨hrj, hr⟩ := List.forall_mem_cons.mp hr
    obtain ⟨hfj, hf⟩ := List.forall_mem_cons.mp hf
    have hstep : siftStep keep r j = slideStep f r j := by rw [siftStep, slideStep, hfj]
    have hfst : (slideStep f r j).1 ≤ j + 1 := by
      rw [slideStep_fst f r.1 r.2 j]
      split_ifs <;> omega
    rw [List.foldl_cons, slide_cons, hstep]
    refine ih hl (fun i hi => hfst.trans (hj i hi)) fun i hi => ?_
    rw [slideStep_snd_of_lt f (lt_of_le_of_lt hrj (hj i hi))]
    exact hf i hi

/-- What the loop leaves are the elements that are kept, in order. -/
theorem elements_sift (keep : α → Bool) (arr : ℕ → α) (n : ℕ) :
    elements (sift keep arr n).2 (sift keep arr n).1 = (elements arr n).filter keep := by
  have hslide : sift keep arr n =
      (((List.range n).filter fun i => keep (arr i)).length,
        placed 0 ((List.range n).filter fun i => keep (arr i)) arr) := by
    rw [sift, foldl_siftStep keep List.pairwise_lt_range (fun j _ => Nat.zero_le j) fun j _ => rfl,
      slide_eq _ List.pairwise_lt_range (fun j _ => Nat.zero_le j), Nat.zero_add]
  rw [hslide, elements, elements, List.filter_map]
  refine List.ext_getElem (by simp; rfl) fun i h1 h2 => ?_
  rw [List.length_map, List.length_range] at h1
  simp only [List.getElem_map, List.getElem_range]
  have hplaced := placed_add (a := 0) arr (List.getElem?_eq_getElem h1)
  rw [Nat.zero_add] at hplaced
  exact hplaced

end Catse.SortedArray
