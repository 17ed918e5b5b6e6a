import Catse.Lib.SortedTable
import Mathlib.Data.List.Pairwise
import Mathlib.Order.Antisymmetrization

/-!
# Comparators

What C has of an order is a comparator of two things, whose sign counts. `TotalOrder` has the laws
that `qsort` and `bsearch` ask of it, and different things may compare as equal. The things with
those identified are linearly ordered (`TotalOrder.exists_key`), so that `SortedTable` applies,
whose results are restated for the comparator: how often a thing occurs up to equality
(`occurrences`) and which things remain without repetitions (`distinct`).
-/

namespace Catse.SortedTable

variable {α κ : Type}

/-- A comparator of a total order. -/
structure TotalOrder (cmp : α → α → ℤ) : Prop where
  neg_iff : ∀ x y, cmp x y < 0 ↔ 0 < cmp y x
  trans : ∀ x y z, cmp x y ≤ 0 → cmp y z ≤ 0 → cmp x z ≤ 0

variable {cmp : α → α → ℤ}

theorem TotalOrder.self (h : TotalOrder cmp) (x : α) : cmp x x = 0 := by
  have hself := h.neg_iff x x
  omega

/-- What a comparator orders. -/
abbrev TotalOrder.preorder (h : TotalOrder cmp) : Preorder α where
  le x y := cmp x y ≤ 0
  le_refl x := (h.self x).le
  le_trans := h.trans

/-- A comparator compares by keys of a linear order. -/
theorem TotalOrder.exists_key (h : TotalOrder cmp) :
    ∃ (κ : Type) (_ : LinearOrder κ) (key : α → κ), ∀ t, Compares (key t) key (cmp t) := by
  classical
  let _ := h.preorder
  have htotal : Std.Total (α := α) (· ≤ ·) := ⟨fun x y => by
    have hxy := h.neg_iff y x
    show cmp x y ≤ 0 ∨ cmp y x ≤ 0
    omega⟩
  refine ⟨Antisymmetrization α (· ≤ ·), inferInstance, toAntisymmetrization (· ≤ ·), fun t => ?_⟩
  constructor
  · intro x
    have hlt : toAntisymmetrization (· ≤ ·) t < toAntisymmetrization (· ≤ ·) x ↔
      cmp t x ≤ 0 ∧ ¬cmp x t ≤ 0 := lt_iff_le_not_ge
    have htx := h.neg_iff t x
    rw [hlt]
    omega
  · intro x
    have heq : toAntisymmetrization (· ≤ ·) t = toAntisymmetrization (· ≤ ·) x ↔
      cmp t x ≤ 0 ∧ cmp x t ≤ 0 := le_antisymm_iff
    have htx := h.neg_iff t x
    have hxt := h.neg_iff x t
    rw [heq]
    omega

/-- How often a thing occurs, up to equality. -/
def occurrences (cmp : α → α → ℤ) (ts : List α) (t : α) : ℕ := ts.countP fun u => cmp u t = 0

/-- The things without repetitions. -/
def distinct (cmp : α → α → ℤ) (ts : List α) : List α := ts.pwFilter fun x y => cmp x y ≠ 0

section

variable [LinearOrder κ] {key : α → κ}

/-- Keys give the laws of a comparator. -/
theorem totalOrder_of_compares (hcmp : ∀ t, Compares (key t) key (cmp t)) : TotalOrder cmp where
  neg_iff := fun x y => ((hcmp x).neg_iff y).trans ((hcmp y).pos_iff x).symm
  trans := by
    intro x y z
    rw [← not_lt, ← not_lt, ← not_lt, (hcmp x).pos_iff, (hcmp y).pos_iff, (hcmp x).pos_iff, not_lt,
      not_lt, not_lt]
    exact le_trans

theorem occurrences_eq (hcmp : ∀ t, Compares (key t) key (cmp t)) (ts : List α) (t : α) :
    occurrences cmp ts t = ts.countP fun u => decide (key u = key t) :=
  List.countP_congr fun u _ => by
    rw [decide_eq_true_eq, decide_eq_true_eq, (hcmp u).zero_iff]

/-- The keys of the distinct things are all the keys, without repetitions. -/
theorem length_distinct (hcmp : ∀ t, Compares (key t) key (cmp t)) (ts : List α) :
    (distinct cmp ts).length = (ts.map key).toFinset.card := by
  have hne : ∀ x y, cmp x y ≠ 0 ↔ key x ≠ key y := fun x y => ((hcmp x).zero_iff y).not
  have hnodup : ((distinct cmp ts).map key).Nodup := by
    refine List.pairwise_map.mpr ((List.pairwise_pwFilter ts).imp fun {x y} hxy => ?_)
    exact (hne x y).mp hxy
  have hset : ((distinct cmp ts).map key).toFinset = (ts.map key).toFinset := by
    ext k
    simp only [List.mem_toFinset, List.mem_map]
    constructor
    · rintro ⟨x, hx, rfl⟩
      exact ⟨x, List.pwFilter_subset ts hx, rfl⟩
    · rintro ⟨t, ht, rfl⟩
      -- A thing that differs from all that remain differs from itself.
      by_contra hnot
      have hall : ∀ x ∈ distinct cmp ts, cmp t x ≠ 0 := fun x hx h0 =>
        hnot ⟨x, hx, (((hcmp t).zero_iff x).mp h0).symm⟩
      have htrans : ∀ {x y z : α}, cmp x z ≠ 0 → cmp x y ≠ 0 ∨ cmp y z ≠ 0 := by
        intro x y z hxz
        rw [hne, hne]
        rw [hne] at hxz
        by_contra heq
        obtain ⟨hxy, hyz⟩ := not_or.mp heq
        exact hxz ((not_not.mp hxy).trans (not_not.mp hyz))
      exact (List.forall_mem_pwFilter (R := fun x y => cmp x y ≠ 0) htrans t ts).mp hall t ht
        (((hcmp t).zero_iff t).mpr rfl)
  rw [← hset, List.toFinset_card_of_nodup hnodup, List.length_map]

/-- There are as many entries as there are distinct targets. -/
theorem Counts.length_eq (hcmp : ∀ t, Compares (key t) key (cmp t)) {ts : List α}
    {share : List (α × ℕ)} (h : Counts key ts share) : share.length = (distinct cmp ts).length := by
  have hnodup : (share.map fun x => key x.1).Nodup :=
    List.pairwise_map.mpr (h.sorted.imp fun {x y} hxy => hxy.ne)
  have hset : (share.map fun x => key x.1).toFinset = (ts.map key).toFinset := by
    ext k
    simp only [List.mem_toFinset, List.mem_map]
    constructor
    · rintro ⟨x, hx, rfl⟩
      exact ⟨x.1, h.mem x hx, rfl⟩
    · rintro ⟨t, ht, rfl⟩
      obtain ⟨x, hx, hk⟩ := h.all t ht
      exact ⟨x, hx, hk⟩
  rw [length_distinct hcmp, ← hset, List.toFinset_card_of_nodup hnodup, List.length_map]

/-- The first targets have no more distinct ones. -/
theorem length_distinct_le (hcmp : ∀ t, Compares (key t) key (cmp t)) (ts ts' : List α) :
    (distinct cmp ts).length ≤ (distinct cmp (ts ++ ts')).length := by
  rw [length_distinct hcmp, length_distinct hcmp]
  refine Finset.card_le_card fun k hk => ?_
  rw [List.map_append, List.toFinset_append]
  exact Finset.mem_union_left _ hk

end

end Catse.SortedTable
