import Catse.Common.MsgPool
import Catse.Lib.Transition
import Mathlib.Data.List.Nodup
import Mathlib.Data.List.Perm.Basic
import Mathlib.Order.MinMax

/-!
# Runs of the slot pool

The stack `free_list` keeps the pointers it has given out above `top` until they are overwritten,
so nothing in the pool itself says which slots are out. `PoolRun` adds that to the pool as a record
of the run: the slots handed out and not yet returned, and the values that `top` has had. Every
`alloc` and every `free` of a slot that is out keeps the free slots and the slots out, taken
together, a rearrangement of all slots (`Accounted`), from which the rest follows.
-/

namespace Catse

/-- A pool with a record of its run, which neither function of the pool reads. -/
structure PoolRun where
  pool : MsgStackPool
  /-- The slots handed out and not yet returned. -/
  lent : List ℕ
  /-- The values `top` has had, the latest first. -/
  tops : List ℕ

namespace PoolRun

/-- A call on the pool. -/
inductive Call where
  | alloc
  | free (i : ℕ)

/-- A new pool of `cap` slots. -/
def init (cap : ℕ) : PoolRun := ⟨MsgStackPool.init cap, [], [cap]⟩

/-- One call. A `free` is given a slot that was handed out and not yet returned. -/
def step (s : PoolRun) : Call → Option PoolRun
  | .alloc =>
    let r := s.pool.alloc
    some ⟨r.2, r.1.toList ++ s.lent, r.2.top :: s.tops⟩
  | .free i =>
    if i ∈ s.lent then
      let r := s.pool.free i
      some ⟨r.2, s.lent.erase i, r.2.top :: s.tops⟩
    else none

/-- Every one of the `cap` slots is either free or out, and no slot is so twice. -/
structure Accounted (cap : ℕ) (s : PoolRun) : Prop where
  pool_cap : s.pool.cap = cap
  perm : (s.pool.freeSlots ++ s.lent).Perm (List.range cap)

/-- `min_top` is the least of the values that `top` has had. -/
structure LowWater (s : PoolRun) : Prop where
  attained : s.pool.min_top ∈ s.tops
  le : ∀ t ∈ s.tops, s.pool.min_top ≤ t
  top_le : s.pool.min_top ≤ s.pool.top

section Accounted

variable {cap : ℕ} {s : PoolRun}

theorem init_accounted (cap : ℕ) : (init cap).Accounted cap where
  pool_cap := rfl
  perm := by
    rw [init, MsgStackPool.freeSlots_init, List.append_nil]

/-- The free slots and the slots out are `cap` in number. -/
theorem Accounted.length_eq (h : s.Accounted cap) : s.pool.top + s.lent.length = cap := by
  have hlen := h.perm.length_eq
  rwa [List.length_append, MsgStackPool.length_freeSlots, List.length_range] at hlen

theorem Accounted.nodup (h : s.Accounted cap) : (s.pool.freeSlots ++ s.lent).Nodup :=
  h.perm.nodup_iff.mpr List.nodup_range

/-- A slot is free or out exactly if it is one of the pool's. -/
theorem Accounted.mem_iff (h : s.Accounted cap) (i : ℕ) :
    i ∈ s.pool.freeSlots ∨ i ∈ s.lent ↔ i < cap := by
  rw [← List.mem_append, h.perm.mem_iff, List.mem_range]

/-- While a slot is out the stack is not full. -/
theorem Accounted.top_ne_cap (h : s.Accounted cap) {i : ℕ} (hi : i ∈ s.lent) :
    s.pool.top ≠ s.pool.cap := by
  have hpos := List.length_pos_of_mem hi
  have hlen := h.length_eq
  rw [h.pool_cap]
  omega

/-- A call keeps account of every slot. -/
theorem step_accounted {s' : PoolRun} {c : Call} (h : s.Accounted cap)
    (hstep : s.step c = some s') :
    s'.Accounted cap := by
  cases c with
  | alloc =>
    have he := Option.some.inj hstep
    subst he
    by_cases hnil : s.pool.freeSlots = []
    · have halloc := MsgStackPool.alloc_nil hnil
      refine ⟨?_, ?_⟩
      · rw [halloc]
        exact h.pool_cap
      · rw [halloc]
        exact h.perm
    · obtain ⟨i, l, p', hfree, halloc, hl, hcap⟩ := MsgStackPool.alloc_snoc hnil
      refine ⟨?_, ?_⟩
      · rw [halloc]
        exact hcap.trans h.pool_cap
      · -- The slot on top moves from the end of the one list to the head of the other.
        rw [halloc]
        show (p'.freeSlots ++ i :: s.lent).Perm _
        rw [hl, ← List.singleton_append, ← List.append_assoc, ← hfree]
        exact h.perm
  | free i =>
    by_cases hi : i ∈ s.lent
    · have he := Option.some.inj ((if_pos hi).symm.trans hstep)
      subst he
      obtain ⟨p', hfree, hslots, hcap⟩ := MsgStackPool.free_room (h.top_ne_cap hi) i
      refine ⟨?_, ?_⟩
      · rw [hfree]
        exact hcap.trans h.pool_cap
      · rw [hfree]
        show (p'.freeSlots ++ s.lent.erase i).Perm _
        have hback : (i :: s.lent.erase i).Perm s.lent := (List.perm_cons_erase hi).symm
        rw [hslots, List.append_assoc, List.singleton_append]
        exact (hback.append_left _).trans h.perm
    · exact absurd ((if_neg hi).symm.trans hstep) (by simp)

end Accounted

section LowWater

variable {s : PoolRun}

theorem init_lowWater (cap : ℕ) : (init cap).LowWater where
  attained := List.mem_singleton_self cap
  le _ ht := (List.mem_singleton.mp ht).ge
  top_le := le_refl cap

/-- A new value of `top` that leaves `min_top` the lesser of the two. -/
theorem LowWater.cons (h : s.LowWater) {p' : MsgStackPool} {l : List ℕ}
    (hmin : p'.min_top = min s.pool.min_top p'.top) :
    LowWater ⟨p', l, p'.top :: s.tops⟩ where
  attained := by
    show p'.min_top ∈ p'.top :: s.tops
    rcases min_choice s.pool.min_top p'.top with hold | hnew
    · rw [hmin, hold]
      exact List.mem_cons_of_mem _ h.attained
    · rw [hmin, hnew]
      exact List.mem_cons_self
  le t ht := by
    show p'.min_top ≤ t
    rw [hmin]
    rcases List.mem_cons.mp ht with hhead | htail
    · rw [hhead]
      exact min_le_right _ _
    · exact (min_le_left _ _).trans (h.le t htail)
  top_le := by
    show p'.min_top ≤ p'.top
    rw [hmin]
    exact min_le_right _ _

/-- `alloc` moves `min_top` down when `top` goes below it. -/
theorem alloc_min_top (p : MsgStackPool) (h : p.min_top ≤ p.top) :
    p.alloc.2.min_top = min p.min_top p.alloc.2.top := by
  unfold MsgStackPool.alloc
  split
  · exact (min_eq_left h).symm
  · simp only
    split <;> omega

/-- `free` moves `top` up, away from `min_top`. -/
theorem free_min_top (p : MsgStackPool) (i : ℕ) (h : p.min_top ≤ p.top) :
    (p.free i).2.min_top = min p.min_top (p.free i).2.top := by
  unfold MsgStackPool.free
  split
  · exact (min_eq_left h).symm
  · exact (min_eq_left (h.trans (Nat.le_succ _))).symm

/-- A call keeps `min_top` the least value of `top`. -/
theorem step_lowWater {s' : PoolRun} {c : Call} (h : s.LowWater) (hstep : s.step c = some s') :
    s'.LowWater := by
  cases c with
  | alloc =>
    have he := Option.some.inj hstep
    subst he
    exact h.cons (alloc_min_top s.pool h.top_le)
  | free i =>
    by_cases hi : i ∈ s.lent
    · have he := Option.some.inj ((if_pos hi).symm.trans hstep)
      subst he
      exact h.cons (free_min_top s.pool i h.top_le)
    · exact absurd ((if_neg hi).symm.trans hstep) (by simp)

end LowWater

section Runs

variable {cap : ℕ} {s : PoolRun}

theorem run_accounted (run : Reach step (init cap) anyStep s) : s.Accounted cap :=
  run.invariant (init_accounted cap) fun _ _ _ _ h _ hstep => step_accounted h hstep

theorem run_lowWater (run : Reach step (init cap) anyStep s) : s.LowWater :=
  run.invariant (init_lowWater cap) fun _ _ _ _ h _ hstep => step_lowWater h hstep

/-- `alloc` hands out a slot that is free, or null when none is. -/
theorem alloc_result (p : MsgStackPool) :
    (p.alloc.1 = none ↔ p.freeSlots = []) ∧ ∀ i, p.alloc.1 = some i → i ∈ p.freeSlots := by
  by_cases hnil : p.freeSlots = []
  · rw [MsgStackPool.alloc_nil hnil]
    exact ⟨iff_of_true rfl hnil, fun i hi => absurd hi (by simp)⟩
  · obtain ⟨j, l, p', hfree, halloc, -, -⟩ := MsgStackPool.alloc_snoc hnil
    rw [halloc]
    refine ⟨iff_of_false (by simp) hnil, fun i hi => ?_⟩
    rw [hfree, Option.some.inj hi]
    exact List.mem_append_right _ List.mem_cons_self

/-- No slot is free exactly if all of them are out. -/
theorem Accounted.freeSlots_eq_nil_iff (h : s.Accounted cap) :
    s.pool.freeSlots = [] ↔ ∀ i < cap, i ∈ s.lent := by
  constructor
  · intro hnil i hi
    have hor := (h.mem_iff i).mpr hi
    rw [hnil] at hor
    exact hor.resolve_left List.not_mem_nil
  · intro hall
    apply List.eq_nil_iff_forall_not_mem.mpr
    intro i hi
    have hlent := hall i ((h.mem_iff i).mp (Or.inl hi))
    exact List.disjoint_of_nodup_append h.nodup hi hlent

/-- In every run of calls on a pool of `cap` slots: the free slots are distinct, none of them is
out, and with the slots out they are all slots. `alloc` returns null exactly if all slots are out
and never returns a slot that is out, `free` of a slot that is out succeeds, and `min_top` is the
least value that `top` has had. -/
theorem run_spec (cap : ℕ) {s : PoolRun} (run : Reach step (init cap) anyStep s) :
    (s.pool.freeSlots.Nodup ∧ s.lent.Nodup ∧ s.pool.freeSlots.Disjoint s.lent ∧
      ∀ i, i ∈ s.pool.freeSlots ∨ i ∈ s.lent ↔ i < cap) ∧
    ((s.pool.alloc.1 = none ↔ ∀ i < cap, i ∈ s.lent) ∧
      ∀ i, s.pool.alloc.1 = some i → i < cap ∧ i ∉ s.lent) ∧
    (∀ i ∈ s.lent, (s.pool.free i).1 = true) ∧
    s.pool.min_top ∈ s.tops ∧ ∀ t ∈ s.tops, s.pool.min_top ≤ t := by
  have hacc := run_accounted run
  have hlow := run_lowWater run
  have hdisj := List.disjoint_of_nodup_append hacc.nodup
  obtain ⟨hnull, hslot⟩ := alloc_result s.pool
  refine ⟨⟨hacc.nodup.of_append_left, hacc.nodup.of_append_right, hdisj, hacc.mem_iff⟩,
    ⟨hnull.trans hacc.freeSlots_eq_nil_iff, ?_⟩, ?_, hlow.attained, hlow.le⟩
  · intro i hi
    have hfree := hslot i hi
    exact ⟨(hacc.mem_iff i).mp (Or.inl hfree), fun hlent => hdisj hfree hlent⟩
  · intro i hi
    obtain ⟨p', hfree, -, -⟩ := MsgStackPool.free_room (hacc.top_ne_cap hi) i
    rw [hfree]

/-- A pool of three slots after two `alloc`s, the return of the slot that was handed out first, and
another `alloc`, which hands it out again. -/
theorem run_spec_three :
    ∃ s, exec step (init 3) [.alloc, .alloc, .free 2, .alloc] = some s ∧ s.lent = [2, 1] ∧
      (∀ i ∈ s.lent, (s.pool.free i).1 = true) ∧ s.pool.min_top = 1 := by
  refine ⟨_, rfl, rfl, ?_, rfl⟩
  have run := reach_of_exec (.start : Reach step (init 3) anyStep (init 3))
    (execOk_any step (init 3) [.alloc, .alloc, .free 2, .alloc]) rfl
  exact (run_spec 3 run).2.2.1

end Runs

end PoolRun

end Catse
