import Mathlib.Data.List.Range
import Mathlib.Logic.Function.Basic
import Mathlib.Tactic.Common

/-!
# The slot pool of `msg_pool.h`

`msg_stack_pool` owns `cap` message slots and hands out pointers to them from the stack
`free_list[0, top)`. `MsgStackPool` embeds the stack, with a slot's index in `list` for its address.
What a slot contains is not the pool's business, so the slots' contents live with the threads that
write them. `alloc` and `free` run under a spin lock in the source, which makes each of them one
atomic step.
-/

namespace Catse

/-- `msg_stack_pool<tt>`, with slot indices for pointers into `list`. -/
structure MsgStackPool where
  free_list : ℕ → ℕ
  cap : ℕ
  top : ℕ
  min_top : ℕ

namespace MsgStackPool

/-- `msg_stack_pool::init`: every slot is free. -/
def init (cap : ℕ) : MsgStackPool := ⟨fun i => i, cap, cap, cap⟩

/-- `msg_stack_pool::alloc`: the slot on top of the stack, or null when there is none. -/
def alloc (p : MsgStackPool) : Option ℕ × MsgStackPool :=
  if p.top = 0 then (none, p)
  else (some (p.free_list (p.top - 1)),
    { p with
      top := p.top - 1
      min_top := if p.top - 1 < p.min_top then p.top - 1 else p.min_top })

/-- `msg_stack_pool::free`: refuses a slot only when the stack is already full. -/
def free (p : MsgStackPool) (i : ℕ) : Bool × MsgStackPool :=
  if p.top = p.cap then (false, p)
  else (true, { p with free_list := Function.update p.free_list p.top i, top := p.top + 1 })

/-- The free slots, from the bottom of the stack to its top. -/
def freeSlots (p : MsgStackPool) : List ℕ := (List.range p.top).map p.free_list

@[simp] theorem length_freeSlots (p : MsgStackPool) : p.freeSlots.length = p.top := by
  simp [freeSlots]

@[simp] theorem freeSlots_init (cap : ℕ) : (init cap).freeSlots = List.range cap := by
  simp [freeSlots, init]

theorem freeSlots_eq_nil_iff (p : MsgStackPool) : p.freeSlots = [] ↔ p.top = 0 := by
  rw [← List.length_eq_zero_iff, length_freeSlots]

/-- `alloc` on an exhausted pool. -/
theorem alloc_nil {p : MsgStackPool} (h : p.freeSlots = []) : p.alloc = (none, p) := by
  unfold alloc
  rw [if_pos (p.freeSlots_eq_nil_iff.mp h)]

/-- `alloc` takes the last of the free slots. -/
theorem alloc_snoc {p : MsgStackPool} (h : p.freeSlots ≠ []) :
    ∃ i l p', p.freeSlots = l ++ [i] ∧ p.alloc = (some i, p') ∧ p'.freeSlots = l ∧
      p'.cap = p.cap := by
  have hne : p.top ≠ 0 := fun h0 => h (p.freeSlots_eq_nil_iff.mpr h0)
  obtain ⟨t, ht⟩ := Nat.exists_eq_succ_of_ne_zero hne
  refine ⟨p.free_list (p.top - 1), (List.range (p.top - 1)).map p.free_list, _, ?_, if_neg hne,
    rfl, rfl⟩
  rw [freeSlots, ht, Nat.succ_sub_one, List.range_succ, List.map_append, List.map_singleton]

/-- `free` otherwise puts the slot on top of the stack. -/
theorem free_room {p : MsgStackPool} (h : p.top ≠ p.cap) (i : ℕ) :
    ∃ p', p.free i = (true, p') ∧ p'.freeSlots = p.freeSlots ++ [i] ∧ p'.cap = p.cap := by
  refine ⟨_, if_neg h, ?_, rfl⟩
  simp only [freeSlots]
  rw [List.range_succ, List.map_append, List.map_singleton, Function.update_self]
  congr 1
  apply List.map_congr_left
  intro j hj
  rw [Function.update_of_ne (List.mem_range.mp hj).ne]

end MsgStackPool

end Catse
