import Mathlib.Data.List.Basic
import Mathlib.Data.List.Induction
import Mathlib.Data.Nat.ModEq
import Mathlib.Logic.Function.Basic
import Mathlib.Tactic.SplitIfs
import Mathlib.Tactic.Common

/-!
# The pointer ring of `msg_queue.h`

`msg_queue` is a ring of `cap` pointers with one cell kept empty, so that `front == back` means
empty and `(back + 1) % cap == front` means full. `MsgQueue` embeds its fields and its operations
statement by statement. `MsgQueue.Holds m l` says that the ring `m` holds the list `l`, oldest
first, and each operation has one lemma that says what it does to that list. Callers use these
lemmas and never unfold the ring.

The `multi_push` branch of `push` runs the same statements as the other one, under `push_lock`. One
definition embeds both.
-/

namespace Catse

/-- `msg_queue<tt>`: the cells `q[0, cap)`, with `none` for a null pointer, and the two indices. -/
structure MsgQueue (α : Type) where
  back : ℕ
  front : ℕ
  cap : ℕ
  q : ℕ → Option α

namespace MsgQueue

variable {α : Type}

/-- `msg_queue::init`: an empty ring of `cap` null cells. -/
def init (cap : ℕ) : MsgQueue α := ⟨0, 0, cap, fun _ => none⟩

/-- `msg_queue::pop`: null on an empty ring, otherwise the front cell, which is cleared. -/
def pop (m : MsgQueue α) : Option α × MsgQueue α :=
  if m.front = m.back then (none, m)
  else (m.q m.front,
    { m with q := Function.update m.q m.front none, front := (m.front + 1) % m.cap })

/-- `msg_queue::push`: refuses a null pointer and a full ring, in both cases without a change. -/
def push (m : MsgQueue α) (p : Option α) : Bool × MsgQueue α :=
  match p with
  | none => (false, m)
  | some x =>
    if (m.back + 1) % m.cap = m.front then (false, m)
    else (true, { m with q := Function.update m.q m.back (some x), back := (m.back + 1) % m.cap })

/-- `msg_queue::getfront`: the front cell, left in place. -/
def getfront (m : MsgQueue α) : Option α :=
  if m.front = m.back then none else m.q m.front

/-- What the ring holds, oldest first. -/
def toList (m : MsgQueue α) : List α :=
  (List.range ((m.back + m.cap - m.front) % m.cap)).filterMap
    fun i => m.q ((m.front + i) % m.cap)

/-- The ring holds the list `l`: the cells from `front` on are its entries, and `back` is the cell
after the last one. One cell stays empty. -/
structure Holds (m : MsgQueue α) (l : List α) : Prop where
  front_lt : m.front < m.cap
  length_lt : l.length < m.cap
  back_eq : m.back = (m.front + l.length) % m.cap
  cell : ∀ i (h : i < l.length), m.q ((m.front + i) % m.cap) = some l[i]

/-- An index that runs at most once around the ring. -/
theorem wrap_eq {f i c : ℕ} (hf : f < c) (hi : i < c) :
    (f + i) % c = if f + i < c then f + i else f + i - c := by
  split_ifs with h
  · exact Nat.mod_eq_of_lt h
  · rw [Nat.mod_eq_sub_mod (by omega), Nat.mod_eq_of_lt (by omega)]

/-- The distance from `front` to `back` is the number of entries. -/
theorem Holds.size_eq {m : MsgQueue α} {l : List α} (h : m.Holds l) :
    (m.back + m.cap - m.front) % m.cap = l.length := by
  obtain ⟨hf, hl, hb, -⟩ := h
  rw [hb, wrap_eq hf hl]
  split_ifs with hw
  · rw [show m.front + l.length + m.cap - m.front = l.length + m.cap by omega,
      Nat.add_mod_right, Nat.mod_eq_of_lt hl]
  · rw [show m.front + l.length - m.cap + m.cap - m.front = l.length by omega,
      Nat.mod_eq_of_lt hl]

/-- The list that a ring holds is the one that `toList` computes. -/
theorem Holds.toList_eq {m : MsgQueue α} {l : List α} (h : m.Holds l) : m.toList = l := by
  unfold toList
  rw [h.size_eq]
  have hcell : ∀ i ∈ List.range l.length, m.q ((m.front + i) % m.cap) = l[i]? := by
    intro i hi
    have hi' : i < l.length := List.mem_range.mp hi
    rw [h.cell i hi', List.getElem?_eq_getElem hi']
  rw [List.filterMap_congr hcell]
  clear h hcell
  induction l using List.reverseRecOn with
  | nil => rfl
  | append_singleton l x ih =>
    rw [List.length_append, List.length_singleton, List.range_succ, List.filterMap_append]
    congr 1
    · refine (List.filterMap_congr ?_).trans ih
      intro i hi
      exact List.getElem?_append_left (List.mem_range.mp hi)
    · simp

/-- `front == back` exactly on an empty ring. -/
theorem Holds.front_eq_back_iff {m : MsgQueue α} {l : List α} (h : m.Holds l) :
    m.front = m.back ↔ l = [] := by
  obtain ⟨hf, hl, hb, -⟩ := h
  rw [hb, wrap_eq hf hl]
  constructor
  · intro he
    have : l.length = 0 := by split_ifs at he <;> omega
    exact List.length_eq_zero_iff.mp this
  · rintro rfl
    simp [hf]

/-- The test of `push` succeeds exactly on a full ring, which holds `cap - 1` entries. -/
theorem Holds.full_iff {m : MsgQueue α} {l : List α} (h : m.Holds l) :
    (m.back + 1) % m.cap = m.front ↔ l.length + 1 = m.cap := by
  obtain ⟨hf, hl, hb, -⟩ := h
  have hback : (m.back + 1) % m.cap = (m.front + (l.length + 1)) % m.cap := by
    rw [hb, Nat.mod_add_mod, Nat.add_assoc]
  rw [hback]
  rcases Nat.lt_or_ge (l.length + 1) m.cap with hlt | hge
  · rw [wrap_eq hf hlt]
    split_ifs <;> omega
  · have he : l.length + 1 = m.cap := by omega
    rw [he, Nat.add_mod_right, Nat.mod_eq_of_lt hf]
    simp

/-- A new ring holds nothing. -/
theorem init_holds {cap : ℕ} (h : 0 < cap) : (init cap : MsgQueue α).Holds [] where
  front_lt := h
  length_lt := h
  back_eq := by simp [init]
  cell i hi := absurd hi (by simp)

/-- `getfront` is the oldest entry. -/
theorem Holds.getfront_eq {m : MsgQueue α} {l : List α} (h : m.Holds l) :
    m.getfront = l.head? := by
  unfold getfront
  cases l with
  | nil => rw [if_pos (h.front_eq_back_iff.mpr rfl), List.head?_nil]
  | cons x l =>
    have hne : m.front ≠ m.back := fun he => absurd (h.front_eq_back_iff.mp he) (by simp)
    have hx := h.cell 0 (by simp)
    rw [Nat.add_zero, Nat.mod_eq_of_lt h.front_lt] at hx
    rw [if_neg hne, hx, List.head?_cons, List.getElem_cons_zero]

/-- `pop` on an empty ring. -/
theorem Holds.pop_nil {m : MsgQueue α} (h : m.Holds []) : m.pop = (none, m) := by
  unfold pop
  rw [if_pos (h.front_eq_back_iff.mpr rfl)]

/-- `pop` takes the oldest entry. -/
theorem Holds.pop_cons {m : MsgQueue α} {x : α} {l : List α} (h : m.Holds (x :: l)) :
    ∃ m', m.pop = (some x, m') ∧ m'.Holds l ∧ m'.cap = m.cap := by
  have hne : m.front ≠ m.back := fun he => absurd (h.front_eq_back_iff.mp he) (by simp)
  have hx := h.cell 0 (by simp)
  rw [Nat.add_zero, Nat.mod_eq_of_lt h.front_lt, List.getElem_cons_zero] at hx
  refine ⟨{ m with q := Function.update m.q m.front none, front := (m.front + 1) % m.cap }, ?_,
    ?_, rfl⟩
  · unfold pop
    rw [if_neg hne, hx]
  · obtain ⟨hf, hl, hb, hc⟩ := h
    rw [List.length_cons] at hl hb
    refine ⟨Nat.mod_lt _ (by omega), by show l.length < m.cap; omega, ?_, ?_⟩
    · show m.back = ((m.front + 1) % m.cap + l.length) % m.cap
      rw [Nat.mod_add_mod, hb]
      congr 1
      omega
    · intro i hi
      show Function.update m.q m.front none (((m.front + 1) % m.cap + i) % m.cap) = some l[i]
      have hidx : ((m.front + 1) % m.cap + i) % m.cap = (m.front + (i + 1)) % m.cap := by
        rw [Nat.mod_add_mod]
        congr 1
        omega
      -- The cleared cell is not one of the cells that remain.
      have hother : (m.front + (i + 1)) % m.cap ≠ m.front := by
        rw [wrap_eq hf (by omega)]
        split_ifs <;> omega
      rw [hidx, Function.update_of_ne hother, hc (i + 1) (by simpa using hi),
        List.getElem_cons_succ]

/-- A null pointer is never pushed. -/
@[simp] theorem push_none (m : MsgQueue α) : m.push none = (false, m) := rfl

/-- `push` on a full ring changes nothing. -/
theorem Holds.push_full {m : MsgQueue α} {l : List α} (h : m.Holds l) (hl : l.length + 1 = m.cap)
    (x : α) : m.push (some x) = (false, m) := by
  simp only [push]
  rw [if_pos (h.full_iff.mpr hl)]

/-- `push` with room appends the entry. -/
theorem Holds.push_room {m : MsgQueue α} {l : List α} (h : m.Holds l)
    (hl : l.length + 1 < m.cap) (x : α) :
    ∃ m', m.push (some x) = (true, m') ∧ m'.Holds (l ++ [x]) ∧ m'.cap = m.cap := by
  have hne : (m.back + 1) % m.cap ≠ m.front := fun he => absurd (h.full_iff.mp he) (by omega)
  refine ⟨{ m with q := Function.update m.q m.back (some x), back := (m.back + 1) % m.cap }, ?_,
    ?_, rfl⟩
  · simp only [push]
    rw [if_neg hne]
  · obtain ⟨hf, hlt, hb, hc⟩ := h
    refine ⟨hf, by simpa using hl, ?_, ?_⟩
    · show (m.back + 1) % m.cap = (m.front + (l ++ [x]).length) % m.cap
      rw [hb, Nat.mod_add_mod, List.length_append, List.length_singleton, Nat.add_assoc]
    · intro i hi
      show Function.update m.q m.back (some x) ((m.front + i) % m.cap) = some (l ++ [x])[i]
      rw [List.length_append, List.length_singleton] at hi
      rcases Nat.lt_or_ge i l.length with hil | hil
      · -- An older entry is not in the cell that is written.
        have hother : (m.front + i) % m.cap ≠ m.back := by
          rw [hb, wrap_eq hf (by omega), wrap_eq hf hlt]
          split_ifs <;> omega
        rw [Function.update_of_ne hother, hc i hil, List.getElem_append_left hil]
      · have hie : i = l.length := by omega
        subst hie
        rw [← hb, Function.update_self]
        simp

end MsgQueue

end Catse
