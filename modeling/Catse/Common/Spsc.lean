import Catse.Common.MsgQueue
import Catse.Lib.Transition

/-!
# The rings of `msg_queue.h`, statement by statement

One thread pushes and one thread pops, without a lock. `QueueThreads` is a `msg_queue` between the
two threads, and `MessageQueueThreads` a `message_queue`, whose cells hold the items themselves. A
step is one statement of one of the threads, and a statement reads or writes one of the variables
that the other thread writes: `front`, `back` or a cell. `pushed` has the items whose push has
stored `back`, and `popped` what the pops have returned.

Both rings satisfy `Flows` between any two statements: `front` and `back` are the numbers of items
popped and pushed, modulo the capacity, and each item that is pushed and not popped is in the cell
of its number, but for the one that a pop has already cleared. Each kind of statement has one lemma
that says how it keeps `Flows`, and the two machines only differ in the order of the statements.
-/

namespace Catse

variable {α : Type}

/-- An item that has been loaded keeps its number when another one is pushed. -/
theorem loaded_append {pushed : List α} {i : ℕ} (hlt : i < pushed.length) {ret : Option α}
    (hret : ret = some pushed[i]) (x : α) :
    ∃ h : i < (pushed ++ [x]).length, ret = some (pushed ++ [x])[i] := by
  have hlt' : i < (pushed ++ [x]).length := by
    rw [List.length_append]
    omega
  have hitem : (pushed ++ [x])[i] = pushed[i] := List.getElem_append_left hlt
  exact ⟨hlt', by rw [hitem, hret]⟩

/-- A test decides what holds, given that it does in one case only. -/
theorem ite_holds_iff {σ : Type} {P : σ → Prop} {c q : Prop} [Decidable c] {x y : σ} (hx : P x)
    (hy : ¬P y) (hc : c ↔ q) : P (if c then x else y) ↔ q := by
  by_cases h : c
  · rw [if_pos h]
    exact iff_of_true hx (hc.mp h)
  · rw [if_neg h]
    exact iff_of_false hy fun hq => h (hc.mpr hq)

namespace MsgQueue

/-! ## What holds between two statements -/

/-- The ring `m` is on the way from `pushed` to `popped`. `taken` says that the cell of the next
item to pop is cleared. -/
structure Flows (m : MsgQueue α) (pushed : List α) (popped : List (Option α)) (taken : Bool) :
    Prop where
  cap_pos : 0 < m.cap
  le : popped.length ≤ pushed.length
  room : pushed.length < popped.length + m.cap
  front_eq : m.front = popped.length % m.cap
  back_eq : m.back = pushed.length % m.cap
  fifo : popped = (pushed.take popped.length).map some
  cell : ∀ i (h : i < pushed.length), popped.length ≤ i → (taken = true → i ≠ popped.length) →
    m.q (i % m.cap) = some pushed[i]

/-- Two numbers that are less than `c` apart share a cell only when they are equal. -/
theorem eq_of_mod_eq {a b c : ℕ} (hle : a ≤ b) (hlt : b < a + c) (h : a % c = b % c) : a = b := by
  have hdvd : c ∣ b - a := (Nat.modEq_iff_dvd' hle).mp h
  have hzero : b - a = 0 := Nat.eq_zero_of_dvd_of_lt hdvd (by omega)
  omega

/-- A new ring. -/
theorem flows_init {cap : ℕ} (h : 0 < cap) : (init cap : MsgQueue α).Flows [] [] false where
  cap_pos := h
  le := le_refl 0
  room := by simpa [init] using h
  front_eq := by simp [init]
  back_eq := by simp [init]
  fifo := rfl
  cell i hi := absurd hi (by simp)

namespace Flows

variable {m : MsgQueue α} {pushed : List α} {popped : List (Option α)} {taken : Bool}

/-- The test of `push` finds the ring full exactly when it holds `cap - 1` items. -/
theorem full_iff (h : m.Flows pushed popped taken) :
    (m.back + 1) % m.cap = m.front ↔ pushed.length + 1 = popped.length + m.cap := by
  obtain ⟨hcap, hle, hroom, hfront, hback, -, -⟩ := h
  rw [hback, hfront, Nat.mod_add_mod]
  constructor
  · intro heq
    rcases Nat.lt_or_ge (pushed.length + 1) (popped.length + m.cap) with hlt | hge
    · have := eq_of_mod_eq (by omega) hlt heq.symm
      omega
    · omega
  · intro heq
    rw [heq, Nat.add_mod_right]

/-- The test of `pop` finds the ring empty exactly when all that was pushed is popped. -/
theorem empty_iff (h : m.Flows pushed popped taken) :
    m.front = m.back ↔ pushed.length = popped.length := by
  obtain ⟨-, hle, hroom, hfront, hback, -, -⟩ := h
  rw [hfront, hback]
  constructor
  · intro heq
    exact (eq_of_mod_eq hle hroom heq).symm
  · intro heq
    rw [heq]

/-- The cell at `back` is that of no item in the ring. -/
theorem mod_ne_back (h : m.Flows pushed popped taken) {i : ℕ} (hi : i < pushed.length)
    (hn : popped.length ≤ i) : i % m.cap ≠ m.back := by
  intro heq
  have hroom := h.room
  rw [h.back_eq] at heq
  have := eq_of_mod_eq hi.le (by omega) heq
  omega

/-- The cell at `front` is that of the oldest item only. -/
theorem mod_ne_front (h : m.Flows pushed popped taken) {i : ℕ} (hi : i < pushed.length)
    (hn : popped.length < i) : i % m.cap ≠ m.front := by
  intro heq
  have hroom := h.room
  rw [h.front_eq] at heq
  have := eq_of_mod_eq hn.le (by omega) heq.symm
  omega

/-- `q[back] = p`. -/
theorem store (h : m.Flows pushed popped taken) (p : Option α) :
    ({ m with q := Function.update m.q m.back p } : MsgQueue α).Flows pushed popped taken := by
  constructor
  · exact h.cap_pos
  · exact h.le
  · exact h.room
  · exact h.front_eq
  · exact h.back_eq
  · exact h.fifo
  · intro i hi hn htaken
    show Function.update m.q m.back p (i % m.cap) = some pushed[i]
    rw [Function.update_of_ne (h.mod_ne_back hi hn)]
    exact h.cell i hi hn htaken

/-- `back = (back + 1) % cap`, behind a push that has stored its item in a ring that was not
full. -/
theorem publish (h : m.Flows pushed popped taken) {x : α} (hx : m.q m.back = some x)
    (hroom : pushed.length + 1 < popped.length + m.cap) :
    ({ m with back := (m.back + 1) % m.cap } : MsgQueue α).Flows (pushed ++ [x]) popped taken := by
  have hlen : (pushed ++ [x]).length = pushed.length + 1 := by simp
  have hle := h.le
  constructor
  · exact h.cap_pos
  · rw [hlen]
    omega
  · rw [hlen]
    exact hroom
  · exact h.front_eq
  · show (m.back + 1) % m.cap = (pushed ++ [x]).length % m.cap
    rw [hlen, h.back_eq, Nat.mod_add_mod]
  · rw [List.take_append_of_le_length hle]
    exact h.fifo
  · intro i hi hn htaken
    show m.q (i % m.cap) = some (pushed ++ [x])[i]
    rcases Nat.lt_or_ge i pushed.length with hlt | hge
    · rw [List.getElem_append_left hlt]
      exact h.cell i hlt hn htaken
    · have hie : i = pushed.length := by omega
      subst hie
      rw [← h.back_eq, hx]
      simp

/-- `ret = q[front]`. -/
theorem load (h : m.Flows pushed popped false) (hne : popped.length < pushed.length) :
    m.q m.front = some pushed[popped.length] := by
  rw [h.front_eq]
  exact h.cell _ hne le_rfl (by simp)

/-- `q[front] = NULL`. -/
theorem clear (h : m.Flows pushed popped taken) :
    ({ m with q := Function.update m.q m.front none } : MsgQueue α).Flows pushed popped true := by
  constructor
  · exact h.cap_pos
  · exact h.le
  · exact h.room
  · exact h.front_eq
  · exact h.back_eq
  · exact h.fifo
  · intro i hi hn htaken
    have hne : i ≠ popped.length := htaken rfl
    show Function.update m.q m.front none (i % m.cap) = some pushed[i]
    rw [Function.update_of_ne (h.mod_ne_front hi (by omega))]
    exact h.cell i hi hn fun _ => hne

/-- `front = (front + 1) % cap`, and the pop returns the oldest item. -/
theorem retire (h : m.Flows pushed popped taken) (hne : popped.length < pushed.length) :
    ({ m with front := (m.front + 1) % m.cap } : MsgQueue α).Flows pushed
      (popped ++ [some pushed[popped.length]]) false := by
  have hlen : (popped ++ [some pushed[popped.length]]).length = popped.length + 1 := by simp
  have hroom := h.room
  constructor
  · exact h.cap_pos
  · rw [hlen]
    omega
  · rw [hlen]
    show pushed.length < popped.length + 1 + m.cap
    omega
  · show (m.front + 1) % m.cap = (popped ++ [some pushed[popped.length]]).length % m.cap
    rw [hlen, h.front_eq, Nat.mod_add_mod]
  · exact h.back_eq
  · rw [hlen, List.take_add_one, List.getElem?_eq_getElem hne, List.map_append, ← h.fifo]
    rfl
  · intro i hi hn _
    rw [hlen] at hn
    exact h.cell i hi (by omega) fun _ => by omega

/-- Between two pops the ring holds what is pushed and not popped, so that the operations of
`MsgQueue`, which run without an interruption, may be used of it. -/
theorem holds (h : m.Flows pushed popped false) : m.Holds (pushed.drop popped.length) := by
  have hle := h.le
  have hroom := h.room
  have hlen : (pushed.drop popped.length).length = pushed.length - popped.length := by simp
  constructor
  · rw [h.front_eq]
    exact Nat.mod_lt _ h.cap_pos
  · omega
  · rw [h.front_eq, h.back_eq, hlen, Nat.mod_add_mod]
    congr 1
    omega
  · intro i hi
    rw [hlen] at hi
    rw [h.front_eq, Nat.mod_add_mod, List.getElem_drop]
    exact h.cell (popped.length + i) (by omega) (by omega) (by simp)

end Flows

end MsgQueue

/-! ## `msg_queue` -/

/-- Where `msg_queue::push` is: outside, before `q[back] = p`, or before `back = (back + 1) %
cap`. -/
inductive PushPc (α : Type) where
  | idle
  | store (x : α)
  | publish (x : α)

/-- Where the popping thread is: outside, before the load of `pop`, before `q[front] = NULL`, before
`front = (front + 1) % cap`, before the load of `getfront`, or back from `getfront` with what it
returned. -/
inductive PopPc (α : Type) where
  | idle
  | load
  | clear (ret : Option α)
  | publish (ret : Option α)
  | peek
  | peeked (ret : Option α)

/-- A `msg_queue` with `multi_push == false` and its two threads. -/
structure QueueThreads (α : Type) where
  ring : MsgQueue α
  push : PushPc α
  pop : PopPc α
  pushed : List α
  popped : List (Option α)

/-- A call of `push`, of `pop` or of `getfront` up to and including its test, or the next statement
of one of the two threads. -/
inductive QueueAction (α : Type) where
  | push (p : Option α)
  | pushNext
  | pop
  | getfront
  | popNext

namespace QueueThreads

/-- `msg_queue::init`. -/
def init (cap : ℕ) : QueueThreads α := ⟨.init cap, .idle, .idle, [], []⟩

/-- Is the popping thread outside `pop` and `getfront`? -/
def popOutside (s : QueueThreads α) : Bool :=
  match s.pop with
  | .idle => true
  | .peeked _ => true
  | _ => false

/-- The next statement of `push`. -/
def pushNext (s : QueueThreads α) : Option (QueueThreads α) :=
  match s.push with
  | .idle => none
  | .store x => some { s with
      ring := { s.ring with q := Function.update s.ring.q s.ring.back (some x) }
      push := .publish x }
  | .publish x => some { s with
      ring := { s.ring with back := (s.ring.back + 1) % s.ring.cap }
      push := .idle
      pushed := s.pushed ++ [x] }

/-- The next statement of `pop` or of `getfront`. -/
def popNext (s : QueueThreads α) : Option (QueueThreads α) :=
  match s.pop with
  | .idle => none
  | .load => some { s with pop := .clear (s.ring.q s.ring.front) }
  | .clear ret => some { s with
      ring := { s.ring with q := Function.update s.ring.q s.ring.front none }
      pop := .publish ret }
  | .publish ret => some { s with
      ring := { s.ring with front := (s.ring.front + 1) % s.ring.cap }
      pop := .idle
      popped := s.popped ++ [ret] }
  | .peek => some { s with pop := .peeked (s.ring.q s.ring.front) }
  | .peeked _ => none

/-- A statement of one of the threads. A call that is refused is back outside at once. -/
def step (s : QueueThreads α) : QueueAction α → Option (QueueThreads α)
  | .push p =>
    match s.push, p with
    | .idle, none => some s
    | .idle, some x =>
      if (s.ring.back + 1) % s.ring.cap = s.ring.front then some s
      else some { s with push := .store x }
    | _, _ => none
  | .pushNext => s.pushNext
  | .pop =>
    if s.popOutside then
      some { s with pop := if s.ring.front = s.ring.back then .idle else .load }
    else none
  | .getfront =>
    if s.popOutside then
      some { s with pop := if s.ring.front = s.ring.back then .idle else .peek }
    else none
  | .popNext => s.popNext

/-- A state that some interleaving of the two threads reaches. -/
abbrev Run (cap : ℕ) : QueueThreads α → Prop := Reach step (init cap) anyStep

/-- Has a pop cleared the cell of the item that it will return? -/
def taken (s : QueueThreads α) : Bool :=
  match s.pop with
  | .publish _ => true
  | _ => false

/-- The item of number `i` where it is kept: with the pop that has loaded it, or in its cell. -/
def item (s : QueueThreads α) (i : ℕ) : Option α :=
  match s.pop with
  | .publish ret => if i = s.popped.length then ret else s.ring.q (i % s.ring.cap)
  | _ => s.ring.q (i % s.ring.cap)

/-- What holds between any two statements: the ring is on the way from `pushed` to `popped`, a push
that has passed its test still has room, and a pop that has passed its test has an item. -/
structure Inv (cap : ℕ) (s : QueueThreads α) : Prop where
  cap_eq : s.ring.cap = cap
  flows : s.ring.Flows s.pushed s.popped s.taken
  store : ∀ x, s.push = .store x → s.pushed.length + 1 < s.popped.length + s.ring.cap
  publish : ∀ x, s.push = .publish x →
    s.pushed.length + 1 < s.popped.length + s.ring.cap ∧ s.ring.q s.ring.back = some x
  load : s.pop = .load ∨ s.pop = .peek → s.popped.length < s.pushed.length
  loaded : ∀ ret, s.pop = .clear ret ∨ s.pop = .publish ret ∨ s.pop = .peeked ret →
    ∃ h : s.popped.length < s.pushed.length, ret = some s.pushed[s.popped.length]

theorem inv_init {cap : ℕ} (h : 0 < cap) : Inv cap (init cap : QueueThreads α) where
  cap_eq := rfl
  flows := MsgQueue.flows_init h
  store _ he := absurd he (by simp [init])
  publish _ he := absurd he (by simp [init])
  load he := absurd he (by simp [init])
  loaded _ he := absurd he (by simp [init])

/-- The pushing thread's next statement. -/
theorem Inv.pushNext {cap : ℕ} {s s' : QueueThreads α} (h : s.Inv cap)
    (hs : s.pushNext = some s') : s'.Inv cap := by
  unfold QueueThreads.pushNext at hs
  cases hpush : s.push with
  | idle =>
    rw [hpush] at hs
    exact absurd hs (by simp)
  | store x =>
    -- The item is in its cell and not yet there for the other thread.
    rw [hpush] at hs
    obtain rfl := Option.some.inj hs
    constructor
    · exact h.cap_eq
    · exact h.flows.store (some x)
    · intro y hy
      exact absurd hy (by simp)
    · intro y hy
      have hxy : x = y := PushPc.publish.inj hy
      subst hxy
      exact ⟨h.store x hpush, Function.update_self ..⟩
    · exact h.load
    · exact h.loaded
  | publish x =>
    -- With the index it is: the ring has one item more.
    rw [hpush] at hs
    obtain rfl := Option.some.inj hs
    obtain ⟨hroom, hcell⟩ := h.publish x hpush
    have hlen : (s.pushed ++ [x]).length = s.pushed.length + 1 := by simp
    constructor
    · exact h.cap_eq
    · exact h.flows.publish hcell hroom
    · intro y hy
      exact absurd hy (by simp)
    · intro y hy
      exact absurd hy (by simp)
    · intro hpop
      have := h.load hpop
      show s.popped.length < (s.pushed ++ [x]).length
      omega
    · intro ret hpop
      obtain ⟨hlt, hret⟩ := h.loaded ret hpop
      exact loaded_append hlt hret x

/-- The popping thread goes on to `pc` without a change to the ring, while nothing is cleared. -/
theorem Inv.withPop {cap : ℕ} {s : QueueThreads α} (h : s.Inv cap) (hkept : s.taken = false)
    {pc : PopPc α} (hpc : ({ s with pop := pc } : QueueThreads α).taken = false)
    (hload : pc = .load ∨ pc = .peek → s.popped.length < s.pushed.length)
    (hloaded : ∀ ret, pc = .clear ret ∨ pc = .publish ret ∨ pc = .peeked ret →
      ∃ h : s.popped.length < s.pushed.length, ret = some s.pushed[s.popped.length]) :
    ({ s with pop := pc } : QueueThreads α).Inv cap := by
  have hflows := h.flows
  rw [hkept] at hflows
  constructor
  · exact h.cap_eq
  · rw [hpc]
    exact hflows
  · exact h.store
  · exact h.publish
  · exact hload
  · exact hloaded

/-- The popping thread's next statement. -/
theorem Inv.popNext {cap : ℕ} {s s' : QueueThreads α} (h : s.Inv cap)
    (hs : s.popNext = some s') : s'.Inv cap := by
  unfold QueueThreads.popNext at hs
  -- What a load finds at `front`, when it has passed its test.
  have hfront : s.taken = false → s.popped.length < s.pushed.length → ∀ ret,
      s.ring.q s.ring.front = ret →
      ∃ h : s.popped.length < s.pushed.length, ret = some s.pushed[s.popped.length] := by
    intro hkept hlt ret hret
    have hflows := h.flows
    rw [hkept] at hflows
    refine ⟨hlt, ?_⟩
    rw [← hret]
    exact hflows.load hlt
  cases hpop : s.pop with
  | idle =>
    rw [hpop] at hs
    exact absurd hs (by simp)
  | load =>
    rw [hpop] at hs
    obtain rfl := Option.some.inj hs
    have hkept : s.taken = false := by simp [taken, hpop]
    have hlt := h.load (Or.inl hpop)
    exact h.withPop hkept rfl (by simp) fun ret he => hfront hkept hlt ret (by simpa using he)
  | clear ret =>
    rw [hpop] at hs
    obtain rfl := Option.some.inj hs
    obtain ⟨hlt, hret⟩ := h.loaded ret (Or.inl hpop)
    constructor
    · exact h.cap_eq
    · exact h.flows.clear
    · exact h.store
    · intro x hx
      obtain ⟨hroom, hcell⟩ := h.publish x hx
      -- The cell that is cleared is not the one that is stored, since the ring is not empty.
      have hne : s.ring.back ≠ s.ring.front := by
        intro heq
        have := h.flows.empty_iff.mp heq.symm
        omega
      refine ⟨hroom, ?_⟩
      show Function.update s.ring.q s.ring.front none s.ring.back = some x
      rw [Function.update_of_ne hne]
      exact hcell
    · intro he
      exact absurd he (by simp)
    · intro ret' he
      have hsame : ret = ret' := by simpa using he
      rw [← hsame]
      exact ⟨hlt, hret⟩
  | publish ret =>
    rw [hpop] at hs
    obtain rfl := Option.some.inj hs
    obtain ⟨hlt, hret⟩ := h.loaded ret (Or.inr (Or.inl hpop))
    -- `front` moves on, which makes room.
    have hlen : (s.popped ++ [ret]).length = s.popped.length + 1 := by simp
    constructor
    · exact h.cap_eq
    · rw [hret]
      exact h.flows.retire hlt
    · intro x hx
      have := h.store x hx
      show s.pushed.length + 1 < (s.popped ++ [ret]).length + s.ring.cap
      omega
    · intro x hx
      obtain ⟨hroom, hcell⟩ := h.publish x hx
      refine ⟨?_, hcell⟩
      show s.pushed.length + 1 < (s.popped ++ [ret]).length + s.ring.cap
      omega
    · intro he
      exact absurd he (by simp)
    · intro ret' he
      exact absurd he (by simp)
  | peek =>
    rw [hpop] at hs
    obtain rfl := Option.some.inj hs
    have hkept : s.taken = false := by simp [taken, hpop]
    have hlt := h.load (Or.inr hpop)
    exact h.withPop hkept rfl (by simp) fun ret he => hfront hkept hlt ret (by simpa using he)
  | peeked ret =>
    rw [hpop] at hs
    exact absurd hs (by simp)

/-- Nothing is cleared outside `pop`. -/
theorem taken_of_outside {s : QueueThreads α} (h : s.popOutside = true) : s.taken = false := by
  unfold popOutside at h
  unfold taken
  cases hpop : s.pop with
  | publish ret =>
    rw [hpop] at h
    exact absurd h (by simp)
  | _ => rfl

/-- The test of `pop` or of `getfront`, after which the thread is at `pc` when there is an item. -/
theorem Inv.test {cap : ℕ} {s : QueueThreads α} (h : s.Inv cap) (hout : s.popOutside = true)
    {pc : PopPc α} (hpc : pc = .load ∨ pc = .peek) :
    ({ s with pop := if s.ring.front = s.ring.back then .idle else pc } :
      QueueThreads α).Inv cap := by
  have hkept := taken_of_outside hout
  have hle := h.flows.le
  by_cases hempty : s.ring.front = s.ring.back
  · rw [if_pos hempty]
    exact h.withPop hkept rfl (by simp) (by simp)
  · rw [if_neg hempty]
    have hne : ¬ s.pushed.length = s.popped.length := fun he => hempty (h.flows.empty_iff.mpr he)
    have hlt : s.popped.length < s.pushed.length := by omega
    rcases hpc with rfl | rfl
    · exact h.withPop hkept rfl (fun _ => hlt) (by simp)
    · exact h.withPop hkept rfl (fun _ => hlt) (by simp)

/-- What the test of `push` does. -/
theorem step_push {s s' : QueueThreads α} {p : Option α} (hs : s.step (.push p) = some s') :
    s.push = .idle ∧ ((p = none ∧ s' = s) ∨ ∃ x, p = some x ∧
      (((s.ring.back + 1) % s.ring.cap = s.ring.front ∧ s' = s) ∨
        ((s.ring.back + 1) % s.ring.cap ≠ s.ring.front ∧ s' = { s with push := .store x }))) := by
  unfold step at hs
  cases hpush : s.push with
  | idle =>
    rw [hpush] at hs
    refine ⟨rfl, ?_⟩
    cases p with
    | none => exact Or.inl ⟨rfl, (Option.some.inj hs).symm⟩
    | some x =>
      refine Or.inr ⟨x, rfl, ?_⟩
      dsimp only at hs
      split_ifs at hs with hfull
      · exact Or.inl ⟨hfull, (Option.some.inj hs).symm⟩
      · exact Or.inr ⟨hfull, (Option.some.inj hs).symm⟩
  | store x =>
    rw [hpush] at hs
    exact absurd hs (by simp)
  | publish x =>
    rw [hpush] at hs
    exact absurd hs (by simp)

/-- What the test of `pop` does. -/
theorem step_pop {s s' : QueueThreads α} (hs : s.step .pop = some s') :
    s.popOutside = true ∧
      s' = { s with pop := if s.ring.front = s.ring.back then .idle else .load } := by
  rw [step] at hs
  obtain ⟨hout, hs⟩ := Option.ite_none_right_eq_some.mp hs
  exact ⟨hout, (Option.some.inj hs).symm⟩

/-- What the test of `getfront` does. -/
theorem step_getfront {s s' : QueueThreads α} (hs : s.step .getfront = some s') :
    s.popOutside = true ∧
      s' = { s with pop := if s.ring.front = s.ring.back then .idle else .peek } := by
  rw [step] at hs
  obtain ⟨hout, hs⟩ := Option.ite_none_right_eq_some.mp hs
  exact ⟨hout, (Option.some.inj hs).symm⟩

/-- The test of `push` lets only a push pass that has room. -/
theorem Inv.push {cap : ℕ} {s s' : QueueThreads α} {p : Option α} (h : s.Inv cap)
    (hs : s.step (.push p) = some s') : s'.Inv cap := by
  obtain ⟨-, ⟨-, rfl⟩ | ⟨x, -, ⟨-, rfl⟩ | ⟨hroom, rfl⟩⟩⟩ := step_push hs
  · exact h
  · exact h
  · have hlt := h.flows.room
    constructor
    · exact h.cap_eq
    · exact h.flows
    · intro y _
      have hne : ¬ s.pushed.length + 1 = s.popped.length + s.ring.cap :=
        fun he => hroom (h.flows.full_iff.mpr he)
      show s.pushed.length + 1 < s.popped.length + s.ring.cap
      omega
    · intro y hy
      exact absurd hy (by simp)
    · exact h.load
    · exact h.loaded

/-- Every statement keeps the invariant. -/
theorem Inv.step {cap : ℕ} {s s' : QueueThreads α} {a : QueueAction α} (h : s.Inv cap)
    (hs : s.step a = some s') : s'.Inv cap := by
  cases a with
  | push p => exact h.push hs
  | pushNext => exact h.pushNext hs
  | pop =>
    obtain ⟨hout, rfl⟩ := step_pop hs
    exact h.test hout (Or.inl rfl)
  | getfront =>
    obtain ⟨hout, rfl⟩ := step_getfront hs
    exact h.test hout (Or.inr rfl)
  | popNext => exact h.popNext hs

/-- The invariant holds between any two statements of a run. -/
theorem run_inv {cap : ℕ} (hcap : 0 < cap) {s : QueueThreads α} (run : Run cap s) : s.Inv cap :=
  run.invariant (inv_init hcap) fun _ _ _ _ h _ hs => h.step hs

/-- Each item that is pushed and not popped is still there. -/
theorem Inv.item_eq {cap : ℕ} {s : QueueThreads α} (h : s.Inv cap) {i : ℕ}
    (hi : i < s.pushed.length) (hn : s.popped.length ≤ i) : s.item i = some s.pushed[i] := by
  have hcell := h.flows.cell i hi hn
  unfold item
  unfold taken at hcell
  cases hpop : s.pop with
  | publish ret =>
    -- The cell of the first item is cleared already; its item is the one that will be returned.
    rw [hpop] at hcell
    dsimp only at hcell ⊢
    by_cases hie : i = s.popped.length
    · obtain ⟨hlt, hret⟩ := h.loaded ret (Or.inr (Or.inl hpop))
      subst hie
      rw [if_pos rfl, hret]
    · rw [if_neg hie]
      exact hcell fun _ => hie
  | idle =>
    rw [hpop] at hcell
    exact hcell (by simp)
  | load =>
    rw [hpop] at hcell
    exact hcell (by simp)
  | clear ret =>
    rw [hpop] at hcell
    exact hcell (by simp)
  | peek =>
    rw [hpop] at hcell
    exact hcell (by simp)
  | peeked ret =>
    rw [hpop] at hcell
    exact hcell (by simp)

/-- What a call of `push`, `pop` or `getfront` finds at its test: the push is refused exactly when
the ring holds `cap - 1` items, and the pop and `getfront` exactly when it holds none. -/
theorem Inv.refused_iff {cap : ℕ} {s : QueueThreads α} (h : s.Inv cap) :
    (∀ x s', s.step (.push (some x)) = some s' →
      (s'.push = .idle ↔ s.pushed.length - s.popped.length = cap - 1)) ∧
    (∀ s', s.step .pop = some s' → (s'.pop = .idle ↔ s.pushed.length - s.popped.length = 0)) ∧
    ∀ s', s.step .getfront = some s' →
      (s'.pop = .idle ↔ s.pushed.length - s.popped.length = 0) := by
  have hle := h.flows.le
  have hroom := h.flows.room
  have hcap := h.cap_eq
  have hempty : s.ring.front = s.ring.back ↔ s.pushed.length - s.popped.length = 0 :=
    h.flows.empty_iff.trans (by omega)
  refine ⟨?_, ?_, ?_⟩
  · intro x s' hs
    have hfull := h.flows.full_iff
    obtain ⟨hidle, ⟨hnone, -⟩ | ⟨y, -, ⟨htest, rfl⟩ | ⟨htest, rfl⟩⟩⟩ := step_push hs
    · exact absurd hnone (by simp)
    · -- The ring is full, and the item is refused.
      have hheld := hfull.mp htest
      exact iff_of_true hidle (by omega)
    · refine iff_of_false (by simp) ?_
      intro he
      exact absurd (hfull.mpr (by omega)) htest
  · intro s' hs
    obtain ⟨-, rfl⟩ := step_pop hs
    exact ite_holds_iff (P := fun pc : PopPc α => pc = .idle) rfl (by simp) hempty
  · intro s' hs
    obtain ⟨-, rfl⟩ := step_getfront hs
    exact ite_holds_iff (P := fun pc : PopPc α => pc = .idle) rfl (by simp) hempty

end QueueThreads

/-! ## `message_queue` -/

/-- Where the thread is that puts items into a `message_queue`: outside, with the cell that
`getback` has returned and what it has stored there, in `push` before `back = (back + 1) % cap`, or
in `push` behind that. -/
inductive PutPc (α : Type) where
  | idle
  | slot (p : Option α)
  | publish (x : α)
  | used

/-- Where the thread is that takes items out: outside, with the cell that `getfront` has returned,
with what it has read there, or in `pop` before `front = (front + 1) % cap`. -/
inductive TakePc (α : Type) where
  | idle
  | slot
  | loaded (ret : Option α)
  | retire (ret : Option α)

/-- A `message_queue` and its two threads. A cell that was never written is `none`. -/
structure MessageQueueThreads (α : Type) where
  ring : MsgQueue α
  max_used : ℕ
  put : PutPc α
  take : TakePc α
  pushed : List α
  popped : List (Option α)

/-- A call of `getback`, `push`, `getfront` or `pop` up to and including its test, an access to the
cell that was returned, the return without a `push`, or the next statement of `push` or `pop`. -/
inductive MessageQueueAction (α : Type) where
  | getback
  | store (x : α)
  | giveUp
  | push
  | pushNext
  | getfront
  | load
  | pop
  | popNext

namespace MessageQueueThreads

/-- `message_queue::init`. -/
def init (cap : ℕ) : MessageQueueThreads α := ⟨.init cap, 0, .idle, .idle, [], []⟩

/-- `(back + cap - front) % cap` in `push`. -/
def used (s : MessageQueueThreads α) : ℕ := (s.ring.back + s.ring.cap - s.ring.front) % s.ring.cap

/-- A statement of the thread that puts items in, at its program counter. -/
def putStep (s : MessageQueueThreads α) (a : MessageQueueAction α) :
    Option (MessageQueueThreads α) :=
  match a, s.put with
  | .getback, .idle =>
    if (s.ring.back + 1) % s.ring.cap = s.ring.front then some s
    else some { s with put := .slot none }
  | .store x, .slot _ => some { s with
      ring := { s.ring with q := Function.update s.ring.q s.ring.back (some x) }
      put := .slot (some x) }
  | .giveUp, .slot _ => some { s with put := .idle }
  | .push, .slot (some x) =>
    if (s.ring.back + 1) % s.ring.cap = s.ring.front then some { s with put := .idle }
    else some { s with put := .publish x }
  | .pushNext, .publish x => some { s with
      ring := { s.ring with back := (s.ring.back + 1) % s.ring.cap }
      put := .used
      pushed := s.pushed ++ [x] }
  | .pushNext, .used => some { s with max_used := max s.max_used s.used, put := .idle }
  | _, _ => none

/-- The test of `message_queue::getfront`. -/
def getfront (s : MessageQueueThreads α) : MessageQueueThreads α :=
  { s with take := if s.ring.front = s.ring.back then .idle else .slot }

/-- A statement of the thread that takes items out, at its program counter. -/
def takeStep (s : MessageQueueThreads α) (a : MessageQueueAction α) :
    Option (MessageQueueThreads α) :=
  match a, s.take with
  | .getfront, .idle => some s.getfront
  | .getfront, .slot => some s.getfront
  | .getfront, .loaded _ => some s.getfront
  | .load, .slot => some { s with take := .loaded (s.ring.q s.ring.front) }
  | .load, .loaded _ => some { s with take := .loaded (s.ring.q s.ring.front) }
  | .pop, .loaded ret =>
    if s.ring.front = s.ring.back then some { s with take := .idle }
    else some { s with take := .retire ret }
  | .popNext, .retire ret => some { s with
      ring := { s.ring with front := (s.ring.front + 1) % s.ring.cap }
      take := .idle
      popped := s.popped ++ [ret] }
  | _, _ => none

/-- A statement of one of the threads. -/
def step (s : MessageQueueThreads α) (a : MessageQueueAction α) : Option (MessageQueueThreads α) :=
  match a with
  | .getback => s.putStep a
  | .store _ => s.putStep a
  | .giveUp => s.putStep a
  | .push => s.putStep a
  | .pushNext => s.putStep a
  | .getfront => s.takeStep a
  | .load => s.takeStep a
  | .pop => s.takeStep a
  | .popNext => s.takeStep a

/-- A state that some interleaving of the two threads reaches. -/
abbrev Run (cap : ℕ) : MessageQueueThreads α → Prop := Reach step (init cap) anyStep

/-- What holds between any two statements, as for `QueueThreads`. -/
structure Inv (cap : ℕ) (s : MessageQueueThreads α) : Prop where
  cap_eq : s.ring.cap = cap
  flows : s.ring.Flows s.pushed s.popped false
  slot : ∀ p, s.put = .slot p → s.pushed.length + 1 < s.popped.length + s.ring.cap ∧
    ∀ x, p = some x → s.ring.q s.ring.back = some x
  publish : ∀ x, s.put = .publish x →
    s.pushed.length + 1 < s.popped.length + s.ring.cap ∧ s.ring.q s.ring.back = some x
  got : s.take = .slot → s.popped.length < s.pushed.length
  loaded : ∀ ret, s.take = .loaded ret ∨ s.take = .retire ret →
    ∃ h : s.popped.length < s.pushed.length, ret = some s.pushed[s.popped.length]

theorem inv_init {cap : ℕ} (h : 0 < cap) : Inv cap (init cap : MessageQueueThreads α) where
  cap_eq := rfl
  flows := MsgQueue.flows_init h
  slot _ he := absurd he (by simp [init])
  publish _ he := absurd he (by simp [init])
  got he := absurd he (by simp [init])
  loaded _ he := absurd he (by simp [init])

/-- The thread that puts items in goes on to `pc` without a change to the ring. -/
theorem Inv.withPut {cap : ℕ} {s : MessageQueueThreads α} (h : s.Inv cap) {pc : PutPc α}
    (hslot : ∀ p, pc = .slot p → s.pushed.length + 1 < s.popped.length + s.ring.cap ∧
      ∀ x, p = some x → s.ring.q s.ring.back = some x)
    (hpublish : ∀ x, pc = .publish x →
      s.pushed.length + 1 < s.popped.length + s.ring.cap ∧ s.ring.q s.ring.back = some x)
    (n : ℕ) : ({ s with put := pc, max_used := n } : MessageQueueThreads α).Inv cap := by
  constructor
  · exact h.cap_eq
  · exact h.flows
  · exact hslot
  · exact hpublish
  · exact h.got
  · exact h.loaded

/-- The thread that takes items out goes on to `pc` without a change to the ring. -/
theorem Inv.withTake {cap : ℕ} {s : MessageQueueThreads α} (h : s.Inv cap) {pc : TakePc α}
    (hgot : pc = .slot → s.popped.length < s.pushed.length)
    (hloaded : ∀ ret, pc = .loaded ret ∨ pc = .retire ret →
      ∃ h : s.popped.length < s.pushed.length, ret = some s.pushed[s.popped.length]) :
    ({ s with take := pc } : MessageQueueThreads α).Inv cap := by
  constructor
  · exact h.cap_eq
  · exact h.flows
  · exact h.slot
  · exact h.publish
  · exact hgot
  · exact hloaded

/-- A store into the cell at `back` that `getback` has returned. -/
theorem Inv.store {cap : ℕ} {s : MessageQueueThreads α} (h : s.Inv cap) {p : Option α}
    (hput : s.put = .slot p) (x : α) :
    ({ s with
      ring := { s.ring with q := Function.update s.ring.q s.ring.back (some x) }
      put := .slot (some x) } : MessageQueueThreads α).Inv cap := by
  obtain ⟨hroom, -⟩ := h.slot p hput
  constructor
  · exact h.cap_eq
  · exact h.flows.store (some x)
  · intro p' hp'
    have hsame : some x = p' := PutPc.slot.inj hp'
    subst hsame
    refine ⟨hroom, fun y hy => ?_⟩
    rw [← Option.some.inj hy]
    exact Function.update_self ..
  · intro y hy
    exact absurd hy (by simp)
  · exact h.got
  · exact h.loaded

/-- `back = (back + 1) % cap` in `push`. -/
theorem Inv.publishBack {cap : ℕ} {s : MessageQueueThreads α} (h : s.Inv cap) {x : α}
    (hput : s.put = .publish x) :
    ({ s with
      ring := { s.ring with back := (s.ring.back + 1) % s.ring.cap }
      put := .used
      pushed := s.pushed ++ [x] } : MessageQueueThreads α).Inv cap := by
  obtain ⟨hroom, hcell⟩ := h.publish x hput
  have hlen : (s.pushed ++ [x]).length = s.pushed.length + 1 := by simp
  constructor
  · exact h.cap_eq
  · exact h.flows.publish hcell hroom
  · intro p hp
    exact absurd hp (by simp)
  · intro y hy
    exact absurd hy (by simp)
  · intro htake
    have := h.got htake
    show s.popped.length < (s.pushed ++ [x]).length
    omega
  · intro ret htake
    obtain ⟨hlt, hret⟩ := h.loaded ret htake
    exact loaded_append hlt hret x

/-- `front = (front + 1) % cap` in `pop`. -/
theorem Inv.retireFront {cap : ℕ} {s : MessageQueueThreads α} (h : s.Inv cap) {ret : Option α}
    (htake : s.take = .retire ret) :
    ({ s with
      ring := { s.ring with front := (s.ring.front + 1) % s.ring.cap }
      take := .idle
      popped := s.popped ++ [ret] } : MessageQueueThreads α).Inv cap := by
  obtain ⟨hlt, hret⟩ := h.loaded ret (Or.inr htake)
  have hlen : (s.popped ++ [ret]).length = s.popped.length + 1 := by simp
  constructor
  · exact h.cap_eq
  · rw [hret]
    exact h.flows.retire hlt
  · intro p hp
    obtain ⟨hroom, hcell⟩ := h.slot p hp
    refine ⟨?_, hcell⟩
    show s.pushed.length + 1 < (s.popped ++ [ret]).length + s.ring.cap
    omega
  · intro x hx
    obtain ⟨hroom, hcell⟩ := h.publish x hx
    refine ⟨?_, hcell⟩
    show s.pushed.length + 1 < (s.popped ++ [ret]).length + s.ring.cap
    omega
  · intro he
    exact absurd he (by simp)
  · intro ret' he
    exact absurd he (by simp)

/-- A ring that is not full has room for one item more. -/
theorem Inv.room {cap : ℕ} {s : MessageQueueThreads α} (h : s.Inv cap)
    (hfull : (s.ring.back + 1) % s.ring.cap ≠ s.ring.front) :
    s.pushed.length + 1 < s.popped.length + s.ring.cap := by
  have hlt := h.flows.room
  have hne : ¬ s.pushed.length + 1 = s.popped.length + s.ring.cap :=
    fun he => hfull (h.flows.full_iff.mpr he)
  omega

/-- Every statement of the thread that puts items in keeps the invariant. -/
theorem Inv.putStep {cap : ℕ} {s s' : MessageQueueThreads α} {a : MessageQueueAction α}
    (h : s.Inv cap) (hs : s.putStep a = some s') : s'.Inv cap := by
  unfold MessageQueueThreads.putStep at hs
  split at hs
  case h_1 hput =>
    -- `getback`
    split_ifs at hs with hfull
    · rw [← Option.some.inj hs]
      exact h
    · obtain rfl := Option.some.inj hs
      have hroom := h.room hfull
      refine h.withPut ?_ (by simp) _
      intro p hp
      have hsame : none = p := PutPc.slot.inj hp
      subst hsame
      exact ⟨hroom, by simp⟩
  case h_2 x p hput =>
    obtain rfl := Option.some.inj hs
    exact h.store hput x
  case h_3 p hput =>
    obtain rfl := Option.some.inj hs
    exact h.withPut (by simp) (by simp) _
  case h_4 x hput =>
    -- `push`
    obtain ⟨hroom, hcell⟩ := h.slot _ hput
    split_ifs at hs with hfull
    · obtain rfl := Option.some.inj hs
      exact h.withPut (by simp) (by simp) _
    · obtain rfl := Option.some.inj hs
      refine h.withPut (by simp) ?_ _
      intro y hy
      have hsame : x = y := PutPc.publish.inj hy
      subst hsame
      exact ⟨hroom, hcell x rfl⟩
  case h_5 x hput =>
    obtain rfl := Option.some.inj hs
    exact h.publishBack hput
  case h_6 hput =>
    obtain rfl := Option.some.inj hs
    exact h.withPut (by simp) (by simp) _
  case h_7 => exact absurd hs (by simp)

/-- The test of `getfront`. -/
theorem Inv.getfront {cap : ℕ} {s : MessageQueueThreads α} (h : s.Inv cap) :
    s.getfront.Inv cap := by
  have hle := h.flows.le
  unfold MessageQueueThreads.getfront
  split_ifs with hempty
  · exact h.withTake (by simp) (by simp)
  · have hne : ¬ s.pushed.length = s.popped.length := fun he => hempty (h.flows.empty_iff.mpr he)
    exact h.withTake (fun _ => by omega) (by simp)

/-- A load from the cell at `front`, when there is an item. -/
theorem Inv.load {cap : ℕ} {s : MessageQueueThreads α} (h : s.Inv cap)
    (hlt : s.popped.length < s.pushed.length) :
    ({ s with take := .loaded (s.ring.q s.ring.front) } : MessageQueueThreads α).Inv cap := by
  refine h.withTake (by simp) ?_
  intro ret he
  have hret : s.ring.q s.ring.front = ret := by simpa using he
  refine ⟨hlt, ?_⟩
  rw [← hret]
  exact h.flows.load hlt

/-- Every statement of the thread that takes items out keeps the invariant. -/
theorem Inv.takeStep {cap : ℕ} {s s' : MessageQueueThreads α} {a : MessageQueueAction α}
    (h : s.Inv cap) (hs : s.takeStep a = some s') : s'.Inv cap := by
  unfold MessageQueueThreads.takeStep at hs
  split at hs
  case h_1 =>
    obtain rfl := Option.some.inj hs
    exact h.getfront
  case h_2 =>
    obtain rfl := Option.some.inj hs
    exact h.getfront
  case h_3 =>
    obtain rfl := Option.some.inj hs
    exact h.getfront
  case h_4 htake =>
    obtain rfl := Option.some.inj hs
    exact h.load (h.got htake)
  case h_5 ret htake =>
    obtain rfl := Option.some.inj hs
    obtain ⟨hlt, -⟩ := h.loaded ret (Or.inl htake)
    exact h.load hlt
  case h_6 ret htake =>
    -- `pop`
    obtain ⟨hlt, hret⟩ := h.loaded ret (Or.inl htake)
    split_ifs at hs with hempty
    · obtain rfl := Option.some.inj hs
      exact h.withTake (by simp) (by simp)
    · obtain rfl := Option.some.inj hs
      refine h.withTake (by simp) ?_
      intro ret' he
      have hsame : ret = ret' := by simpa using he
      subst hsame
      exact ⟨hlt, hret⟩
  case h_7 ret htake =>
    obtain rfl := Option.some.inj hs
    exact h.retireFront htake
  case h_8 => exact absurd hs (by simp)

/-- Every statement keeps the invariant. -/
theorem Inv.step {cap : ℕ} {s s' : MessageQueueThreads α} {a : MessageQueueAction α}
    (h : s.Inv cap) (hs : s.step a = some s') : s'.Inv cap := by
  cases a with
  | getback => exact h.putStep hs
  | store x => exact h.putStep hs
  | giveUp => exact h.putStep hs
  | push => exact h.putStep hs
  | pushNext => exact h.putStep hs
  | getfront => exact h.takeStep hs
  | load => exact h.takeStep hs
  | pop => exact h.takeStep hs
  | popNext => exact h.takeStep hs

/-- The invariant holds between any two statements of a run. -/
theorem run_inv {cap : ℕ} (hcap : 0 < cap) {s : MessageQueueThreads α} (run : Run cap s) :
    s.Inv cap :=
  run.invariant (inv_init hcap) fun _ _ _ _ h _ hs => h.step hs

/-- What a call of `getback` or of `getfront` finds at its test, as for `msg_queue`. The tests of
`push` behind `getback` and of `pop` behind `getfront` find what these have found. -/
theorem Inv.refused_iff {cap : ℕ} {s : MessageQueueThreads α} (h : s.Inv cap) :
    (∀ s', s.step .getback = some s' →
      (s'.put = .idle ↔ s.pushed.length - s.popped.length = cap - 1)) ∧
    (∀ s', s.step .getfront = some s' →
      (s'.take = .idle ↔ s.pushed.length - s.popped.length = 0)) ∧
    (∀ s', s.step .push = some s' → ∃ x, s'.put = .publish x) ∧
    ∀ s', s.step .pop = some s' → ∃ ret, s'.take = .retire ret := by
  have hle := h.flows.le
  have hroom := h.flows.room
  have hcap := h.cap_eq
  have hempty : s.ring.front = s.ring.back ↔ s.pushed.length - s.popped.length = 0 :=
    h.flows.empty_iff.trans (by omega)
  have hfull := h.flows.full_iff
  refine ⟨?_, ?_, ?_, ?_⟩
  · intro s' hs
    cases hput : s.put with
    | idle =>
      simp only [MessageQueueThreads.step, MessageQueueThreads.putStep, hput] at hs
      split_ifs at hs with htest
      · -- The ring is full, and no slot is given.
        have hheld := hfull.mp htest
        rw [← Option.some.inj hs]
        exact iff_of_true hput (by omega)
      · rw [← Option.some.inj hs]
        refine iff_of_false (by simp) ?_
        intro he
        exact absurd (hfull.mpr (by omega)) htest
    | _ =>
      simp only [MessageQueueThreads.step, MessageQueueThreads.putStep, hput] at hs
      exact absurd hs (by simp)
  · intro s' hs
    have hgot : s' = s.getfront := by
      simp only [MessageQueueThreads.step, MessageQueueThreads.takeStep] at hs
      split at hs
      all_goals simp_all
    rw [hgot]
    exact ite_holds_iff (P := fun pc : TakePc α => pc = .idle) rfl (by simp) hempty
  · intro s' hs
    cases hput : s.put with
    | slot p =>
      cases p with
      | none =>
        simp only [MessageQueueThreads.step, MessageQueueThreads.putStep, hput] at hs
        exact absurd hs (by simp)
      | some x =>
        obtain ⟨hslot, -⟩ := h.slot _ hput
        have htest : (s.ring.back + 1) % s.ring.cap ≠ s.ring.front := by
          intro he
          have := hfull.mp he
          omega
        simp only [MessageQueueThreads.step, MessageQueueThreads.putStep, hput] at hs
        rw [if_neg htest] at hs
        rw [← Option.some.inj hs]
        exact ⟨x, rfl⟩
    | _ =>
      simp only [MessageQueueThreads.step, MessageQueueThreads.putStep, hput] at hs
      exact absurd hs (by simp)
  · intro s' hs
    cases htake : s.take with
    | loaded ret =>
      obtain ⟨hlt, -⟩ := h.loaded ret (Or.inl htake)
      have htest : ¬ s.ring.front = s.ring.back := by
        intro he
        have := hempty.mp he
        omega
      simp only [MessageQueueThreads.step, MessageQueueThreads.takeStep, htake] at hs
      rw [if_neg htest] at hs
      rw [← Option.some.inj hs]
      exact ⟨ret, rfl⟩
    | _ =>
      simp only [MessageQueueThreads.step, MessageQueueThreads.takeStep, htake] at hs
      exact absurd hs (by simp)

end MessageQueueThreads

/-- With one thread on each side, in every interleaving of their statements: what is popped is a
prefix of what is pushed, at most `cap - 1` items are between the two, each of them is intact, and a
refused call has found the ring as it says. -/
theorem rings_fifo {cap : ℕ} (hcap : 2 ≤ cap) :
    (∀ s : QueueThreads α, QueueThreads.Run cap s →
      s.popped = (s.pushed.take s.popped.length).map some ∧
      s.popped.length ≤ s.pushed.length ∧ s.pushed.length - s.popped.length ≤ cap - 1 ∧
      (∀ i (hi : i < s.pushed.length), s.popped.length ≤ i → s.item i = some s.pushed[i]) ∧
      (∀ x s', s.step (.push (some x)) = some s' →
        (s'.push = .idle ↔ s.pushed.length - s.popped.length = cap - 1)) ∧
      (∀ s', s.step .pop = some s' → (s'.pop = .idle ↔ s.pushed.length - s.popped.length = 0)) ∧
      (∀ s', s.step .getfront = some s' →
        (s'.pop = .idle ↔ s.pushed.length - s.popped.length = 0)) ∧
      ∀ ret, s.pop = .peeked ret →
        ∃ h : s.popped.length < s.pushed.length, ret = some s.pushed[s.popped.length]) ∧
    ∀ s : MessageQueueThreads α, MessageQueueThreads.Run cap s →
      s.popped = (s.pushed.take s.popped.length).map some ∧
      s.popped.length ≤ s.pushed.length ∧ s.pushed.length - s.popped.length ≤ cap - 1 ∧
      (∀ i (hi : i < s.pushed.length), s.popped.length ≤ i →
        s.ring.q (i % s.ring.cap) = some s.pushed[i]) ∧
      (∀ s', s.step .getback = some s' →
        (s'.put = .idle ↔ s.pushed.length - s.popped.length = cap - 1)) ∧
      (∀ s', s.step .getfront = some s' →
        (s'.take = .idle ↔ s.pushed.length - s.popped.length = 0)) ∧
      (∀ s', s.step .push = some s' → ∃ x, s'.put = .publish x) ∧
      ∀ s', s.step .pop = some s' → ∃ ret, s'.take = .retire ret := by
  constructor
  · intro s run
    -- The indices run from 0 to `cap`, of which one cell stays free.
    have h := QueueThreads.run_inv (by omega) run
    have hroom := h.flows.room
    have hcap' := h.cap_eq
    obtain ⟨hpush, hpop, hfront⟩ := h.refused_iff
    refine ⟨h.flows.fifo, h.flows.le, by omega, ?_, hpush, hpop, hfront, ?_⟩
    · intro i hi hn
      exact h.item_eq hi hn
    · intro ret he
      exact h.loaded ret (Or.inr (Or.inr he))
  · intro s run
    have h := MessageQueueThreads.run_inv (by omega) run
    have hroom := h.flows.room
    have hcap' := h.cap_eq
    refine ⟨h.flows.fifo, h.flows.le, by omega, ?_, h.refused_iff⟩
    intro i hi hn
    exact h.flows.cell i hi hn (by simp)

/-- Two items through a ring of two cells: the second goes in while the first is on its way out, and
its push is refused until the pop has stored `front`. -/
theorem rings_fifo_two : ∃ s : QueueThreads ℕ, QueueThreads.Run 2 s ∧ s.pushed = [5, 6] ∧
    s.popped = (s.pushed.take 1).map some := by
  have hexec : (exec QueueThreads.step (QueueThreads.init 2)
      [.push (some 5), .pushNext, .pushNext, .pop, .popNext, .popNext, .push (some 6), .popNext,
        .push (some 6), .pushNext, .pushNext]).map
      (fun s : QueueThreads ℕ => (s.pushed, s.popped.length)) = some ([5, 6], 1) := by
    decide +kernel
  obtain ⟨s, hs, he⟩ := Option.map_eq_some_iff.mp hexec
  obtain ⟨hpushed, hpopped⟩ := Prod.mk.inj he
  have hrun : QueueThreads.Run 2 s := reach_of_exec .start (execOk_any _ _ _) hs
  have hfifo := ((rings_fifo (by decide)).1 s hrun).1
  rw [hpopped] at hfifo
  exact ⟨s, hrun, hpushed, hfifo⟩

end Catse
