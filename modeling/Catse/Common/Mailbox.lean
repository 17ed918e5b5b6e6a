import Catse.Common.Slots

/-!
# A pool with one ring between two threads

The engine passes messages of one kind from one thread to another through a pool and one ring that
has a cell more than the pool has slots: `q_recv_admin`, `q_send_admin` and `q_http_send` do so. A
`Mailbox` is such a pair with the contents of the slots, and with the messages that have been pushed
and popped so far, which no function reads. `Ok` says that each slot is in one place and none is
lost, and that what has been pushed is what has been popped and what the ring holds, in order. Every
operation keeps it, whatever the other thread does in between.
-/

namespace Catse

/-- The thread that pushes and the one that pops. -/
inductive Side where
  | producer
  | consumer
  deriving DecidableEq

instance : Fintype Side := ⟨{.producer, .consumer}, fun t => by cases t <;> decide⟩

/-- The slots, what is in them, and the messages that have been pushed and popped. -/
structure Mailbox (M : Type) where
  slots : Slots Unit Side
  list : ℕ → M
  put : List M
  got : List M

namespace Mailbox

variable {M : Type} {n : ℕ} {b : Mailbox M} {h : Side}

/-- `pool.init(n)` and `ring.init(n + 1, ..)`. -/
def init (n : ℕ) (list : ℕ → M) : Mailbox M :=
  ⟨Slots.init n fun _ => n + 1, list, [], []⟩

/-- The message that a thread holds. -/
def held (b : Mailbox M) (h : Side) : Option M := (b.slots.hand h).map b.list

/-- The messages in the ring. -/
def queue (b : Mailbox M) : List M := (b.slots.ring ()).toList.map b.list

/-- `msg = pool.alloc()` of the producer. -/
def alloc (b : Mailbox M) : Mailbox M := { b with slots := b.slots.alloc .producer }

/-- The producer writes to its message. -/
def edit (b : Mailbox M) (f : M → M) : Mailbox M :=
  match b.slots.hand .producer with
  | none => b
  | some i => { b with list := Function.update b.list i (f (b.list i)) }

/-- `ring.push(msg)`. -/
def push (b : Mailbox M) : Mailbox M :=
  { b with slots := b.slots.push .producer (), put := b.put ++ (b.held .producer).toList }

/-- `msg = ring.pop()`. -/
def pop (b : Mailbox M) : Mailbox M :=
  let slots := b.slots.pop .consumer ()
  { b with slots := slots, got := b.got ++ ((slots.hand .consumer).map b.list).toList }

/-- `pool.free(msg)`. -/
def free (b : Mailbox M) (h : Side) : Mailbox M := { b with slots := b.slots.free h }

/-- Each slot is in one place and none is lost, the ring has what has been pushed and not yet
popped, and the consumer has what it popped last. -/
structure Ok (n : ℕ) (b : Mailbox M) : Prop where
  conserved : b.slots.Conserved n fun _ => n + 1
  lost : b.slots.lost = []
  fifo : b.put = b.got ++ b.queue
  last : ∀ m, b.held .consumer = some m → b.got.getLast? = some m

theorem init_ok (n : ℕ) (list : ℕ → M) : (init n list).Ok n where
  conserved := Slots.init_conserved fun _ => Nat.succ_pos n
  lost := rfl
  fifo := by
    have hempty : (MsgQueue.init (n + 1) : MsgQueue ℕ).toList = [] :=
      (MsgQueue.init_holds (Nat.succ_pos n)).toList_eq
    show [] = [] ++ ((MsgQueue.init (n + 1) : MsgQueue ℕ).toList).map list
    rw [hempty]
    rfl
  last _ h := absurd h (by simp [held, init, Slots.init])

theorem held_isSome : (b.held h).isSome = (b.slots.hand h).isSome := Option.isSome_map

theorem held_eq_none : b.held h = none ↔ b.slots.hand h = none := Option.map_eq_none_iff

theorem held_none (hh : (b.held h).isSome = false) : b.held h = none := by
  rw [← Option.isNone_iff_eq_none, ← Option.not_isSome, hh]
  rfl

/-! ## The operations -/

/-- `alloc` finds no slot and changes nothing, or gives the producer one. -/
theorem Ok.alloc_spec (hb : b.Ok n) (hh : b.held .producer = none) :
    b.alloc = b ∨ (b.alloc.held .producer).isSome ∧ b.alloc.held .consumer = b.held .consumer ∧
      b.alloc.queue = b.queue ∧ b.alloc.Ok n := by
  rcases hb.conserved.alloc_spec (held_eq_none.mp hh) with
    ⟨-, heq⟩ | ⟨i, l, -, -, hhand, hring, hlost, hcons⟩
  · left
    rw [alloc, heq]
  · right
    have hqueue : b.alloc.queue = b.queue := by
      show ((b.slots.alloc .producer).ring ()).toList.map b.list = _
      rw [hring]
      rfl
    have hcon : b.alloc.held .consumer = b.held .consumer := by
      show ((b.slots.alloc .producer).hand .consumer).map b.list = _
      rw [hhand, Function.update_of_ne (by decide)]
      rfl
    refine ⟨?_, hcon, hqueue, hcons, hlost.trans hb.lost, ?_, fun m hm => ?_⟩
    · rw [held_isSome]
      show ((b.slots.alloc .producer).hand .producer).isSome = true
      rw [hhand, Function.update_self]
      rfl
    · rw [hqueue]
      exact hb.fifo
    · exact hb.last m (hcon ▸ hm)

/-- What a thread holds is neither in the ring nor in the other's hands. -/
theorem Ok.not_mem_ring (hb : b.Ok n) {i : ℕ} (hi : b.slots.hand h = some i) :
    i ∉ (b.slots.ring ()).toList := by
  intro hmem
  have hhand : i ∈ b.slots.custody (.hand h) := by
    simp only [Slots.custody, hi, Option.toList_some, List.mem_singleton]
  exact absurd (Custody.place_unique hb.conserved.nodup hhand
    (q := .ring ()) hmem) (by simp)

theorem Ok.hand_ne (hb : b.Ok n) {h' : Side} (hne : h' ≠ h) {i : ℕ} (hi : b.slots.hand h = some i)
    (hi' : b.slots.hand h' = some i) : False := by
  have hmem : ∀ k, b.slots.hand k = some i → i ∈ b.slots.custody (.hand k) := by
    intro k hk
    simp only [Slots.custody, hk, Option.toList_some, List.mem_singleton]
  have hplace := Custody.place_unique hb.conserved.nodup (hmem h hi) (hmem h' hi')
  injection hplace with heq
  exact hne heq.symm

/-- Writing to the producer's message changes no other. -/
theorem Ok.edit_spec (hb : b.Ok n) (f : M → M) :
    (b.edit f).held .producer = (b.held .producer).map f ∧
      (b.edit f).held .consumer = b.held .consumer ∧ (b.edit f).queue = b.queue ∧
      (b.edit f).put = b.put ∧ (b.edit f).got = b.got ∧ (b.edit f).Ok n := by
  cases hi : b.slots.hand .producer with
  | none =>
    have hedit : b.edit f = b := by rw [edit, hi]
    have hheld : b.held .producer = none := held_eq_none.mpr hi
    rw [hedit]
    exact ⟨by rw [hheld]; rfl, rfl, rfl, rfl, rfl, hb⟩
  | some i =>
    have hedit : b.edit f = { b with list := Function.update b.list i (f (b.list i)) } := by
      rw [edit, hi]
    -- The slot in the hand of the producer is neither in the ring nor in the other hand, so that
    -- only its own message changes.
    have hqueue : (b.edit f).queue = b.queue := by
      rw [hedit]
      refine List.map_congr_left fun j hj => Function.update_of_ne ?_ _ _
      exact fun heq => hb.not_mem_ring hi (heq ▸ hj)
    have hcon : (b.edit f).held .consumer = b.held .consumer := by
      rw [hedit]
      show (b.slots.hand .consumer).map _ = (b.slots.hand .consumer).map b.list
      refine Option.map_congr fun j hj => Function.update_of_ne ?_ _ _
      exact fun heq => hb.hand_ne (by decide) hi (heq ▸ hj)
    refine ⟨?_, hcon, hqueue, by rw [hedit], by rw [hedit], ?_, ?_, ?_, fun m hm => ?_⟩
    · rw [hedit]
      simp only [held, hi, Option.map_some, Function.update_self]
    · rw [hedit]
      exact hb.conserved
    · rw [hedit]
      exact hb.lost
    · rw [hqueue, hedit]
      exact hb.fifo
    · rw [hcon] at hm
      rw [hedit]
      exact hb.last m hm

/-- `push` never refuses the producer's message: it is then the last one in the ring. -/
theorem Ok.push_spec (hb : b.Ok n) {m : M} (hm : b.held .producer = some m) :
    b.push.held .producer = none ∧ b.push.held .consumer = b.held .consumer ∧
      b.push.queue = b.queue ++ [m] ∧ b.push.put = b.put ++ [m] ∧ b.push.got = b.got ∧
      b.push.Ok n := by
  obtain ⟨i, hi, rfl⟩ := Option.map_eq_some_iff.mp hm
  obtain ⟨-, hhand, -, hcons, hcase⟩ := hb.conserved.push_spec (r := ()) hi
  -- There are no more slots than the ring has room for.
  have hlost : b.push.slots.lost = [] :=
    (hb.conserved.push_lost hi le_rfl).trans hb.lost
  have hqueue : b.push.queue = b.queue ++ [b.list i] := by
    rcases hcase with ⟨-, hring, -⟩ | ⟨-, -, hlost'⟩
    · show ((b.slots.push .producer ()).ring ()).toList.map b.list = _
      rw [hring, List.map_append, List.map_singleton]
      rfl
    · have heq : b.slots.lost = b.slots.lost ++ [i] :=
        (hb.conserved.push_lost hi le_rfl).symm.trans hlost'
      exact absurd heq (by simp)
  have hput : b.push.put = b.put ++ [b.list i] := by
    show b.put ++ (b.held .producer).toList = _
    rw [hm, Option.toList_some]
  have hcon : b.push.held .consumer = b.held .consumer := by
    show ((b.slots.push .producer ()).hand .consumer).map b.list = _
    rw [hhand, Function.update_of_ne (by decide)]
    rfl
  refine ⟨?_, hcon, hqueue, hput, rfl, hcons, hlost, ?_, fun m hm => ?_⟩
  · refine held_eq_none.mpr ?_
    show (b.slots.push .producer ()).hand .producer = none
    rw [hhand, Function.update_self]
  · rw [hput, hqueue, hb.fifo, List.append_assoc]
    rfl
  · exact hb.last m (hcon ▸ hm)

/-- `pop` finds nothing and changes nothing, or takes the first message of the ring. -/
theorem Ok.pop_spec (hb : b.Ok n) (hh : b.held .consumer = none) :
    (b.queue = [] ∧ b.pop = b) ∨ ∃ m, b.queue = m :: b.pop.queue ∧
      b.pop.held .consumer = some m ∧ b.pop.held .producer = b.held .producer ∧
      b.pop.put = b.put ∧ b.pop.got = b.got ++ [m] ∧ b.pop.Ok n := by
  have hnone := held_eq_none.mp hh
  rcases hb.conserved.pop_spec (r := ()) hnone with
    ⟨hnil, heq⟩ | ⟨i, l, hring, hring', hhand, -, -, hlost, hcons⟩
  · -- The ring is empty.
    left
    refine ⟨by rw [queue, hnil]; rfl, ?_⟩
    unfold pop
    dsimp only
    rw [heq, hnone, Option.map_none, Option.toList_none, List.append_nil]
  · -- The first slot of the ring goes to the hand, and the others stay as they are.
    right
    have hcon : (b.slots.pop .consumer ()).hand .consumer = some i := by
      rw [hhand, Function.update_self]
    have hqueue : b.queue = b.list i :: b.pop.queue := by
      show ((b.slots.ring ()).toList).map b.list =
        b.list i :: ((b.slots.pop .consumer ()).ring ()).toList.map b.list
      rw [hring, hring', List.map_cons]
    have hgot : b.pop.got = b.got ++ [b.list i] := by
      show b.got ++ (((b.slots.pop .consumer ()).hand .consumer).map b.list).toList = _
      rw [hcon, Option.map_some, Option.toList_some]
    have hheld : b.pop.held .consumer = some (b.list i) := by
      show ((b.slots.pop .consumer ()).hand .consumer).map b.list = _
      rw [hcon, Option.map_some]
    refine ⟨b.list i, hqueue, hheld, ?_, rfl, hgot, hcons, hlost.trans hb.lost, ?_, fun m hm => ?_⟩
    · show ((b.slots.pop .consumer ()).hand .producer).map b.list = _
      rw [hhand, Function.update_of_ne (by decide)]
      rfl
    · show b.put = b.pop.got ++ b.pop.queue
      rw [hgot, List.append_assoc, List.singleton_append, ← hqueue]
      exact hb.fifo
    · rw [hheld] at hm
      rw [hgot, List.getLast?_concat, hm]

/-- `free` never refuses a message. -/
theorem Ok.free_spec (hb : b.Ok n) (hh : (b.held h).isSome) :
    (b.free h).held h = none ∧ (∀ h', h' ≠ h → (b.free h).held h' = b.held h') ∧
      (b.free h).queue = b.queue ∧ (b.free h).Ok n := by
  rw [held_isSome] at hh
  obtain ⟨i, hi⟩ := Option.isSome_iff_exists.mp hh
  obtain ⟨-, hhand, hring, hlost, hcons⟩ := hb.conserved.free_spec hi
  have hqueue : (b.free h).queue = b.queue := by
    show ((b.slots.free h).ring ()).toList.map b.list = _
    rw [hring]
    rfl
  have hself : (b.free h).held h = none := by
    refine held_eq_none.mpr ?_
    show (b.slots.free h).hand h = none
    rw [hhand, Function.update_self]
  have hother : ∀ h', h' ≠ h → (b.free h).held h' = b.held h' := fun h' hne => by
    show ((b.slots.free h).hand h').map b.list = _
    rw [hhand, Function.update_of_ne hne]
    rfl
  refine ⟨hself, hother, hqueue, hcons, hlost.trans hb.lost, ?_, fun m hm => ?_⟩
  · rw [hqueue]
    exact hb.fifo
  · by_cases hne : .consumer = h
    · rw [hne, hself] at hm
      exact absurd hm (by simp)
    · exact hb.last m (hother _ hne ▸ hm)

end Mailbox

end Catse
