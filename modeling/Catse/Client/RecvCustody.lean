import Catse.Client.Moves

/-!
# Where the slots of `msg_recv_pool` are

`RecvCustody` is the invariant of the client path about the messages from clients: the slots are
conserved and none is lost, each thread's hand is as its program counter says, and the fronts that
`handle_io` has sampled are still the fronts of their rings. The rings are large enough for the
whole pool, so no `push` into them fails. `run_recvCustody` says that this holds in every state of
every run, and `recv_slots_conserved` draws the conclusions.
-/

namespace Catse

/-- Is a `msg_recv` slot in the logic thread's hand? -/
def LogicPc.recvHand : LogicPc → Bool
  | .handling => true
  | _ => false

/-- The sampled fronts, where there were any, are the fronts of their rings. -/
def LogicPc.Fronts (slots : Slots RecvRing Thread) : LogicPc → Prop
  | .sampledRecv cg => ∀ i, cg = some i → (slots.ring .qRecvIo).toList.head? = some i
  | .sampled cg gg => (∀ i, cg = some i → (slots.ring .qRecvIo).toList.head? = some i) ∧
      ∀ i, gg = some i → (slots.ring .qDisconnect).toList.head? = some i
  | _ => True

/-- Fronts stay fronts while the rings only grow. -/
theorem LogicPc.Fronts.mono {slots slots' : Slots RecvRing Thread} {pc : LogicPc}
    (h : pc.Fronts slots) (hgrow : ∀ r, (slots.ring r).toList <+: (slots'.ring r).toList) :
    pc.Fronts slots' := by
  have hhead : ∀ r i, (slots.ring r).toList.head? = some i →
      (slots'.ring r).toList.head? = some i := by
    intro r i hi
    obtain ⟨t, ht⟩ := hgrow r
    rw [← ht, List.head?_append, hi]
    rfl
  cases pc with
  | sampledRecv cg => exact fun i hi => hhead _ i (h i hi)
  | sampled cg gg => exact ⟨fun i hi => hhead _ i (h.1 i hi), fun i hi => hhead _ i (h.2 i hi)⟩
  | _ => trivial

namespace ClientState

/-- The slots of `msg_recv_pool`, and the hands. -/
structure RecvCustody (cfg : ClientConfig) (s : ClientState) : Prop where
  conserved : s.recv.slots.Conserved cfg.recvCap fun _ => cfg.recvCap + 1
  lost : s.recv.slots.lost = []
  io_hand : (s.recv.slots.hand .io).isSome = s.ioPc.recvHand
  logic_hand : (s.recv.slots.hand .logic).isSome = s.logicPc.recvHand
  fronts : s.logicPc.Fronts s.recv.slots

variable {cfg : ClientConfig} {s s' : ClientState} {a : ClientAction}

/-- At the start every slot is free. -/
theorem init_recvCustody : (init cfg).RecvCustody cfg where
  conserved := Slots.init_conserved fun _ => Nat.succ_pos _
  lost := rfl
  io_hand := rfl
  logic_hand := rfl
  fronts := trivial

namespace RecvCustody

/-! ## What the hands hold -/

theorem io_hand_none (h : s.RecvCustody cfg) (hpc : s.ioPc.recvHand = false) :
    s.recv.slots.hand .io = none := by
  have hsome : (s.recv.slots.hand .io).isSome = false := h.io_hand.trans hpc
  simpa using hsome

theorem io_hand_some (h : s.RecvCustody cfg) (hpc : s.ioPc.recvHand = true) :
    ∃ i, s.recv.slots.hand .io = some i :=
  Option.isSome_iff_exists.mp (h.io_hand.trans hpc)

theorem logic_hand_none (h : s.RecvCustody cfg) (hpc : s.logicPc.recvHand = false) :
    s.recv.slots.hand .logic = none := by
  have hsome : (s.recv.slots.hand .logic).isSome = false := h.logic_hand.trans hpc
  simpa using hsome

theorem logic_hand_some (h : s.RecvCustody cfg) (hpc : s.logicPc.recvHand = true) :
    ∃ i, s.recv.slots.hand .logic = some i :=
  Option.isSome_iff_exists.mp (h.logic_hand.trans hpc)

/-! ## What the operations do -/

/-- The io thread's `alloc` finds no free slot and changes nothing, or takes one and leaves the
rings alone. -/
theorem alloc_spec (h : s.RecvCustody cfg) (hpc : s.ioPc.recvHand = false) :
    (s.recv.slots.pool.freeSlots = [] ∧ s.recv.alloc = s.recv) ∨
      ∃ i, i ∈ s.recv.slots.pool.freeSlots ∧ s.recv.alloc.slots.hand .io = some i ∧
        s.recv.alloc.slots.hand .logic = s.recv.slots.hand .logic ∧
        s.recv.alloc.slots.ring = s.recv.slots.ring ∧ s.recv.alloc.slots.lost = [] ∧
        s.recv.alloc.slots.Conserved cfg.recvCap fun _ => cfg.recvCap + 1 := by
  rcases h.conserved.alloc_spec (h.io_hand_none hpc) with
    ⟨hnil, heq⟩ | ⟨i, l, hfree, -, hhand, hring, hlost, hcons⟩
  · left
    refine ⟨hnil, ?_⟩
    unfold RecvChannel.alloc
    rw [heq]
  · right
    refine ⟨i, by simp [hfree], ?_, ?_, hring, hlost.trans h.lost, hcons⟩
    · show (s.recv.slots.alloc .io).hand .io = some i
      rw [hhand, Function.update_self]
    · show (s.recv.slots.alloc .io).hand .logic = s.recv.slots.hand .logic
      rw [hhand, Function.update_of_ne (by decide)]

/-- The io thread's `push` is never refused. -/
theorem push_spec (h : s.RecvCustody cfg) (hpc : s.ioPc.recvHand = true) (r : RecvRing) :
    ∃ i, s.recv.slots.hand .io = some i ∧
      ((s.recv.slots.ring r).push (s.recv.slots.hand .io)).1 = true ∧
      (s.recv.push r).pushed = s.recv.pushed ++ [(r, s.recv.event i)] ∧
      (s.recv.slots.push .io r).Conserved cfg.recvCap (fun _ => cfg.recvCap + 1) ∧
      (s.recv.slots.push .io r).lost = [] ∧
      (s.recv.slots.push .io r).hand = Function.update s.recv.slots.hand .io none ∧
      ((s.recv.slots.push .io r).ring r).toList = (s.recv.slots.ring r).toList ++ [i] ∧
      ∀ r', r' ≠ r → (s.recv.slots.push .io r).ring r' = s.recv.slots.ring r' := by
  obtain ⟨i, hi⟩ := h.io_hand_some hpc
  obtain ⟨-, hhand, hframe, hcons, hcase⟩ := h.conserved.push_spec (r := r) hi
  have hlost : (s.recv.slots.push .io r).lost = s.recv.slots.lost :=
    h.conserved.push_lost hi (Nat.le_refl _)
  rcases hcase with ⟨hroom, hlist, -⟩ | ⟨hfull, -, hl⟩
  · have hacc : ((s.recv.slots.ring r).push (s.recv.slots.hand .io)).1 = true := by
      obtain ⟨m', hpush, -⟩ := (h.conserved.holds r).push_room (by
        rw [h.conserved.ring_cap r]
        exact hroom) i
      rw [hi, hpush]
    refine ⟨i, hi, hacc, ?_, hcons, hlost.trans h.lost, hhand, hlist, hframe⟩
    show (if ((s.recv.slots.ring r).push (s.recv.slots.hand .io)).1 then _ else _) = _
    rw [hacc, if_pos rfl, hi]
    rfl
  · -- A refused slot would be lost.
    rw [hl] at hlost
    exact absurd hlost (by simp)

/-- The logic thread's `pop` of a sampled front. -/
theorem pop_spec (h : s.RecvCustody cfg) (hpc : s.logicPc.recvHand = false) {r : RecvRing} {i : ℕ}
    (hi : (s.recv.slots.ring r).toList.head? = some i) :
    ∃ l, (s.recv.slots.ring r).toList = i :: l ∧
      (s.recv.pop r).handled = s.recv.handled ++ [(r, s.recv.event i)] ∧
      (s.recv.slots.pop .logic r).Conserved cfg.recvCap (fun _ => cfg.recvCap + 1) ∧
      (s.recv.slots.pop .logic r).lost = [] ∧
      (s.recv.slots.pop .logic r).hand = Function.update s.recv.slots.hand .logic (some i) ∧
      ((s.recv.slots.pop .logic r).ring r).toList = l ∧
      ∀ r', r' ≠ r → (s.recv.slots.pop .logic r).ring r' = s.recv.slots.ring r' := by
  rcases h.conserved.pop_spec (r := r) (h.logic_hand_none hpc) with
    ⟨hnil, -⟩ | ⟨j, l, hlist, hrest, hhand, -, hframe, hlost, hcons⟩
  · rw [hnil] at hi
    exact absurd hi (by simp)
  · obtain rfl : j = i := by
      rw [hlist] at hi
      exact Option.some.inj hi
    refine ⟨l, hlist, ?_, hcons, hlost.trans h.lost, hhand, hrest, hframe⟩
    have hr := h.conserved.holds r
    rw [hlist] at hr
    obtain ⟨m', hpop, -⟩ := hr.pop_cons
    show s.recv.handled ++ ((s.recv.slots.ring r).pop.1.toList.map fun i => (r, s.recv.event i)) = _
    rw [hpop]
    rfl

/-- It leaves the io thread's slot alone. -/
theorem pop_hand_io (h : s.RecvCustody cfg) (hpc : s.logicPc.recvHand = false)
    {r : RecvRing} {i : ℕ} (hi : (s.recv.slots.ring r).toList.head? = some i) :
    (s.recv.slots.pop .logic r).hand .io = s.recv.slots.hand .io := by
  obtain ⟨-, -, -, -, -, hhand, -⟩ := h.pop_spec hpc hi
  rw [hhand, Function.update_of_ne (by decide)]

/-- So does its `free`. -/
theorem free_hand_io (h : s.RecvCustody cfg) (hpc : s.logicPc.recvHand = true) :
    (s.recv.slots.free .logic).hand .io = s.recv.slots.hand .io := by
  obtain ⟨i, hi⟩ := h.logic_hand_some hpc
  obtain ⟨-, hhand, -⟩ := h.conserved.free_spec hi
  rw [hhand, Function.update_of_ne (by decide)]

/-! ## What the steps come to -/

/-- `readAlloc`: no slot is free, the length is bad, or the packet is filled in. -/
theorem readAlloc_spec (h : s.RecvCustody cfg) {be : ℕ} {cur_time fd id len : ℤ}
    (hpc : s.ioPc = .readAlloc be cur_time fd id len) :
    (s.recv.slots.pool.freeSlots = [] ∧
        s.readAlloc be cur_time fd id len = { s with ioPc := .idle }) ∨
      ∃ i, i ∈ s.recv.slots.pool.freeSlots ∧ s.recv.alloc.slots.hand .io = some i ∧
        (s.readAlloc be cur_time fd id len =
            { s with recv := s.recv.alloc, ioPc := .readFree } ∨
          ∃ m : MsgRecv, m.fd = toShort fd ∧ s.readAlloc be cur_time fd id len =
            { s with recv := s.recv.alloc.fill i be m, ioPc := .readPush be cur_time }) := by
  have hhand : s.recv.slots.hand .io = none := h.io_hand_none (by rw [hpc]; rfl)
  rcases h.alloc_spec (by rw [hpc]; rfl) with ⟨hnil, heq⟩ | ⟨i, hfree, hi, -⟩
  · left
    refine ⟨hnil, ?_⟩
    unfold readAlloc
    rw [heq]
    simp only [hhand]
  · right
    refine ⟨i, hfree, hi, ?_⟩
    unfold readAlloc
    simp only [hi]
    split_ifs
    · exact .inl rfl
    · exact .inr ⟨_, rfl, rfl⟩

/-- `closeAlloc`: no slot is free, or the report is filled in. -/
theorem closeAlloc_spec (h : s.RecvCustody cfg) {be : ℕ} {fd reason real_reason : ℤ}
    (hpc : s.ioPc = .closeAlloc be fd reason real_reason) :
    (s.recv.slots.pool.freeSlots = [] ∧
        s.closeAlloc cfg be fd reason real_reason = { s with ioPc := .idle }) ∨
      ∃ i, i ∈ s.recv.slots.pool.freeSlots ∧ s.recv.alloc.slots.hand .io = some i ∧
        s.closeAlloc cfg be fd reason real_reason =
          { s with
            recv := s.recv.alloc.fill i be
              (closeMsg cfg (s.recv.alloc.list i) fd reason real_reason)
            ioPc := .closePush } := by
  have hhand : s.recv.slots.hand .io = none := h.io_hand_none (by rw [hpc]; rfl)
  rcases h.alloc_spec (by rw [hpc]; rfl) with ⟨hnil, heq⟩ | ⟨i, hfree, hi, -⟩
  · left
    refine ⟨hnil, ?_⟩
    unfold closeAlloc
    rw [heq]
    simp only [hhand]
  · right
    refine ⟨i, hfree, hi, ?_⟩
    unfold closeAlloc
    simp only [hi]

/-- `take`: there is nothing to handle, the steps are equal, or a sampled front is popped whose step
is smaller than that of the other front, where there was one. -/
theorem take_spec (h : s.RecvCustody cfg) {cg gg : Option ℕ} (hpc : s.logicPc = .sampled cg gg) :
    (cg = none ∧ gg = none ∧ s.take cg gg = { s with logicPc := .idle }) ∨
      (∃ c g, cg = some c ∧ gg = some g ∧ (s.recv.list c).step = (s.recv.list g).step ∧
        s.take cg gg = { s with logicPc := .fault }) ∨
      ∃ r i, (s.recv.slots.ring r).toList.head? = some i ∧
        ((r = .qRecvIo ∧ cg = some i ∧
            ∀ g, gg = some g → (s.recv.list i).step < (s.recv.list g).step) ∨
          (r = .qDisconnect ∧ gg = some i ∧
            ∀ c, cg = some c → (s.recv.list i).step < (s.recv.list c).step)) ∧
        s.take cg gg = { s with recv := s.recv.pop r, logicPc := .handling } := by
  have hf := h.fronts
  rw [hpc] at hf
  obtain ⟨hc, hg⟩ := hf
  cases cg with
  | none =>
    cases gg with
    | none => exact .inl ⟨rfl, rfl, rfl⟩
    | some g =>
      exact .inr (.inr ⟨.qDisconnect, g, hg g rfl, .inr ⟨rfl, rfl, by simp⟩, rfl⟩)
  | some c =>
    cases gg with
    | none => exact .inr (.inr ⟨.qRecvIo, c, hc c rfl, .inl ⟨rfl, rfl, by simp⟩, rfl⟩)
    | some g =>
      -- Both rings have a front, and the one with the smaller step is taken.
      unfold take
      simp only
      split_ifs with hlt hgt
      · refine .inr (.inr ⟨.qRecvIo, c, hc c rfl, .inl ⟨rfl, rfl, ?_⟩, rfl⟩)
        intro g' hg'
        rwa [← Option.some.inj hg']
      · refine .inr (.inr ⟨.qDisconnect, g, hg g rfl, .inr ⟨rfl, rfl, ?_⟩, rfl⟩)
        intro c' hc'
        rwa [← Option.some.inj hc']
      · -- Neither is smaller, which is the fault.
        exact .inr (.inl ⟨c, g, rfl, rfl, by omega, rfl⟩)

/-! ## Every step keeps the custody -/

/-- A step that leaves the slots alone. -/
theorem of_same (h : s.RecvCustody cfg) (hrecv : s'.recv = s.recv) (hpc : s'.logicPc = s.logicPc)
    (hio : s'.ioPc.recvHand = s.ioPc.recvHand) : s'.RecvCustody cfg where
  conserved := hrecv ▸ h.conserved
  lost := hrecv ▸ h.lost
  io_hand := by rw [hrecv, hio]; exact h.io_hand
  logic_hand := by rw [hrecv, hpc]; exact h.logic_hand
  fronts := by rw [hrecv, hpc]; exact h.fronts

/-- A step of the io thread, which never takes anything out of a ring. -/
theorem of_io (h : s.RecvCustody cfg) (hpc : s'.logicPc = s.logicPc)
    (hcons : s'.recv.slots.Conserved cfg.recvCap fun _ => cfg.recvCap + 1)
    (hlost : s'.recv.slots.lost = [])
    (hhand : (s'.recv.slots.hand .io).isSome = s'.ioPc.recvHand)
    (hlogic : s'.recv.slots.hand .logic = s.recv.slots.hand .logic)
    (hgrow : ∀ r, (s.recv.slots.ring r).toList <+: (s'.recv.slots.ring r).toList) :
    s'.RecvCustody cfg where
  conserved := hcons
  lost := hlost
  io_hand := hhand
  logic_hand := by rw [hlogic, hpc]; exact h.logic_hand
  fronts := by rw [hpc]; exact h.fronts.mono hgrow

/-- A step of the logic thread. -/
theorem of_logic (h : s.RecvCustody cfg) (hpc : s'.ioPc = s.ioPc)
    (hcons : s'.recv.slots.Conserved cfg.recvCap fun _ => cfg.recvCap + 1)
    (hlost : s'.recv.slots.lost = [])
    (hio : s'.recv.slots.hand .io = s.recv.slots.hand .io)
    (hlogic : (s'.recv.slots.hand .logic).isSome = s'.logicPc.recvHand)
    (hfronts : s'.logicPc.Fronts s'.recv.slots) : s'.RecvCustody cfg where
  conserved := hcons
  lost := hlost
  io_hand := by rw [hio, hpc]; exact h.io_hand
  logic_hand := hlogic
  fronts := hfronts

/-- A slot taken with `alloc`, whatever is then written to it. -/
theorem of_alloc (h : s.RecvCustody cfg) (hpc : s.ioPc.recvHand = false) {i : ℕ}
    (hi : s.recv.alloc.slots.hand .io = some i) {c : RecvChannel}
    (hslots : c.slots = s.recv.alloc.slots) {pc' : IoPc} (hpc' : pc'.recvHand = true) :
    { s with recv := c, ioPc := pc' }.RecvCustody cfg := by
  rcases h.alloc_spec hpc with ⟨-, heq⟩ | ⟨j, -, -, hlogic, hring, hlost, hcons⟩
  · rw [heq, h.io_hand_none hpc] at hi
    exact absurd hi (by simp)
  · refine h.of_io rfl (hslots ▸ hcons) ((congrArg Slots.lost hslots).trans hlost) ?_ ?_ ?_
    · show (c.slots.hand .io).isSome = pc'.recvHand
      rw [hslots, hi, hpc']
      rfl
    · show c.slots.hand .logic = _
      rw [hslots, hlogic]
    · intro r
      show _ <+: (c.slots.ring r).toList
      rw [hslots, hring]

/-- A slot pushed into a ring. -/
theorem of_push (h : s.RecvCustody cfg) (hpc : s.ioPc.recvHand = true) (r : RecvRing) {pc' : IoPc}
    (hpc' : pc'.recvHand = false) :
    { s with recv := s.recv.push r, ioPc := pc' }.RecvCustody cfg := by
  obtain ⟨i, -, -, -, hcons, hlost, hhand, hlist, hframe⟩ := h.push_spec hpc r
  refine h.of_io rfl hcons hlost ?_ ?_ fun r' => ?_
  · show ((s.recv.slots.push .io r).hand .io).isSome = pc'.recvHand
    rw [hhand, Function.update_self, hpc']
    rfl
  · show (s.recv.slots.push .io r).hand .logic = _
    rw [hhand, Function.update_of_ne (by decide)]
  · show _ <+: ((s.recv.slots.push .io r).ring r').toList
    by_cases hr : r' = r
    · subst hr
      exact hlist ▸ List.prefix_append _ _
    · rw [hframe r' hr]

/-- Every step keeps the custody of the slots. -/
theorem step (h : s.RecvCustody cfg) (hstep : step cfg s a = some s') : s'.RecvCustody cfg := by
  cases move_of_step hstep with
  | accept => exact h.of_same rfl rfl rfl
  | quiet _ _ calm calm' => exact h.of_same rfl rfl (calm'.recv.trans calm.recv.symm)
  | close _ _ calm => exact h.of_same rfl rfl calm.recv.symm
  | readAlloc pc =>
    have hpc : s.ioPc.recvHand = false := by rw [pc]; rfl
    rcases h.readAlloc_spec pc with ⟨-, heq⟩ | ⟨i, -, hi, heq | ⟨m, -, heq⟩⟩ <;> rw [heq]
    · exact h.of_same rfl rfl hpc.symm
    · exact h.of_alloc hpc hi (by rfl) rfl
    · exact h.of_alloc hpc hi (by rfl) rfl
  | readFree pc =>
    obtain ⟨i, hi⟩ := h.io_hand_some (by rw [pc]; rfl)
    obtain ⟨-, hhand, hring, hlost, hcons⟩ := h.conserved.free_spec hi
    refine h.of_io rfl hcons (hlost.trans h.lost) ?_ ?_ fun r => ?_
    · show ((s.recv.slots.free .io).hand .io).isSome = _
      rw [hhand, Function.update_self]
      rfl
    · show (s.recv.slots.free .io).hand .logic = _
      rw [hhand, Function.update_of_ne (by decide)]
    · show _ <+: ((s.recv.slots.free .io).ring r).toList
      rw [hring]
  | readPush pc => exact h.of_push (by rw [pc]; rfl) .qRecvIo rfl
  | closeAlloc pc =>
    have hpc : s.ioPc.recvHand = false := by rw [pc]; rfl
    rcases h.closeAlloc_spec pc with ⟨-, heq⟩ | ⟨i, -, hi, heq⟩ <;> rw [heq]
    · exact h.of_same rfl rfl hpc.symm
    · exact h.of_alloc hpc hi (by rfl) rfl
  | closePush pc => exact h.of_push (by rw [pc]; rfl) .qDisconnect rfl
  | timePop pc =>
    obtain ⟨slots, pc', heq, rfl | rfl⟩ := s.timePop_eq <;> rw [heq]
    · exact h.of_same rfl rfl (by rw [pc]; rfl)
    · exact h.of_same rfl rfl (by rw [pc]; rfl)
  | timeSend pc =>
    obtain ⟨io, pc', heq, -, ⟨rfl, -⟩ | ⟨last, rfl⟩⟩ := s.timeSend_eq <;> rw [heq]
    · exact h.of_same rfl rfl (by rw [pc]; rfl)
    · exact h.of_same rfl rfl (by rw [pc]; rfl)
  | @timeFree _ last pc =>
    obtain ⟨slots, pc', heq, rfl | rfl⟩ := s.timeFree_eq last <;> rw [heq]
    · exact h.of_same rfl rfl (by rw [pc]; rfl)
    · exact h.of_same rfl rfl (by rw [pc]; rfl)
  | sampleRecv pc =>
    refine h.of_logic rfl h.conserved h.lost rfl ?_ fun i hi => ?_
    · exact h.logic_hand.trans (by rw [pc]; rfl)
    · -- What `getfront` gives is the front of the ring.
      exact (h.conserved.holds .qRecvIo).getfront_eq.symm.trans hi
  | sampleDisconnect pc =>
    have hf := h.fronts
    rw [pc] at hf
    refine h.of_logic rfl h.conserved h.lost rfl ?_ ⟨hf, fun i hi => ?_⟩
    · exact h.logic_hand.trans (by rw [pc]; rfl)
    · exact (h.conserved.holds .qDisconnect).getfront_eq.symm.trans hi
  | take pc =>
    have hpc : s.logicPc.recvHand = false := by rw [pc]; rfl
    have hnone : (s.recv.slots.hand .logic).isSome = false := h.logic_hand.trans hpc
    rcases h.take_spec pc with
      ⟨-, -, heq⟩ | ⟨c, g, -, -, -, heq⟩ | ⟨r, i, hi, -, heq⟩ <;> rw [heq]
    · exact h.of_logic rfl h.conserved h.lost rfl hnone trivial
    · exact h.of_logic rfl h.conserved h.lost rfl hnone trivial
    · obtain ⟨l, -, -, hcons, hlost, hhand, -⟩ := h.pop_spec hpc hi
      refine h.of_logic rfl hcons hlost (h.pop_hand_io hpc hi) ?_ trivial
      show ((s.recv.slots.pop .logic r).hand .logic).isSome = true
      rw [hhand, Function.update_self]
      rfl
  | ret pc =>
    have hpc : s.logicPc.recvHand = true := by rw [pc]; rfl
    obtain ⟨i, hi⟩ := h.logic_hand_some hpc
    obtain ⟨-, hhand, -, hlost, hcons⟩ := h.conserved.free_spec hi
    refine h.of_logic rfl hcons (hlost.trans h.lost) (h.free_hand_io hpc) ?_ trivial
    show ((s.recv.slots.free .logic).hand .logic).isSome = false
    rw [hhand, Function.update_self]
    rfl
  | sendAlloc =>
    obtain ⟨send, pc', heq⟩ := s.sendAlloc_eq _ _ _
    rw [heq]
    exact h.of_same rfl rfl rfl
  | sendPush => exact h.of_same rfl rfl rfl
  | sendFree => exact h.of_same rfl rfl rfl
  | setLimit => exact h.of_same rfl rfl rfl

end RecvCustody

/-- The slots are in custody in every state of every run. -/
theorem run_recvCustody {ok : ClientState → ClientAction → Prop} (run : Run cfg ok s) :
    s.RecvCustody cfg :=
  run.invariant init_recvCustody fun _ _ _ _ h _ hstep => h.step hstep

/-- In every state of every run each slot of `msg_recv_pool` is in exactly one place, and there only
once: on the free list, in `q_recv_io`, in `q_disconnect`, or in the hand of one thread, which is
then in the operation that its program counter names. No `push` is refused, no slot that is freed is
free already, and with the rings and the hands empty every slot is free. -/
theorem recv_slots_conserved (run : Run cfg anyStep s) :
    (∀ i < cfg.recvCap, ∃! p, i ∈ s.recv.slots.custody p) ∧
      (∀ p, (s.recv.slots.custody p).Nodup) ∧ s.recv.slots.custody .lost = [] ∧
      ((s.recv.slots.hand .io).isSome = s.ioPc.recvHand ∧
        (s.recv.slots.hand .logic).isSome = s.logicPc.recvHand) ∧
      (s.ioPc.recvHand = true →
        ∀ r, ((s.recv.slots.ring r).push (s.recv.slots.hand .io)).1 = true) ∧
      (∀ t i, s.recv.slots.hand t = some i → i ∉ s.recv.slots.pool.freeSlots) ∧
      ((∀ r, (s.recv.slots.ring r).toList = []) → s.ioPc.recvHand = false →
        s.logicPc.recvHand = false →
        s.recv.slots.pool.freeSlots.Perm (List.range cfg.recvCap)) := by
  have h := run_recvCustody run
  have hnodup := h.conserved.nodup
  refine ⟨fun i hi => ?_, Custody.nodup_place hnodup, h.lost, ⟨h.io_hand, h.logic_hand⟩,
    fun hpc r => ?_, fun t i ht hfree => ?_, fun hrings hio hlogic => ?_⟩
  · exact h.conserved.existsUnique_place hi
  · obtain ⟨i, -, hacc, -⟩ := h.push_spec hpc r
    exact hacc
  · have hhand : i ∈ s.recv.slots.custody (.hand t) := by simp [Slots.custody, ht]
    have hne := Custody.place_unique hnodup hhand (q := .free) hfree
    exact absurd hne (by simp)
  · -- All the other places are empty, so the free list has all the slots.
    have hempty : ∀ p, p ≠ .free → s.recv.slots.custody p = [] := by
      rintro (_ | r | t | _) hp
      · exact absurd rfl hp
      · exact hrings r
      · cases t with
        | io => simp [Slots.custody, h.io_hand_none hio]
        | logic => simp [Slots.custody, h.logic_hand_none hlogic]
      · exact h.lost
    have htokens : Custody.tokens s.recv.slots.custody =
        (s.recv.slots.pool.freeSlots : Multiset ℕ) := by
      unfold Custody.tokens
      exact Finset.sum_eq_single Place.free (fun p _ hp => by rw [hempty p hp]; rfl)
        fun hn => absurd (Finset.mem_univ _) hn
    rw [h.conserved.tokens_eq] at htokens
    exact Multiset.coe_eq_coe.mp (htokens.symm.trans (Multiset.coe_range _).symm)

/-- A run in which the io thread has just filled a slot with a packet. -/
theorem recv_slots_conserved_filled :
    ∃ s, Run (smallConfig 4) anyStep s ∧ s.recv.slots.hand .io = some 3 ∧
      (∀ i < 4, ∃! p, i ∈ s.recv.slots.custody p) ∧ s.recv.slots.custody .lost = [] := by
  have hexec : (exec (step (smallConfig 4)) (init (smallConfig 4))
      (greeted ++ [.read 0 emptyPacket, .io 1, .io 1])).map
        (fun s => s.recv.slots.hand .io) = some (some 3) := by decide +kernel
  obtain ⟨s, run, hhand⟩ := exists_run_of_exec hexec
  obtain ⟨hplace, -, hlost, -⟩ := recv_slots_conserved run
  exact ⟨s, run, hhand, hplace, hlost⟩

end ClientState

end Catse
