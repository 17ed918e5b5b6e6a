import Catse.Client.Moves

/-!
# Where the slots of `msg_send_pool` are

`SendCustody` is the invariant of the client path about the messages to clients: the slots are
conserved, and each thread's hand is as its program counter says. `q_send` has as many cells as the
pool has slots, and one cell always stays empty, so `q_send.push` fails when all the other slots are
in the ring already, and the message is lost. `SendRoom` is the condition that this does not happen.
-/

namespace Catse

namespace ClientState

variable {cfg : ClientConfig} {s s' : ClientState} {a : ClientAction}

/-- The slots of `msg_send_pool`, and the hands. -/
structure SendCustody (cfg : ClientConfig) (s : ClientState) : Prop where
  conserved : s.send.slots.Conserved cfg.sendCap fun _ => cfg.sendCap
  io_hand : (s.send.slots.hand .io).isSome = s.ioPc.sendHand
  logic_hand : (s.send.slots.hand .logic).isSome = decide (s.sendPc ≠ .idle)

/-- At the start every slot is free. -/
theorem init_sendCustody (hcap : 0 < cfg.sendCap) : (init cfg).SendCustody cfg where
  conserved := Slots.init_conserved fun _ => hcap
  io_hand := rfl
  logic_hand := rfl

namespace SendCustody

theorem io_hand_some (h : s.SendCustody cfg) (hpc : s.ioPc.sendHand = true) :
    ∃ i, s.send.slots.hand .io = some i :=
  Option.isSome_iff_exists.mp (h.io_hand.trans hpc)

theorem logic_hand_some (h : s.SendCustody cfg) (hpc : s.sendPc ≠ .idle) :
    ∃ i, s.send.slots.hand .logic = some i :=
  Option.isSome_iff_exists.mp (h.logic_hand.trans (decide_eq_true hpc))

/-- `push` succeeds exactly when the ring holds fewer than all the other slots. -/
theorem push_iff (h : s.SendCustody cfg) (hpc : s.sendPc = .push) :
    ((s.send.slots.ring .qSend).push (s.send.slots.hand .logic)).1 = true ↔
      (s.send.slots.ring .qSend).toList.length + 1 < cfg.sendCap := by
  obtain ⟨i, hi⟩ := h.logic_hand_some (by rw [hpc]; decide)
  exact h.conserved.push_accepted_iff hi

/-- A step that leaves the slots alone. -/
theorem of_same (h : s.SendCustody cfg) (hslots : s'.send.slots = s.send.slots)
    (hpc : s'.ioPc.sendHand = s.ioPc.sendHand) (hspc : s'.sendPc = s.sendPc) :
    s'.SendCustody cfg where
  conserved := hslots ▸ h.conserved
  io_hand := by rw [hslots, hpc]; exact h.io_hand
  logic_hand := by rw [hslots, hspc]; exact h.logic_hand

/-- An operation of the io thread, which leaves its hand as its program counter says. -/
theorem of_io (h : s.SendCustody cfg) {o : Option ℕ}
    (hcons : s'.send.slots.Conserved cfg.sendCap fun _ => cfg.sendCap)
    (hhand : s'.send.slots.hand = Function.update s.send.slots.hand .io o)
    (hpc : o.isSome = s'.ioPc.sendHand) (hspc : s'.sendPc = s.sendPc) : s'.SendCustody cfg where
  conserved := hcons
  io_hand := by rw [hhand, Function.update_self, hpc]
  logic_hand := by rw [hhand, Function.update_of_ne (by decide), hspc]; exact h.logic_hand

/-- An operation of the logic thread, likewise. -/
theorem of_logic (h : s.SendCustody cfg) {o : Option ℕ}
    (hcons : s'.send.slots.Conserved cfg.sendCap fun _ => cfg.sendCap)
    (hhand : s'.send.slots.hand = Function.update s.send.slots.hand .logic o)
    (hspc : o.isSome = decide (s'.sendPc ≠ .idle)) (hpc : s'.ioPc = s.ioPc) :
    s'.SendCustody cfg where
  conserved := hcons
  io_hand := by rw [hhand, Function.update_of_ne (by decide), hpc]; exact h.io_hand
  logic_hand := by rw [hhand, Function.update_self, hspc]

/-- `q_send.pop()`: the ring is empty and nothing changes, or its oldest slot comes into the
hand. -/
theorem timePop_spec (h : s.SendCustody cfg) (hpc : s.ioPc = .timePop) :
    s.timePop = { s with ioPc := .idle } ∨
      ∃ i l, (s.send.slots.ring .qSend).toList = i :: l ∧
        s.timePop = { s with
          send := { s.send with slots := s.send.slots.pop .io .qSend }
          ioPc := .timeSend } ∧
        (s.send.slots.pop .io .qSend).hand = Function.update s.send.slots.hand .io (some i) ∧
        (s.send.slots.pop .io .qSend).lost = s.send.slots.lost ∧
        (s.send.slots.pop .io .qSend).Conserved cfg.sendCap fun _ => cfg.sendCap := by
  have hnone : s.send.slots.hand .io = none := by
    have hsome : (s.send.slots.hand .io).isSome = false := h.io_hand.trans (by rw [hpc]; rfl)
    simpa using hsome
  rcases h.conserved.pop_spec (r := .qSend) hnone with
    ⟨-, heq⟩ | ⟨i, l, hlist, -, hhand, -, -, hlost, hcons⟩
  · left
    unfold timePop
    dsimp only
    rw [heq, hnone]
    rfl
  · right
    refine ⟨i, l, hlist, ?_, hhand, hlost, hcons⟩
    unfold timePop
    simp only [hhand, Function.update_self]
    rfl

/-- `sendAlloc`: no slot is free, or one comes into the hand, filled or to be freed again. -/
theorem sendAlloc_spec (h : s.SendCustody cfg) (hpc : s.sendPc = .idle) (k : SendKind)
    (proto_id : ℤ) (written : Option (List UInt8 × ℤ)) :
    s.sendAlloc k proto_id written = s ∨
      ∃ i list addressed pc, pc ≠ .idle ∧
        s.sendAlloc k proto_id written =
          { s with send := ⟨s.send.slots.alloc .logic, list, addressed⟩, sendPc := pc } ∧
        (s.send.slots.alloc .logic).hand = Function.update s.send.slots.hand .logic (some i) ∧
        (s.send.slots.alloc .logic).lost = s.send.slots.lost ∧
        (s.send.slots.alloc .logic).Conserved cfg.sendCap fun _ => cfg.sendCap := by
  have hnone : s.send.slots.hand .logic = none := by
    have hsome : (s.send.slots.hand .logic).isSome = false :=
      h.logic_hand.trans (by rw [hpc]; rfl)
    simpa using hsome
  rcases h.conserved.alloc_spec hnone with ⟨-, heq⟩ | ⟨i, l, -, -, hhand, -, hlost, hcons⟩
  · left
    unfold sendAlloc
    rw [heq]
    simp only [hnone]
  · right
    have hi : (s.send.slots.alloc .logic).hand .logic = some i := by
      rw [hhand, Function.update_self]
    unfold sendAlloc
    simp only [hi]
    split
    · exact ⟨i, _, _, .free, by decide, rfl, hhand, hlost, hcons⟩
    · exact ⟨i, _, _, .push, by decide, rfl, hhand, hlost, hcons⟩

/-- What a step does to the slots: it keeps the custody, and only a refused `push` loses a slot. -/
theorem step_spec (h : s.SendCustody cfg) (hstep : step cfg s a = some s') :
    s'.SendCustody cfg ∧
      (s'.send.slots.lost = s.send.slots.lost ∨
        ∃ i, s'.send.slots.lost = s.send.slots.lost ++ [i] ∧ a = .logic ∧ s.sendPc = .push ∧
          (s.send.slots.ring .qSend).toList.length + 1 = cfg.sendCap) := by
  -- Only the steps that have a slot in hand, or take one, change the slots.
  cases move_of_step hstep with
  | accept => exact ⟨h.of_same rfl rfl rfl, .inl rfl⟩
  | quiet _ _ calm calm' => exact ⟨h.of_same rfl (calm'.send.trans calm.send.symm) rfl, .inl rfl⟩
  | close _ _ calm => exact ⟨h.of_same rfl calm.send.symm rfl, .inl rfl⟩
  | @readAlloc _ be cur_time fd id len pc =>
    obtain ⟨recv, pc', heq, hpc'⟩ := s.readAlloc_eq be cur_time fd id len
    rw [heq]
    refine ⟨h.of_same rfl ?_ rfl, .inl rfl⟩
    rw [pc]
    rcases hpc' with rfl | rfl | rfl <;> rfl
  | readFree pc => exact ⟨h.of_same rfl (by rw [pc]; rfl) rfl, .inl rfl⟩
  | readPush pc => exact ⟨h.of_same rfl (by rw [pc]; rfl) rfl, .inl rfl⟩
  | @closeAlloc _ be fd reason real_reason pc =>
    obtain ⟨recv, pc', heq, hpc'⟩ := s.closeAlloc_eq cfg be fd reason real_reason
    rw [heq]
    refine ⟨h.of_same rfl ?_ rfl, .inl rfl⟩
    rw [pc]
    rcases hpc' with rfl | rfl <;> rfl
  | closePush pc => exact ⟨h.of_same rfl (by rw [pc]; rfl) rfl, .inl rfl⟩
  | timePop pc =>
    rcases h.timePop_spec pc with heq | ⟨i, l, -, heq, hhand, hlost, hcons⟩ <;> rw [heq]
    · exact ⟨h.of_same rfl (by rw [pc]; rfl) rfl, .inl rfl⟩
    · exact ⟨h.of_io hcons hhand rfl rfl, .inl hlost⟩
  | timeSend pc =>
    -- The message stays in the hand of the io thread while it goes from one recipient to the next.
    obtain ⟨i, hi⟩ := h.io_hand_some (by rw [pc]; rfl)
    obtain ⟨io, pc', heq, -, hpc'⟩ := s.timeSend_eq
    rw [heq]
    refine ⟨h.of_same rfl ?_ rfl, .inl rfl⟩
    rw [pc]
    rcases hpc' with ⟨-, hnone⟩ | ⟨last, rfl⟩
    · rw [hi] at hnone
      exact absurd hnone (by simp)
    · rfl
  | @timeFree _ last pc =>
    obtain ⟨i, hi⟩ := h.io_hand_some (by rw [pc]; rfl)
    obtain ⟨-, hhand, -, hlost, hcons⟩ := h.conserved.free_spec hi
    exact ⟨h.of_io hcons hhand (by cases last <;> rfl) rfl, .inl hlost⟩
  | sampleRecv => exact ⟨h.of_same rfl rfl rfl, .inl rfl⟩
  | sampleDisconnect => exact ⟨h.of_same rfl rfl rfl, .inl rfl⟩
  | @take cg gg =>
    obtain ⟨recv, pc', heq⟩ := s.take_eq cg gg
    rw [heq]
    exact ⟨h.of_same rfl rfl rfl, .inl rfl⟩
  | ret => exact ⟨h.of_same rfl rfl rfl, .inl rfl⟩
  | @sendAlloc k proto_id written _ send =>
    rcases h.sendAlloc_spec send k proto_id written with
      heq | ⟨i, _, _, pc', hpc', heq, hhand, hlost, hcons⟩ <;> rw [heq]
    · exact ⟨h, .inl rfl⟩
    · exact ⟨h.of_logic hcons hhand (decide_eq_true hpc').symm rfl, .inl hlost⟩
  | sendPush pc =>
    -- The one step that can lose a slot.
    obtain ⟨i, hi⟩ := h.logic_hand_some (by rw [pc]; decide)
    obtain ⟨-, hhand, -, hcons, hcase⟩ := h.conserved.push_spec (r := .qSend) hi
    refine ⟨h.of_logic hcons hhand rfl rfl, ?_⟩
    rcases hcase with ⟨-, -, hlost⟩ | ⟨hfull, -, hlost⟩
    · exact .inl hlost
    · exact .inr ⟨i, hlost, rfl, pc, hfull⟩
  | sendFree pc =>
    obtain ⟨i, hi⟩ := h.logic_hand_some (by rw [pc]; decide)
    obtain ⟨-, hhand, -, hlost, hcons⟩ := h.conserved.free_spec hi
    exact ⟨h.of_logic hcons hhand rfl rfl, .inl hlost⟩
  | setLimit => exact ⟨h.of_same rfl rfl rfl, .inl rfl⟩

end SendCustody

/-- The slots are in custody in every state of every run. -/
theorem run_sendCustody {ok : ClientState → ClientAction → Prop} (hcap : 0 < cfg.sendCap)
    (run : Run cfg ok s) : s.SendCustody cfg :=
  run.invariant (init_sendCustody hcap) fun _ _ _ _ h _ hstep => (h.step_spec hstep).1

/-- When `q_send.push` is called, the ring does not hold all the other slots of the pool. -/
def SendRoom (cfg : ClientConfig) (s : ClientState) (a : ClientAction) : Prop :=
  a = .logic → s.sendPc = .push →
    (s.send.slots.ring .qSend).toList.length + 1 < cfg.sendCap

instance (cfg : ClientConfig) (s : ClientState) (a : ClientAction) :
    Decidable (SendRoom cfg s a) := by
  unfold SendRoom
  infer_instance

/-- The runs in which no slot is lost are those whose steps satisfy the condition. -/
theorem run_sendRoom_iff (hcap : 0 < cfg.sendCap) :
    Run cfg (SendRoom cfg) s ↔ Run cfg anyStep s ∧ s.send.slots.lost = [] := by
  apply Reach.iff_of_step (fun s : ClientState => s.send.slots.lost = []) rfl
  intro s a s' run hstep
  have h := run_sendCustody hcap run
  constructor
  · intro hlost'
    rcases (h.step_spec hstep).2 with heq | ⟨i, heq, -⟩
    · refine ⟨heq.symm.trans hlost', fun ha hpc => ?_⟩
      -- The logic thread is at its `push`, so this step is that `push`.
      subst ha
      have hnext : s' = s.sendPush := by
        simp only [step, logicNext, hpc, Option.some.injEq] at hstep
        exact hstep.symm
      obtain ⟨i, hi⟩ := h.logic_hand_some (by rw [hpc]; decide)
      rw [hnext] at heq
      exact (h.conserved.push_lost_iff hi).mp heq
    · rw [hlost'] at heq
      exact absurd heq (by simp)
  · rintro ⟨hlost, hroom⟩
    rcases (h.step_spec hstep).2 with heq | ⟨-, -, ha, hpc, hfull⟩
    · exact heq.trans hlost
    · have := hroom ha hpc
      omega

end ClientState

end Catse
