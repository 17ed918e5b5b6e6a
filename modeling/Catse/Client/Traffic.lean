import Catse.Client.RecvCustody
import Catse.Lib.Merge

/-!
# What the rings of `msg_recv` carry

`Traffic` relates the rings to the history of a run, for every order of steps: each ring is first-in
first-out (what it has accepted is what `handlerMsg` was called for from it, followed by what it
holds), and messages are accepted in the order of `set_step`, since the io thread alone stamps and
pushes them.
-/

namespace Catse

open Merge (ofSource Increasing)

/-- Does the io thread hold a message that it has stamped? -/
def IoPc.stamped : IoPc → Bool
  | .readPush .. | .closePush => true
  | _ => false

theorem IoPc.recvHand_of_stamped {pc : IoPc} (h : pc.stamped = true) : pc.recvHand = true := by
  cases pc <;> first | rfl | exact h

namespace RecvChannel

variable {c : RecvChannel} {i j be : ℕ} {m : MsgRecv}

theorem event_fill_of_ne (h : j ≠ i) : (c.fill i be m).event j = c.event j := by
  simp [fill, event, h]

/-- Writing to one slot changes no event of a ring that does not hold it. -/
theorem map_event_fill {l : List ℕ} (h : i ∉ l) (r : RecvRing) :
    (l.map fun j => (r, (c.fill i be m).event j)) = l.map fun j => (r, c.event j) := by
  apply List.map_congr_left
  intro j hj
  have hne : j ≠ i := fun he => h (he ▸ hj)
  rw [event_fill_of_ne hne]

end RecvChannel

namespace ClientState

variable {cfg : ClientConfig} {s s' : ClientState} {a : ClientAction}

/-- The events that a ring holds, oldest first. -/
def ringEvents (s : ClientState) (r : RecvRing) : List (RecvRing × Event) :=
  (s.recv.slots.ring r).toList.map fun i => (r, s.recv.event i)

/-- The rings are first-in first-out, and messages are accepted in the order of their stamps. -/
structure Traffic (s : ClientState) : Prop where
  fifo : ∀ r, ofSource r s.recv.pushed = ofSource r s.recv.handled ++ s.ringEvents r
  increasing : Increasing Event.step s.recv.pushed
  step_le : ∀ e ∈ s.recv.pushed, e.2.step ≤ s.recv.s_step
  hand : ∀ i, s.recv.slots.hand .io = some i → s.ioPc.stamped = true →
    (s.recv.list i).step ≤ s.recv.s_step ∧
      ∀ e ∈ s.recv.pushed, e.2.step < (s.recv.list i).step

/-- Nothing has happened yet. -/
theorem init_traffic : (init cfg).Traffic where
  fifo r := by
    have hholds := MsgQueue.init_holds (α := ℕ) (Nat.succ_pos cfg.recvCap)
    show [] = [] ++ List.map _ (MsgQueue.init (cfg.recvCap + 1)).toList
    rw [hholds.toList_eq]
    rfl
  increasing := List.Pairwise.nil
  step_le e he := absurd he (by simp [init])
  hand i hi := absurd hi (by simp [init, Slots.init])

namespace Traffic

/-- An event in a ring is one that the ring has accepted. -/
theorem mem_pushed (t : s.Traffic) {r : RecvRing} {e : RecvRing × Event}
    (he : e ∈ s.ringEvents r) : e ∈ s.recv.pushed := by
  have hmem : e ∈ ofSource r s.recv.pushed := by
    rw [t.fifo r]
    exact List.mem_append_right _ he
  exact (Merge.mem_ofSource.mp hmem).1

/-- A step that leaves the channel alone. -/
theorem of_same (t : s.Traffic) (hrecv : s'.recv = s.recv)
    (hpc : s'.ioPc.stamped = true → s.ioPc.stamped = true) : s'.Traffic where
  fifo r := by
    unfold ringEvents
    rw [hrecv]
    exact t.fifo r
  increasing := hrecv ▸ t.increasing
  step_le := hrecv ▸ t.step_le
  hand i hi hst := by
    rw [hrecv] at hi ⊢
    exact t.hand i hi (hpc hst)

/-- A step to a point where the io thread holds no stamped message, with the same rings. -/
theorem of_rings (t : s.Traffic) (hpushed : s'.recv.pushed = s.recv.pushed)
    (hhandled : s'.recv.handled = s.recv.handled) (hstep : s'.recv.s_step = s.recv.s_step)
    (hring : s'.recv.slots.ring = s.recv.slots.ring) (hevent : s'.recv.event = s.recv.event)
    (hhand : ∀ i, s'.recv.slots.hand .io = some i → s'.ioPc.stamped = true →
      s.recv.slots.hand .io = some i ∧ s.ioPc.stamped = true ∧
        s'.recv.list i = s.recv.list i) : s'.Traffic where
  fifo r := by
    rw [hpushed, hhandled, ringEvents, hring, hevent]
    exact t.fifo r
  increasing := hpushed ▸ t.increasing
  step_le := by rw [hpushed, hstep]; exact t.step_le
  hand i hi hst := by
    obtain ⟨hi', hst', hlist⟩ := hhand i hi hst
    rw [hlist, hstep, hpushed]
    exact t.hand i hi' hst'

/-- A slot taken with `alloc`, filled and stamped. -/
theorem of_fill (t : s.Traffic) (h : s.RecvCustody cfg) (hpc : s.ioPc.recvHand = false) {i be : ℕ}
    (hfree : i ∈ s.recv.slots.pool.freeSlots) (hi : s.recv.alloc.slots.hand .io = some i)
    (m : MsgRecv) (pc' : IoPc) :
    { s with recv := s.recv.alloc.fill i be m, ioPc := pc' }.Traffic := by
  have hring : s.recv.alloc.slots.ring = s.recv.slots.ring := by
    rcases h.alloc_spec hpc with ⟨-, heq⟩ | ⟨j, -, -, -, hring, -⟩
    · rw [heq]
    · exact hring
  -- The slot was free, so no ring holds it and no event of a ring changes.
  have hout : ∀ r, i ∉ (s.recv.slots.ring r).toList := by
    intro r hmem
    have hplace := Custody.place_unique h.conserved.nodup (p := .free) hfree (q := .ring r) hmem
    exact absurd hplace (by simp)
  refine ⟨fun r => ?_, t.increasing, fun e he => ?_, fun j hj _ => ?_⟩
  · have hev : List.map (fun j => (r, (s.recv.alloc.fill i be m).event j))
        (s.recv.alloc.slots.ring r).toList = s.ringEvents r := by
      rw [hring]
      exact RecvChannel.map_event_fill (hout r) r
    show ofSource r s.recv.pushed = ofSource r s.recv.handled ++ _
    rw [t.fifo r]
    exact congrArg _ hev.symm
  · have := t.step_le e he
    show e.2.step ≤ s.recv.s_step + 1
    omega
  · obtain rfl : i = j := Option.some.inj (hi.symm.trans hj)
    have hstamp : ((s.recv.alloc.fill i be m).list i).step = s.recv.s_step + 1 := by
      simp [RecvChannel.fill, RecvChannel.alloc]
    show _ ≤ s.recv.s_step + 1 ∧ _
    rw [hstamp]
    refine ⟨Nat.le_refl _, fun e he => ?_⟩
    have := t.step_le e he
    omega

/-- A stamped message pushed into a ring. -/
theorem of_push (t : s.Traffic) (h : s.RecvCustody cfg) (hpc : s.ioPc.stamped = true)
    (r : RecvRing) {pc' : IoPc} :
    { s with recv := s.recv.push r, ioPc := pc' }.Traffic := by
  obtain ⟨i, hi, -, hpushed, -, -, hhand, hlist, hframe⟩ :=
    h.push_spec (IoPc.recvHand_of_stamped hpc) r
  obtain ⟨hle, hlt⟩ := t.hand i hi hpc
  refine ⟨fun r' => ?_, ?_, fun e he => ?_, fun j hj _ => ?_⟩
  · show ofSource r' (s.recv.push r).pushed = ofSource r' s.recv.handled ++
      List.map (fun j => (r', s.recv.event j)) ((s.recv.slots.push .io r).ring r').toList
    rw [hpushed, Merge.ofSource_append, t.fifo r']
    by_cases hr : r' = r
    · subst hr
      rw [hlist, List.map_append, Merge.ofSource_single_self, List.append_assoc]
      rfl
    · rw [hframe r' hr, Merge.ofSource_single_of_ne (Ne.symm hr), List.append_nil]
      rfl
  · show Increasing Event.step (s.recv.push r).pushed
    rw [hpushed]
    exact t.increasing.snoc hlt
  · change e ∈ (s.recv.push r).pushed at he
    rw [hpushed] at he
    rcases List.mem_append.mp he with hold | hnew
    · exact t.step_le e hold
    · rw [List.mem_singleton.mp hnew]
      exact hle
  · -- The hand is empty afterwards.
    change (s.recv.slots.push .io r).hand .io = some j at hj
    rw [hhand, Function.update_self] at hj
    exact absurd hj (by simp)

/-- A front popped by the logic thread. -/
theorem of_pop (t : s.Traffic) (h : s.RecvCustody cfg) (hpc : s.logicPc.recvHand = false)
    {r : RecvRing} {i : ℕ} (hi : (s.recv.slots.ring r).toList.head? = some i) :
    { s with recv := s.recv.pop r, logicPc := .handling }.Traffic := by
  obtain ⟨l, hl, hhandled, -, -, hhand, hrest, hframe⟩ := h.pop_spec hpc hi
  refine ⟨fun r' => ?_, t.increasing, t.step_le, fun j hj hst => ?_⟩
  · show ofSource r' s.recv.pushed = ofSource r' (s.recv.pop r).handled ++
      List.map (fun j => (r', s.recv.event j)) ((s.recv.slots.pop .logic r).ring r').toList
    rw [hhandled, Merge.ofSource_append, t.fifo r']
    unfold ringEvents
    by_cases hr : r' = r
    · subst hr
      rw [hl, hrest, List.map_cons, Merge.ofSource_single_self, List.append_assoc]
      rfl
    · rw [hframe r' hr, Merge.ofSource_single_of_ne (Ne.symm hr), List.append_nil]
  · change (s.recv.slots.pop .logic r).hand .io = some j at hj
    rw [hhand, Function.update_of_ne (by decide)] at hj
    exact t.hand j hj hst

/-- Every step keeps the rings in order. -/
theorem step (t : s.Traffic) (h : s.RecvCustody cfg) (hstep : step cfg s a = some s') :
    s'.Traffic := by
  cases move_of_step hstep with
  | accept => exact t.of_same rfl id
  | quiet _ _ _ calm' =>
    refine t.of_same rfl fun hst => ?_
    exact absurd (IoPc.recvHand_of_stamped hst) (by rw [calm'.recv]; simp)
  | close => exact t.of_same rfl fun hst => absurd hst (by simp [closeConnect, IoPc.stamped])
  | readAlloc pc =>
    have hpc : s.ioPc.recvHand = false := by rw [pc]; rfl
    rcases h.readAlloc_spec pc with ⟨-, heq⟩ | ⟨i, hfree, hi, heq | ⟨m, -, heq⟩⟩ <;> rw [heq]
    · exact t.of_same rfl fun hst => absurd hst (by simp [IoPc.stamped])
    · -- The slot goes back unused: no ring has changed.
      rcases h.alloc_spec hpc with ⟨-, hsame⟩ | ⟨j, -, -, -, hring, -⟩
      · rw [hsame]
        exact t.of_same rfl fun hst => absurd hst (by simp [IoPc.stamped])
      · exact t.of_rings rfl rfl rfl hring rfl fun j _ hst => absurd hst (by simp [IoPc.stamped])
    · exact t.of_fill h hpc hfree hi m _
  | readFree pc =>
    obtain ⟨i, hi⟩ := h.io_hand_some (by rw [pc]; rfl)
    obtain ⟨-, -, hring, -⟩ := h.conserved.free_spec hi
    exact t.of_rings rfl rfl rfl hring rfl
      fun j _ hst => absurd hst (by simp [readFree, IoPc.stamped])
  | readPush pc => exact t.of_push h (by rw [pc]; rfl) .qRecvIo
  | closeAlloc pc =>
    have hpc : s.ioPc.recvHand = false := by rw [pc]; rfl
    rcases h.closeAlloc_spec pc with ⟨-, heq⟩ | ⟨i, hfree, hi, heq⟩ <;> rw [heq]
    · exact t.of_same rfl fun hst => absurd hst (by simp [IoPc.stamped])
    · exact t.of_fill h hpc hfree hi _ _
  | closePush pc => exact t.of_push h (by rw [pc]; rfl) .qDisconnect
  | timePop pc =>
    obtain ⟨send, pc', heq, rfl | rfl⟩ := s.timePop_eq <;> rw [heq]
    · exact t.of_same rfl fun hst => absurd hst (by simp [IoPc.stamped])
    · exact t.of_same rfl fun hst => absurd hst (by simp [IoPc.stamped])
  | timeSend pc =>
    obtain ⟨io, pc', heq, -, ⟨rfl, -⟩ | ⟨last, rfl⟩⟩ := s.timeSend_eq <;> rw [heq]
    · exact t.of_same rfl fun hst => absurd hst (by simp [IoPc.stamped])
    · exact t.of_same rfl fun hst => absurd hst (by simp [IoPc.stamped])
  | @timeFree _ last pc =>
    obtain ⟨send, pc', heq, rfl | rfl⟩ := s.timeFree_eq last <;> rw [heq]
    · exact t.of_same rfl fun hst => absurd hst (by simp [IoPc.stamped])
    · exact t.of_same rfl fun hst => absurd hst (by simp [IoPc.stamped])
  | sampleRecv => exact t.of_same rfl id
  | sampleDisconnect => exact t.of_same rfl id
  | take pc =>
    have hpc : s.logicPc.recvHand = false := by rw [pc]; rfl
    rcases h.take_spec pc with
      ⟨-, -, heq⟩ | ⟨c, g, -, -, -, heq⟩ | ⟨r, i, hi, -, heq⟩ <;> rw [heq]
    · exact t.of_same rfl id
    · exact t.of_same rfl id
    · exact t.of_pop h hpc hi
  | ret pc =>
    obtain ⟨i, hi⟩ := h.logic_hand_some (by rw [pc]; rfl)
    obtain ⟨-, hhand, hring, -⟩ := h.conserved.free_spec hi
    refine t.of_rings rfl rfl rfl hring rfl fun j hj hst => ?_
    -- The hand of the io thread is not the one that is freed.
    change (s.recv.slots.free .logic).hand .io = some j at hj
    rw [hhand, Function.update_of_ne (by decide)] at hj
    exact ⟨hj, hst, rfl⟩
  | sendAlloc =>
    obtain ⟨send, pc', heq⟩ := s.sendAlloc_eq _ _ _
    rw [heq]
    exact t.of_same rfl id
  | sendPush => exact t.of_same rfl id
  | sendFree => exact t.of_same rfl id
  | setLimit => exact t.of_same rfl id

end Traffic

/-- The rings are in order in every state of every run. -/
theorem run_traffic {ok : ClientState → ClientAction → Prop} (run : Run cfg ok s) : s.Traffic :=
  run.invariant init_traffic fun _ _ _ run t _ hstep => t.step (run_recvCustody run) hstep

end ClientState

end Catse
