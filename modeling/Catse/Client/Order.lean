import Catse.Client.Traffic

/-!
# The order in which `handle_io` handles events

`handle_io` merges two rings by the steps of their fronts, but it reads the front of `q_recv_io`
first and the front of `q_disconnect` later. A packet and a disconnect that arrive in between are
handled in the wrong order. `FrontsInOrder` is the condition that this does not happen, and under it
the events are handled exactly in the order in which they were pushed (`handled_in_push_order`).
-/

namespace Catse

open Merge (ofSource Increasing)

namespace ClientState

variable {cfg : ClientConfig} {s s' : ClientState} {a : ClientAction}

/-- When the logic thread reads the front of `q_disconnect` after it has found `q_recv_io` empty,
then `q_recv_io` is still empty, or `q_disconnect` is, or its front is the older one. -/
def FrontsInOrder (s : ClientState) (a : ClientAction) : Prop :=
  a = .logic → s.sendPc = .idle → s.logicPc = .sampledRecv none →
    ∀ r ∈ (s.recv.slots.ring .qRecvIo).toList.head?,
      ∀ d ∈ (s.recv.slots.ring .qDisconnect).toList.head?,
        (s.recv.list d).step < (s.recv.list r).step

instance (s : ClientState) (a : ClientAction) : Decidable (s.FrontsInOrder a) := by
  unfold FrontsInOrder
  infer_instance

/-- What the logic thread takes for granted about a ring whose front it did not see: all that is in
it is younger than the front that it did see. -/
def SampledFirst (s : ClientState) : Prop :=
  match s.logicPc with
  | .sampled none (some d) => ∀ e ∈ s.ringEvents .qRecvIo, (s.recv.list d).step < e.2.step
  | .sampled (some c) none => ∀ e ∈ s.ringEvents .qDisconnect, (s.recv.list c).step < e.2.step
  | _ => True

/-- The events are handled in the order in which they were pushed. -/
structure InOrder (s : ClientState) : Prop where
  handled : s.recv.handled <+: s.recv.pushed
  sampled : s.SampledFirst

theorem init_inOrder : (init cfg).InOrder := ⟨List.nil_prefix, trivial⟩

/-- The event of a ring's front is in the ring. -/
theorem front_mem_ringEvents {r : RecvRing} {i : ℕ}
    (hi : (s.recv.slots.ring r).toList.head? = some i) :
    (r, s.recv.event i) ∈ s.ringEvents r := by
  have hmem : i ∈ (s.recv.slots.ring r).toList := List.mem_of_mem_head? hi
  exact List.mem_map.mpr ⟨i, hmem, rfl⟩

/-- The front of a ring is older than what is behind it. -/
theorem Traffic.front_le (t : s.Traffic) {r : RecvRing} {i : ℕ}
    (hi : (s.recv.slots.ring r).toList.head? = some i) {e : RecvRing × Event}
    (he : e ∈ s.ringEvents r) : (s.recv.list i).step ≤ e.2.step := by
  -- What the ring holds is a final part of what it has accepted, which is increasing.
  have hsorted : (s.ringEvents r).Pairwise fun e e' => e.2.step < e'.2.step := by
    have hall : (ofSource r s.recv.pushed).Pairwise fun e e' => e.2.step < e'.2.step :=
      List.Pairwise.filter _ t.increasing
    rw [t.fifo r] at hall
    exact (List.pairwise_append.mp hall).2.1
  cases hl : (s.recv.slots.ring r).toList with
  | nil =>
    rw [hl] at hi
    exact absurd hi (by simp)
  | cons j l =>
    obtain rfl : j = i := by
      rw [hl] at hi
      exact Option.some.inj hi
    unfold ringEvents at hsorted he
    rw [hl, List.map_cons] at hsorted he
    rcases List.mem_cons.mp he with heq | hmem
    · rw [heq]
      exact Nat.le_refl _
    · exact Nat.le_of_lt ((List.pairwise_cons.mp hsorted).1 e hmem)

namespace InOrder

/-- Taking a front that is older than all that the other ring holds takes the oldest event that is
not handled yet. -/
theorem take (o : s.InOrder) (t : s.Traffic) {r : RecvRing} {i : ℕ}
    (hi : (s.recv.slots.ring r).toList.head? = some i)
    (hleast : ∀ r', r' ≠ r → ∀ e ∈ s.ringEvents r', (s.recv.list i).step < e.2.step) :
    s.recv.handled ++ [(r, s.recv.event i)] <+: s.recv.pushed := by
  obtain ⟨rest, hrest⟩ := o.handled
  have hheld : ∀ r', ofSource r' rest = s.ringEvents r' := by
    intro r'
    apply Merge.ofSource_rest
    rw [hrest]
    exact t.fifo r'
  have hinc : Increasing Event.step rest := by
    have hall := t.increasing
    rw [← hrest] at hall
    exact (List.pairwise_append.mp hall).2.1
  -- The source `r` starts with the front `i`.
  obtain ⟨l, hl⟩ : ∃ l, ofSource r rest = (r, s.recv.event i) :: l := by
    rw [hheld r]
    unfold ringEvents
    cases hlist : (s.recv.slots.ring r).toList with
    | nil =>
      rw [hlist] at hi
      exact absurd hi (by simp)
    | cons j l =>
      rw [hlist] at hi
      obtain rfl : j = i := Option.some.inj hi
      exact ⟨_, rfl⟩
  have hother : ∀ e ∈ rest, e.1 ≠ r → (s.recv.event i).step < e.2.step := by
    intro e he hne
    apply hleast e.1 hne
    rw [← hheld e.1]
    exact Merge.mem_ofSource.mpr ⟨he, rfl⟩
  obtain ⟨rest', hrest'⟩ := hinc.cons_of_least hl hother
  refine ⟨rest', ?_⟩
  calc s.recv.handled ++ [(r, s.recv.event i)] ++ rest'
      = s.recv.handled ++ rest := by rw [hrest', List.append_assoc, List.singleton_append]
    _ = s.recv.pushed := hrest

/-- A step of the io thread: what it pushes is younger than everything pushed before. -/
theorem of_io (o : s.InOrder) (t : s.Traffic) (h : s.RecvCustody cfg)
    (hpc : s'.logicPc = s.logicPc) (hhandled : s'.recv.handled = s.recv.handled)
    (hpushed : s.recv.pushed <+: s'.recv.pushed)
    (hlist : ∀ r i, i ∈ (s.recv.slots.ring r).toList → s'.recv.list i = s.recv.list i)
    (hnew : ∀ r, ∀ e ∈ s'.ringEvents r, e ∈ s.ringEvents r ∨
      ∀ e' ∈ s.recv.pushed, e'.2.step < e.2.step) : s'.InOrder where
  handled := by rw [hhandled]; exact o.handled.trans hpushed
  sampled := by
    have hold := o.sampled
    have hf := h.fronts
    unfold SampledFirst at hold ⊢
    rw [hpc]
    -- A front that was seen is in its ring, so it was pushed before anything new.
    have hkey : ∀ r q i, (s.recv.slots.ring r).toList.head? = some i →
        (∀ e ∈ s.ringEvents q, (s.recv.list i).step < e.2.step) →
        ∀ e ∈ s'.ringEvents q, (s'.recv.list i).step < e.2.step := by
      intro r q i hi hlt e he
      rw [hlist r i (List.mem_of_mem_head? hi)]
      rcases hnew q e he with hmem | hyoung
      · exact hlt e hmem
      · exact hyoung _ (t.mem_pushed (front_mem_ringEvents hi))
    split at hold
    · rename_i d hd
      rw [hd] at hf
      exact hkey _ _ d (hf.2 d rfl) hold
    · rename_i c hc
      rw [hc] at hf
      exact hkey _ _ c (hf.1 c rfl) hold
    · trivial

/-- Nothing changes but the logic thread's own program counter. -/
theorem of_same (o : s.InOrder) (hrecv : s'.recv = s.recv) (hpc : s'.logicPc = s.logicPc) :
    s'.InOrder where
  handled := by rw [hrecv]; exact o.handled
  sampled := by
    have hold := o.sampled
    unfold SampledFirst ringEvents at hold ⊢
    rw [hpc, hrecv]
    exact hold

/-- The logic thread is not between `getfront` and `pop` any more. -/
theorem of_handled (hhandled : s'.recv.handled <+: s'.recv.pushed)
    (hpc : ∀ cg gg, s'.logicPc ≠ .sampled cg gg) : s'.InOrder where
  handled := hhandled
  sampled := by
    unfold SampledFirst
    split
    · rename_i d hd
      exact absurd hd (hpc _ _)
    · rename_i c hc
      exact absurd hc (hpc _ _)
    · trivial

/-- A slot taken with `alloc`, whether or not it is filled. -/
theorem of_alloc (o : s.InOrder) (t : s.Traffic) (h : s.RecvCustody cfg)
    (hpc : s.ioPc.recvHand = false) {c : RecvChannel} {pc' : IoPc} {i : ℕ}
    (hfree : i ∈ s.recv.slots.pool.freeSlots) (hslots : c.slots = s.recv.alloc.slots)
    (hlist : ∀ j, j ≠ i → c.event j = s.recv.event j ∧ c.list j = s.recv.list j)
    (hhandled : c.handled = s.recv.handled) (hpushed : c.pushed = s.recv.pushed) :
    { s with recv := c, ioPc := pc' }.InOrder := by
  have hring : s.recv.alloc.slots.ring = s.recv.slots.ring := by
    rcases h.alloc_spec hpc with ⟨-, heq⟩ | ⟨j, -, -, -, hring, -⟩
    · rw [heq]
    · exact hring
  have hout : ∀ r j, j ∈ (s.recv.slots.ring r).toList → j ≠ i := by
    rintro r j hj rfl
    have hplace := Custody.place_unique h.conserved.nodup (p := .free) hfree (q := .ring r) hj
    exact absurd hplace (by simp)
  refine o.of_io t h rfl hhandled (hpushed ▸ List.prefix_refl _) (fun r j hj => ?_)
    fun r e he => .inl ?_
  · exact (hlist j (hout r j hj)).2
  · obtain ⟨j, hj, rfl⟩ := List.mem_map.mp he
    change j ∈ (c.slots.ring r).toList at hj
    rw [hslots, hring] at hj
    exact List.mem_map.mpr ⟨j, hj, by rw [← (hlist j (hout r j hj)).1]⟩

/-- A stamped message pushed into a ring. -/
theorem of_push (o : s.InOrder) (t : s.Traffic) (h : s.RecvCustody cfg)
    (hpc : s.ioPc.stamped = true) (r : RecvRing) {pc' : IoPc} :
    { s with recv := s.recv.push r, ioPc := pc' }.InOrder := by
  obtain ⟨i, hi, -, hpushed, -, -, -, hlist, hframe⟩ :=
    h.push_spec (IoPc.recvHand_of_stamped hpc) r
  obtain ⟨-, hlt⟩ := t.hand i hi hpc
  refine o.of_io t h rfl rfl (hpushed ▸ List.prefix_append _ _) (fun _ _ _ => rfl) fun q e he => ?_
  obtain ⟨j, hj, rfl⟩ := List.mem_map.mp he
  change j ∈ ((s.recv.slots.push .io r).ring q).toList at hj
  by_cases hq : q = r
  · subst hq
    rw [hlist] at hj
    rcases List.mem_append.mp hj with hold | hnew
    · exact .inl (List.mem_map.mpr ⟨j, hold, rfl⟩)
    · rw [List.mem_singleton.mp hnew]
      exact .inr hlt
  · rw [hframe q hq] at hj
    exact .inl (List.mem_map.mpr ⟨j, hj, rfl⟩)

/-- The logic thread samples the front of `q_disconnect` after that of `q_recv_io`, and does not
miss the older one of the two. -/
theorem sampleDisconnect (o : s.InOrder) (t : s.Traffic) (h : s.RecvCustody cfg) {cg : Option ℕ}
    (pc : s.logicPc = .sampledRecv cg)
    (hok : cg = none → ∀ r, (s.recv.slots.ring .qRecvIo).toList.head? = some r →
      ∀ d, (s.recv.slots.ring .qDisconnect).toList.head? = some d →
        (s.recv.list d).step < (s.recv.list r).step) : (s.sampleDisconnect cg).InOrder := by
  refine ⟨o.handled, ?_⟩
  have hfront := (h.conserved.holds .qDisconnect).getfront_eq
  have hf := h.fronts
  rw [pc] at hf
  unfold SampledFirst ClientState.sampleDisconnect
  simp only
  rw [hfront]
  cases cg with
  | none =>
    cases hd : (s.recv.slots.ring .qDisconnect).toList.head? with
    | none => trivial
    | some d =>
      -- Here the condition rules out a packet older than the disconnect.
      intro e he
      cases hr : (s.recv.slots.ring .qRecvIo).toList.head? with
      | none =>
        change e ∈ s.ringEvents .qRecvIo at he
        rw [ringEvents, List.head?_eq_none_iff.mp hr] at he
        exact absurd he (by simp)
      | some r =>
        calc (s.recv.list d).step < (s.recv.list r).step := hok rfl r hr d hd
          _ ≤ e.2.step := t.front_le hr he
  | some c =>
    cases hd : (s.recv.slots.ring .qDisconnect).toList.head? with
    | none =>
      intro e he
      change e ∈ s.ringEvents .qDisconnect at he
      rw [ringEvents, List.head?_eq_none_iff.mp hd] at he
      exact absurd he (by simp)
    | some d => trivial

/-- What the logic thread takes is the older one of the two fronts, so nothing in the other ring is
older. -/
theorem takeFront (o : s.InOrder) (t : s.Traffic) (h : s.RecvCustody cfg) {cg gg : Option ℕ}
    (pc : s.logicPc = .sampled cg gg) : (s.take cg gg).InOrder := by
  have hpc : s.logicPc.recvHand = false := by rw [pc]; rfl
  have hf := h.fronts
  rw [pc] at hf
  rcases h.take_spec pc with
    ⟨-, -, heq⟩ | ⟨c, g, -, -, -, heq⟩ | ⟨r, i, hi, hcase, heq⟩ <;> rw [heq]
  · exact of_handled o.handled fun _ _ => by simp
  · exact of_handled o.handled fun _ _ => by simp
  · obtain ⟨-, -, hhandled, -⟩ := h.pop_spec hpc hi
    refine of_handled ?_ fun _ _ => by simp
    show (s.recv.pop r).handled <+: s.recv.pushed
    rw [hhandled]
    have hsampled := o.sampled
    unfold SampledFirst at hsampled
    rw [pc] at hsampled
    -- Every entry of the other ring is newer than its front, or than the sample that found it
    -- empty.
    apply o.take t hi
    intro q hq e he
    rcases hcase with ⟨rfl, rfl, hlt⟩ | ⟨rfl, rfl, hlt⟩
    · have hqd : q = .qDisconnect := by
        cases q
        · exact absurd rfl hq
        · rfl
      subst hqd
      cases gg with
      | none => exact hsampled e he
      | some g => exact Nat.lt_of_lt_of_le (hlt g rfl) (t.front_le (hf.2 g rfl) he)
    · have hqr : q = .qRecvIo := by
        cases q
        · rfl
        · exact absurd rfl hq
      subst hqr
      cases cg with
      | none => exact hsampled e he
      | some c => exact Nat.lt_of_lt_of_le (hlt c rfl) (t.front_le (hf.1 c rfl) he)

/-- A step that satisfies the condition keeps the order. -/
theorem step (o : s.InOrder) (t : s.Traffic) (h : s.RecvCustody cfg) (hok : s.FrontsInOrder a)
    (hstep : step cfg s a = some s') : s'.InOrder := by
  cases move_of_step hstep with
  | accept => exact o.of_same rfl rfl
  | quiet => exact o.of_same rfl rfl
  | close => exact o.of_same rfl rfl
  | readAlloc pc =>
    have hpc : s.ioPc.recvHand = false := by rw [pc]; rfl
    rcases h.readAlloc_spec pc with ⟨-, heq⟩ | ⟨i, hfree, hi, heq | ⟨m, -, heq⟩⟩ <;> rw [heq]
    · exact o.of_same rfl rfl
    · exact o.of_alloc t h hpc hfree rfl (fun _ _ => ⟨rfl, rfl⟩) rfl rfl
    · refine o.of_alloc t h hpc hfree rfl
        (fun j hj => ⟨RecvChannel.event_fill_of_ne hj, ?_⟩) rfl rfl
      exact Function.update_of_ne hj _ _
  | readFree pc =>
    obtain ⟨i, hi⟩ := h.io_hand_some (by rw [pc]; rfl)
    obtain ⟨-, -, hring, -⟩ := h.conserved.free_spec hi
    refine o.of_io t h rfl rfl (List.prefix_refl _) (fun _ _ _ => rfl) fun r e he => .inl ?_
    -- The slot is in no ring, so its message is none that is still to be handled.
    obtain ⟨j, hj, rfl⟩ := List.mem_map.mp he
    change j ∈ ((s.recv.slots.free .io).ring r).toList at hj
    rw [hring] at hj
    exact List.mem_map.mpr ⟨j, hj, rfl⟩
  | readPush pc => exact o.of_push t h (by rw [pc]; rfl) .qRecvIo
  | closeAlloc pc =>
    have hpc : s.ioPc.recvHand = false := by rw [pc]; rfl
    rcases h.closeAlloc_spec pc with ⟨-, heq⟩ | ⟨i, hfree, hi, heq⟩ <;> rw [heq]
    · exact o.of_same rfl rfl
    · refine o.of_alloc t h hpc hfree rfl
        (fun j hj => ⟨RecvChannel.event_fill_of_ne hj, ?_⟩) rfl rfl
      exact Function.update_of_ne hj _ _
  | closePush pc => exact o.of_push t h (by rw [pc]; rfl) .qDisconnect
  | timePop => exact o.of_same rfl rfl
  | timeSend =>
    obtain ⟨io, pc', heq, -⟩ := s.timeSend_eq
    rw [heq]
    exact o.of_same rfl rfl
  | timeFree => exact o.of_same rfl rfl
  | sampleRecv => exact of_handled o.handled fun _ _ => by simp [sampleRecv]
  | sampleDisconnect pc send =>
    refine o.sampleDisconnect t h pc fun hcg r hr d hd => ?_
    subst hcg
    exact hok rfl send pc r hr d hd
  | take pc => exact o.takeFront t h pc
  | ret => exact of_handled o.handled fun _ _ => by simp [ret]
  | sendAlloc =>
    obtain ⟨send, pc', heq⟩ := s.sendAlloc_eq _ _ _
    rw [heq]
    exact o.of_same rfl rfl
  | sendPush => exact o.of_same rfl rfl
  | sendFree => exact o.of_same rfl rfl
  | setLimit => exact o.of_same rfl rfl

end InOrder

/-- A run whose steps satisfy the condition keeps the order. -/
theorem run_inOrder (run : Run cfg FrontsInOrder s) : s.InOrder :=
  run.invariant init_inOrder fun _ _ _ run o hok hstep =>
    o.step (run_traffic run) (run_recvCustody run) hok hstep

/-- A packet that arrives after `handle_io` has found `q_recv_io` empty, and before it looks into
`q_disconnect`, is handled after the disconnect that follows it. -/
theorem packet_handled_after_disconnect : ∃ s, Run (smallConfig 4) anyStep s ∧
    s.recv.pushed = [(.qRecvIo, ⟨1, 5, 1, 0⟩), (.qDisconnect, ⟨2, 5, 9, 0⟩)] ∧
    s.recv.handled = [(.qDisconnect, ⟨2, 5, 9, 0⟩), (.qRecvIo, ⟨1, 5, 1, 0⟩)] ∧
    ¬(s.recv.handled.map fun e => e.2.step).Pairwise (· < ·) := by
  have hexec : (exec (step (smallConfig 4)) (init (smallConfig 4)) (greeted ++ [.logic] ++
      sendsPacket ++ hangsUp ++ List.replicate 6 .logic)).map
      (fun s => (s.recv.pushed, s.recv.handled)) =
    some ([(.qRecvIo, ⟨1, 5, 1, 0⟩), (.qDisconnect, ⟨2, 5, 9, 0⟩)],
      [(.qDisconnect, ⟨2, 5, 9, 0⟩), (.qRecvIo, ⟨1, 5, 1, 0⟩)]) := by decide +kernel
  obtain ⟨s, hrun, hs⟩ := exists_run_of_exec hexec
  obtain ⟨hpushed, hhandled⟩ := Prod.mk.inj hs
  refine ⟨s, hrun, hpushed, hhandled, ?_⟩
  rw [hhandled]
  decide

/-- In every run whose steps satisfy the condition, `handlerMsg` is called for the messages in the
order in which the io thread pushed them, with none left out, and so with increasing steps. -/
theorem handled_in_push_order (run : Run cfg FrontsInOrder s) :
    s.recv.handled <+: s.recv.pushed ∧
      (s.recv.handled.map fun e => e.2.step).Pairwise (· < ·) := by
  have hpre := (run_inOrder run).handled
  refine ⟨hpre, ?_⟩
  have hinc := (run_traffic run).increasing.sublist hpre.sublist
  exact List.pairwise_map.mpr hinc

/-- A packet and a disconnect that arrive before `handle_io` looks are handled in order. -/
theorem handled_in_push_order_quiet : ∃ s, Run (smallConfig 4) FrontsInOrder s ∧
    (s.recv.handled.length = 2 ∧ s.recv.handled <+: s.recv.pushed ∧
      (s.recv.handled.map fun e => e.2.step).Pairwise (· < ·)) := by
  let acts := greeted ++ sendsPacket ++ hangsUp ++ List.replicate 7 .logic
  have hexec : (exec (step (smallConfig 4)) (init (smallConfig 4)) acts).map
      (fun s => s.recv.handled.length) = some 2 := by decide +kernel
  have hok : execOk (step (smallConfig 4)) FrontsInOrder (init (smallConfig 4)) acts := by
    decide +kernel
  obtain ⟨s, hs, hlen⟩ := Option.map_eq_some_iff.mp hexec
  have hrun : Run (smallConfig 4) FrontsInOrder s := reach_of_exec .start hok hs
  exact ⟨s, hrun, hlen, handled_in_push_order hrun⟩

end ClientState

end Catse
