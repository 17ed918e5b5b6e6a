import Catse.Client.SendCustody
import Catse.Inner.Custody

/-!
# The rings that are one cell too small

The rings of `msg_recv` are made with one cell more than the pool has slots, so that they can hold
all of them beside the cell that stays empty. `q_send`, `q_inner_recv` and `q_inner_send` are made
with as many cells as their pool has slots, and so they refuse the last slot of the pool, which no
caller notices. This module says when exactly that happens, for both pools.
-/

namespace Catse

open ClientState InnerState

/-- With a pool of two slots and nothing popped in between, the second message is refused, and its
slot is nowhere any more. -/
theorem second_message_lost :
    (∃ s, ClientState.Run (smallConfig 2) anyStep s ∧ s.sendPc = .idle ∧ s.ioPc = .idle ∧
      s.send.slots.lost = [0]) ∧
    ∃ s, InnerState.Run (normalConfig 2) anyStep s ∧ s.pc = .idle ∧ s.slots.lost = [0] := by
  constructor
  · have hexec : (exec (ClientState.step (smallConfig 2)) (ClientState.init (smallConfig 2))
        [.send .broadcast 1 (some ([7], 1)), .logic, .send .broadcast 1 (some ([7], 1)),
          .logic]).map (fun s => (s.sendPc, s.ioPc, s.send.slots.lost)) =
      some (.idle, .idle, [0]) := by decide +kernel
    obtain ⟨s, hrun, hs⟩ := ClientState.exists_run_of_exec hexec
    obtain ⟨hsend, hs⟩ := Prod.mk.inj hs
    obtain ⟨hio, hlost⟩ := Prod.mk.inj hs
    exact ⟨s, hrun, hsend, hio, hlost⟩
  · have hexec : (exec InnerState.step (InnerState.init (normalConfig 2))
        [.writeBegin (some 0) (some 0), .writeEnd, .writeBegin (some 0) (some 0),
          .writeEnd]).map (fun s => (s.pc, s.slots.lost)) = some (.idle, [0]) := by
      decide +kernel
    obtain ⟨s, hrun, hs⟩ := InnerState.exists_run_of_exec hexec
    obtain ⟨hpc, hlost⟩ := Prod.mk.inj hs
    exact ⟨s, hrun, hpc, hlost⟩

/-- Of the messages to clients and of those between servers alike: a `push` succeeds exactly when
the ring holds fewer than all the other slots of the pool; the runs in which no message is lost are
exactly those in which every `push` finds the ring so; and in these, whenever nobody holds a
message, each slot is on the free list or in exactly one ring. -/
theorem messages_kept_iff_room (cfg : ClientConfig) (hcap : 2 ≤ cfg.sendCap)
    (inner : InnerConfig) (hinner : 2 ≤ inner.cap) :
    (∀ s,
      (ClientState.Run cfg anyStep s → s.sendPc = .push →
        (((s.send.slots.ring .qSend).push (s.send.slots.hand .logic)).1 = true ↔
          (s.send.slots.ring .qSend).toList.length + 1 < cfg.sendCap)) ∧
      (ClientState.Run cfg (SendRoom cfg) s ↔
        ClientState.Run cfg anyStep s ∧ s.send.slots.lost = []) ∧
      (ClientState.Run cfg (SendRoom cfg) s → (∀ h, s.send.slots.hand h = none) →
        ∀ i < cfg.sendCap,
          (i ∈ s.send.slots.pool.freeSlots ∧ ∀ r, i ∉ (s.send.slots.ring r).toList) ∨
          (i ∉ s.send.slots.pool.freeSlots ∧ ∃! r, i ∈ (s.send.slots.ring r).toList))) ∧
    (∀ s,
      (InnerState.Run inner anyStep s → ∀ a r s', InnerState.step s a = some s' →
        s.pushes a = some r →
        (((s.slots.ring r).push (s.slots.hand r.pusher)).1 = true ↔
          (s.slots.ring r).toList.length + 1 < inner.cap)) ∧
      (InnerState.Run inner (InnerRoom inner) s ↔
        InnerState.Run inner anyStep s ∧ s.slots.lost = []) ∧
      (InnerState.Run inner (InnerRoom inner) s → (∀ h, s.slots.hand h = none) → ∀ i < inner.cap,
          (i ∈ s.slots.pool.freeSlots ∧ ∀ r, i ∉ (s.slots.ring r).toList) ∨
          (i ∉ s.slots.pool.freeSlots ∧ ∃! r, i ∈ (s.slots.ring r).toList))) := by
  constructor
  · intro s
    have hpos : 0 < cfg.sendCap := by omega
    refine ⟨fun run hpc => (run_sendCustody hpos run).push_iff hpc, run_sendRoom_iff hpos,
      fun run hhand i hi => ?_⟩
    have hlost := ((run_sendRoom_iff hpos).mp run).2
    exact (run_sendCustody hpos run).conserved.free_or_ring hlost hhand hi
  · intro s
    have hpos : 0 < inner.cap := by omega
    refine ⟨fun run a r s' hstep hpush => ?_, run_innerRoom_iff hpos, fun run hhand i hi => ?_⟩
    · -- A push has a slot in hand, which is what the ring is asked to take.
      have h := run_innerCustody hpos run
      have hacc := (h.step_spec hstep).2
      rw [hpush] at hacc
      obtain ⟨i, hi⟩ := Option.isSome_iff_exists.mp hacc.2
      exact h.conserved.push_accepted_iff hi
    · have hlost := ((run_innerRoom_iff hpos).mp run).2
      exact (run_innerCustody hpos run).conserved.free_or_ring hlost hhand hi

/-- One message to clients is in the ring, and one between servers has been freed again. -/
theorem messages_kept_one :
    (∃ s, ClientState.Run (smallConfig 2) (SendRoom (smallConfig 2)) s ∧
      (s.send.slots.ring .qSend).toList = [1] ∧ ∀ i < 2,
        (i ∈ s.send.slots.pool.freeSlots ∧ ∀ r, i ∉ (s.send.slots.ring r).toList) ∨
        (i ∉ s.send.slots.pool.freeSlots ∧ ∃! r, i ∈ (s.send.slots.ring r).toList)) ∧
    ∃ s, InnerState.Run (normalConfig 2) (InnerRoom (normalConfig 2)) s ∧
      s.slots.pool.freeSlots = [0, 1] ∧ ∀ i < 2,
        (i ∈ s.slots.pool.freeSlots ∧ ∀ r, i ∉ (s.slots.ring r).toList) ∨
        (i ∉ s.slots.pool.freeSlots ∧ ∃! r, i ∈ (s.slots.ring r).toList) := by
  constructor
  · let acts : List ClientAction := [.send .broadcast 1 (some ([7], 1)), .logic]
    have hexec : (exec (ClientState.step (smallConfig 2)) (ClientState.init (smallConfig 2))
        acts).map (fun s => ((s.send.slots.ring .qSend).toList, s.send.slots.hand .io,
          s.send.slots.hand .logic)) = some ([1], none, none) := by decide +kernel
    have hok : execOk (ClientState.step (smallConfig 2)) (SendRoom (smallConfig 2))
        (ClientState.init (smallConfig 2)) acts := by decide +kernel
    obtain ⟨s, hs, hval⟩ := Option.map_eq_some_iff.mp hexec
    obtain ⟨hring, hval⟩ := Prod.mk.inj hval
    obtain ⟨hio, hlogic⟩ := Prod.mk.inj hval
    have hrun : ClientState.Run (smallConfig 2) (SendRoom (smallConfig 2)) s :=
      reach_of_exec .start hok hs
    have hhand : ∀ h, s.send.slots.hand h = none := fun h => by cases h <;> assumption
    have hkept :=
      (messages_kept_iff_room (smallConfig 2) (by decide) (normalConfig 2) (by decide)).1 s
    exact ⟨s, hrun, hring, hkept.2.2 hrun hhand⟩
  · let acts : List InnerAction := connects ++
      [.writeBegin (some 0) (some 0), .writeEnd, .tick, .inner, .inner, .inner]
    have hexec : (exec InnerState.step (InnerState.init (normalConfig 2)) acts).map
        (fun s => (s.slots.pool.freeSlots, s.slots.hand .inner,
          (s.slots.hand .reader, s.slots.hand .writer))) = some ([0, 1], none, (none, none)) := by
      decide +kernel
    have hok : execOk InnerState.step (InnerRoom (normalConfig 2))
        (InnerState.init (normalConfig 2)) acts := by decide +kernel
    obtain ⟨s, hs, hval⟩ := Option.map_eq_some_iff.mp hexec
    obtain ⟨hfree, hval⟩ := Prod.mk.inj hval
    obtain ⟨hinner, hval⟩ := Prod.mk.inj hval
    obtain ⟨hreader, hwriter⟩ := Prod.mk.inj hval
    have hrun : InnerState.Run (normalConfig 2) (InnerRoom (normalConfig 2)) s :=
      reach_of_exec .start hok hs
    have hhand : ∀ h, s.slots.hand h = none := fun h => by cases h <;> assumption
    have hkept :=
      (messages_kept_iff_room (smallConfig 2) (by decide) (normalConfig 2) (by decide)).2 s
    exact ⟨s, hrun, hfree, hkept.2.2 hrun hhand⟩

end Catse
