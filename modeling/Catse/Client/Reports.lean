import Catse.Client.Traffic
import Catse.Client.Connections

/-!
# The reports of closed connections

`close_connect` takes its `msg_recv` from the pool that packets use too, and drops the report when
no slot is free. `ReportSlotFree` is the condition that this does not happen, and under it every
connection that `close_connect` has removed has contributed exactly one report to `q_disconnect`
(`closed_connections_reported`).
-/

namespace Catse

open Merge (ofSource)

namespace ClientState

variable {cfg : ClientConfig} {s s' : ClientState} {a : ClientAction}

/-- When `close_connect` calls `alloc`, some slot of `msg_recv_pool` is free. -/
def ReportSlotFree (s : ClientState) (a : ClientAction) : Prop :=
  match a, s.ioPc with
  | .io _, .closeAlloc .. => s.recv.slots.pool.freeSlots ≠ []
  | _, _ => True

instance (s : ClientState) (a : ClientAction) : Decidable (s.ReportSlotFree a) := by
  unfold ReportSlotFree
  split <;> infer_instance

/-- The reports that `q_disconnect` has accepted. -/
def reports (s : ClientState) : List (RecvRing × Event) := ofSource .qDisconnect s.recv.pushed

/-- The connection whose report the io thread is about to make or to push. -/
def pendingReport (s : ClientState) : List (ℕ × ℤ) :=
  match s.ioPc with
  | .closeAlloc be fd _ _ => [(be, fd)]
  | .closePush => (s.recv.slots.hand .io).toList.map fun i => (s.recv.owner i, (s.recv.list i).fd)
  | _ => []

/-- Every connection that was removed has been reported, or is about to be. -/
structure Reported (cfg : ClientConfig) (s : ClientState) : Prop where
  closed_eq : s.io.closed = (s.reports.map fun e => (e.2.conn, e.2.fd)) ++ s.pendingReport
  id_eq : ∀ e ∈ s.reports, e.2.id = toShort cfg.disconnect_id
  pending_id : ∀ i, s.recv.slots.hand .io = some i → s.ioPc = .closePush →
    (s.recv.list i).id = toShort cfg.disconnect_id

theorem init_reported : (init cfg).Reported cfg where
  closed_eq := rfl
  id_eq _ h := absurd h (by simp [reports, init, ofSource])
  pending_id _ _ h := absurd h (by simp [init])

/-- Nothing is pending outside `close_connect`. -/
theorem pendingReport_eq_nil (h : s.ioPc.closing = false) : s.pendingReport = [] := by
  unfold pendingReport
  split <;> rename_i hpc
  · rw [hpc] at h
    exact absurd h (by simp [IoPc.closing])
  · rw [hpc] at h
    exact absurd h (by simp [IoPc.closing])
  · rfl

namespace Reported

/-- A step that changes neither the connections nor the reports. -/
theorem of_same (p : s.Reported cfg) (hclosed : s'.io.closed = s.io.closed)
    (hreports : s'.reports = s.reports) (hpending : s'.pendingReport = s.pendingReport)
    (hid : ∀ i, s'.recv.slots.hand .io = some i → s'.ioPc = .closePush →
      s.recv.slots.hand .io = some i ∧ s.ioPc = .closePush ∧
        s'.recv.list i = s.recv.list i) : s'.Reported cfg where
  closed_eq := by rw [hclosed, hreports, hpending]; exact p.closed_eq
  id_eq := hreports ▸ p.id_eq
  pending_id i hi hpc := by
    obtain ⟨hi', hpc', hlist⟩ := hid i hi hpc
    rw [hlist]
    exact p.pending_id i hi' hpc'

/-- A step of the io thread from outside `close_connect` to outside. -/
theorem of_calm (p : s.Reported cfg) (hclosed : s'.io.closed = s.io.closed)
    (hreports : s'.reports = s.reports) (hpc : s.ioPc.closing = false)
    (hpc' : s'.ioPc.closing = false) : s'.Reported cfg := by
  refine p.of_same hclosed hreports ?_ fun i _ he => ?_
  · rw [pendingReport_eq_nil hpc, pendingReport_eq_nil hpc']
  · rw [he] at hpc'
    exact absurd hpc' (by simp [IoPc.closing])

/-- A step of the logic thread. -/
theorem of_logic (p : s.Reported cfg) (hclosed : s'.io.closed = s.io.closed)
    (hpushed : s'.recv.pushed = s.recv.pushed) (hpc : s'.ioPc = s.ioPc)
    (hhand : s'.recv.slots.hand .io = s.recv.slots.hand .io)
    (howner : s'.recv.owner = s.recv.owner) (hlist : s'.recv.list = s.recv.list) :
    s'.Reported cfg := by
  refine p.of_same hclosed ?_ ?_ fun i hi he => ?_
  · unfold reports
    rw [hpushed]
  · unfold pendingReport
    rw [hpc, hhand, howner, hlist]
  · exact ⟨hhand ▸ hi, hpc ▸ he, congrFun hlist i⟩

/-- `close_connect` removes the connection, and its report becomes the pending one. -/
theorem closeConnect (p : s.Reported cfg) (g : s.Registered) {io' : ThreadIo} {be : ℕ}
    {b : Bufferevent} (same : SameConns s.io io') (calm : s.ioPc.Calm)
    (live : s.io.bes be = some b) (cb : s.ioPc.Reads s.io → b.cb = true) (reason real_reason : ℤ) :
    ({ s with io := io' }.closeConnect be b.fd reason real_reason).Reported cfg := by
  have g' : { s with io := io' }.Registered := g.of_same same (g.reads.mono same)
  obtain ⟨b', hb', hfd, hcb⟩ := same.exists_of_bes live
  have hremove := g'.remove_eq hb' (hcb.trans (cb g.reads))
  rw [hfd] at hremove
  refine ⟨?_, p.id_eq, fun i _ he => absurd he (by simp [ClientState.closeConnect])⟩
  show (io'.remove be b.fd).closed = _ ++ [(be, b.fd)]
  have hold := p.closed_eq
  rw [pendingReport_eq_nil calm.close, List.append_nil] at hold
  change io'.remove be b.fd = _ at hremove
  rw [hremove]
  show io'.closed ++ [(be, b.fd)] = _
  rw [same.closed, hold]
  rfl

/-- With a free slot, the pending report is filled in. -/
theorem closeAlloc (p : s.Reported cfg) (h : s.RecvCustody cfg) (g : s.Registered) {be : ℕ}
    {fd reason real_reason : ℤ} (pc : s.ioPc = .closeAlloc be fd reason real_reason)
    (hfree : s.recv.slots.pool.freeSlots ≠ []) :
    (s.closeAlloc cfg be fd reason real_reason).Reported cfg := by
  have hold := p.closed_eq
  unfold pendingReport at hold
  rw [pc] at hold
  rcases h.closeAlloc_spec pc with ⟨hnil, -⟩ | ⟨i, -, hi, heq⟩
  · exact absurd hnil hfree
  rw [heq]
  -- The descriptor was accepted, so it fits into `from_fd`.
  have hrange : toShort fd = fd := by
    have hmem : (be, fd) ∈ s.io.closed := by
      rw [hold]
      exact List.mem_append_right _ (List.mem_singleton.mpr rfl)
    have := g.accepted_range _ (g.closed_accepted _ hmem)
    apply toShort_of_range
    simp only [FdTable.fdMax] at this
    omega
  refine ⟨?_, p.id_eq, fun j hj _ => ?_⟩
  · show s.io.closed = _ ++ (s.recv.alloc.slots.hand .io).toList.map _
    rw [hold, hi]
    simp only [RecvChannel.fill, Function.update_self, Option.toList_some, List.map_cons,
      List.map_nil, closeMsg, hrange]
    rfl
  · obtain rfl : i = j := Option.some.inj (hi.symm.trans hj)
    simp only [RecvChannel.fill, Function.update_self, closeMsg]

/-- The ring has room, and the pending report is the one that it gets. -/
theorem closePush (p : s.Reported cfg) (h : s.RecvCustody cfg) (pc : s.ioPc = .closePush) :
    s.closePush.Reported cfg := by
  obtain ⟨i, hi, -, hpushed, -⟩ := h.push_spec (by rw [pc]; rfl) .qDisconnect
  have hreports : s.closePush.reports = s.reports ++ [(.qDisconnect, s.recv.event i)] := by
    show ofSource .qDisconnect (s.recv.push .qDisconnect).pushed = _
    rw [hpushed, Merge.ofSource_append, Merge.ofSource_single_self]
    rfl
  refine ⟨?_, fun e he => ?_, fun j _ he => absurd he (by simp [ClientState.closePush])⟩
  · have hold := p.closed_eq
    unfold pendingReport at hold
    rw [pc] at hold
    simp only [hi] at hold
    rw [hreports, pendingReport_eq_nil rfl, List.append_nil, List.map_append]
    exact hold
  · rw [hreports] at he
    rcases List.mem_append.mp he with hmem | hnew
    · exact p.id_eq e hmem
    · rw [List.mem_singleton.mp hnew]
      exact p.pending_id i hi pc

/-- A step that satisfies the condition keeps the account of the reports. -/
theorem step (p : s.Reported cfg) (h : s.RecvCustody cfg) (g : s.Registered)
    (hok : s.ReportSlotFree a) (hstep : step cfg s a = some s') : s'.Reported cfg := by
  cases move_of_step hstep with
  | accept hpc =>
    refine p.of_calm ?_ rfl (by rw [hpc]; rfl) (by show s.ioPc.closing = false; rw [hpc]; rfl)
    rfl
  | quiet same _ calm calm' => exact p.of_calm same.closed rfl calm.close calm'.close
  | close same _ calm live cb => exact p.closeConnect g same calm live cb _ _
  | readAlloc pc =>
    have hpc : s.ioPc.closing = false := by rw [pc]; rfl
    rcases h.readAlloc_spec pc with ⟨-, heq⟩ | ⟨i, -, -, heq | ⟨m, -, heq⟩⟩ <;> rw [heq]
    · exact p.of_calm rfl rfl hpc rfl
    · exact p.of_calm rfl rfl hpc rfl
    · exact p.of_calm rfl rfl hpc rfl
  | readFree pc => exact p.of_calm rfl rfl (by rw [pc]; rfl) rfl
  | readPush pc =>
    obtain ⟨i, -, -, hpushed, -⟩ := h.push_spec (by rw [pc]; rfl) .qRecvIo
    -- A packet is no report.
    refine p.of_calm rfl ?_ (by rw [pc]; rfl) rfl
    show ofSource .qDisconnect (s.recv.push .qRecvIo).pushed = _
    rw [hpushed, Merge.ofSource_append, Merge.ofSource_single_of_ne (by decide), List.append_nil]
    rfl
  | closeAlloc pc =>
    have hfree : s.recv.slots.pool.freeSlots ≠ [] := by
      unfold ReportSlotFree at hok
      rw [pc] at hok
      exact hok
    exact p.closeAlloc h g pc hfree
  | closePush pc => exact p.closePush h pc
  | timePop pc =>
    obtain ⟨send, pc', heq, rfl | rfl⟩ := s.timePop_eq <;> rw [heq]
    · exact p.of_calm rfl rfl (by rw [pc]; rfl) rfl
    · exact p.of_calm rfl rfl (by rw [pc]; rfl) rfl
  | timeSend pc =>
    obtain ⟨io, pc', heq, same, ⟨rfl, -⟩ | ⟨last, rfl⟩⟩ := s.timeSend_eq <;> rw [heq]
    · exact p.of_calm same.closed rfl (by rw [pc]; rfl) rfl
    · exact p.of_calm same.closed rfl (by rw [pc]; rfl) rfl
  | @timeFree _ last pc =>
    obtain ⟨send, pc', heq, rfl | rfl⟩ := s.timeFree_eq last <;> rw [heq]
    · exact p.of_calm rfl rfl (by rw [pc]; rfl) rfl
    · exact p.of_calm rfl rfl (by rw [pc]; rfl) rfl
  | sampleRecv => exact p.of_logic rfl rfl rfl rfl rfl rfl
  | sampleDisconnect => exact p.of_logic rfl rfl rfl rfl rfl rfl
  | take pc =>
    have hpc : s.logicPc.recvHand = false := by rw [pc]; rfl
    rcases h.take_spec pc with
      ⟨-, -, heq⟩ | ⟨c, g, -, -, -, heq⟩ | ⟨r, i, hi, -, heq⟩ <;> rw [heq]
    · exact p.of_logic rfl rfl rfl rfl rfl rfl
    · exact p.of_logic rfl rfl rfl rfl rfl rfl
    · exact p.of_logic rfl rfl rfl (h.pop_hand_io hpc hi) rfl rfl
  | ret pc =>
    exact p.of_logic rfl rfl rfl (h.free_hand_io (by rw [pc]; rfl)) rfl rfl
  | sendAlloc =>
    obtain ⟨send, pc', heq⟩ := s.sendAlloc_eq _ _ _
    rw [heq]
    exact p.of_logic rfl rfl rfl rfl rfl rfl
  | sendPush => exact p.of_logic rfl rfl rfl rfl rfl rfl
  | sendFree => exact p.of_logic rfl rfl rfl rfl rfl rfl
  | setLimit => exact p.of_logic rfl rfl rfl rfl rfl rfl

end Reported

/-- A run whose steps satisfy the condition keeps the account of the reports. -/
theorem run_reported (run : Run cfg ReportSlotFree s) : s.Reported cfg :=
  run.invariant init_reported fun _ _ _ run p hok hstep =>
    p.step (run_recvCustody run) (run_registered run) hok hstep

/-- When packets have taken all the slots of the pool, a connection that ends is removed and never
reported. -/
theorem close_without_report : ∃ s, Run (smallConfig 2) anyStep s ∧ s.ioPc = .idle ∧
    (0, 5) ∈ s.io.accepted ∧ s.io.closed = [(0, 5)] ∧
    s.recv.pushed = [(.qRecvIo, ⟨1, 5, 1, 0⟩), (.qRecvIo, ⟨2, 5, 1, 0⟩)] := by
  have hexec : (exec (step (smallConfig 2)) (init (smallConfig 2)) (greeted ++ sendsPacket ++
      sendsPacket ++ [.event 0 0x11, .io 1])).map
      (fun s => (s.ioPc, s.io.closed, s.recv.pushed)) =
    some (.idle, [(0, 5)], [(.qRecvIo, ⟨1, 5, 1, 0⟩), (.qRecvIo, ⟨2, 5, 1, 0⟩)]) := by
    decide +kernel
  obtain ⟨s, hrun, hs⟩ := exists_run_of_exec hexec
  obtain ⟨hpc, hs⟩ := Prod.mk.inj hs
  obtain ⟨hclosed, hpushed⟩ := Prod.mk.inj hs
  have haccepted := (run_registered hrun).closed_accepted (0, 5) (by rw [hclosed]; simp)
  exact ⟨s, hrun, hpc, haccepted, hclosed, hpushed⟩

/-- In every run whose steps satisfy the condition, and outside `close_connect`, each connection
that was registered and removed has exactly one report in `q_disconnect`, with its descriptor and
the id of a disconnect report. -/
theorem closed_connections_reported (run : Run cfg ReportSlotFree s)
    (hpc : s.ioPc.closing = false) :
    (∀ c ∈ s.io.closed, c ∈ s.io.accepted) ∧
      ∀ c ∈ s.io.closed, ∃ e,
        (s.recv.pushed.filter fun p => p.1 = .qDisconnect ∧ p.2.conn = c.1) = [(.qDisconnect, e)] ∧
          e.fd = c.2 ∧ e.id = toShort cfg.disconnect_id := by
  have g := run_registered run
  have p := run_reported run
  have hclosed := p.closed_eq
  rw [pendingReport_eq_nil hpc, List.append_nil] at hclosed
  refine ⟨g.closed_accepted, fun c hc => ?_⟩
  -- The connections of the reports are those that were closed, each once.
  have hnodup : (s.reports.map fun e => e.2.conn).Nodup := by
    have h := g.closed_nodup
    rw [hclosed, List.map_map] at h
    exact h
  obtain ⟨e, he, hec⟩ : ∃ e ∈ s.reports, (e.2.conn, e.2.fd) = c := by
    rw [hclosed] at hc
    exact List.mem_map.mp hc
  obtain ⟨hconn, hfd⟩ := Prod.mk.inj hec
  refine ⟨e.2, ?_, hfd, p.id_eq e he⟩
  have hsource : e.1 = .qDisconnect := (Merge.mem_ofSource.mp he).2
  have hfilter : (s.recv.pushed.filter fun p => p.1 = .qDisconnect ∧ p.2.conn = c.1) =
      s.reports.filter fun p => p.2.conn = c.1 := by
    unfold reports ofSource
    rw [List.filter_filter]
    apply List.filter_congr
    intro p _
    simp [and_comm]
  rw [hfilter, ← hsource]
  show _ = [e]
  obtain ⟨l, l', hl⟩ := List.append_of_mem he
  rw [hl, List.map_append, List.map_cons] at hnodup
  have hother : ∀ p ∈ l ++ l', p.2.conn ≠ c.1 := by
    intro p hp heq
    obtain ⟨-, hcons, hdisj⟩ := List.nodup_append.mp hnodup
    rcases List.mem_append.mp hp with hl | hl'
    · exact hdisj p.2.conn (List.mem_map_of_mem hl) e.2.conn List.mem_cons_self
        (heq.trans hconn.symm)
    · have hnot := (List.nodup_cons.mp hcons).1
      rw [hconn, ← heq] at hnot
      exact hnot (List.mem_map_of_mem hl')
  rw [hl, List.filter_append, List.filter_cons, if_pos (by simpa using hconn)]
  rw [List.filter_eq_nil_iff.mpr fun p hp => by
      simpa using hother p (List.mem_append_left _ hp),
    List.filter_eq_nil_iff.mpr fun p hp => by
      simpa using hother p (List.mem_append_right _ hp)]
  rfl

/-- A client sends a packet and hangs up. -/
theorem closed_connections_reported_one : ∃ s, Run (smallConfig 2) ReportSlotFree s ∧
    s.io.closed = [(0, 5)] ∧ ∃ e,
      (s.recv.pushed.filter fun p => p.1 = .qDisconnect ∧ p.2.conn = 0) = [(.qDisconnect, e)] ∧
        e.fd = 5 ∧ e.id = toShort (smallConfig 2).disconnect_id := by
  let acts := greeted ++ sendsPacket ++ hangsUp
  have hexec : (exec (step (smallConfig 2)) (init (smallConfig 2)) acts).map
      (fun s => (s.io.closed, s.ioPc)) = some ([(0, 5)], .idle) := by decide +kernel
  have hok : execOk (step (smallConfig 2)) ReportSlotFree (init (smallConfig 2)) acts := by
    decide +kernel
  obtain ⟨s, hs, hval⟩ := Option.map_eq_some_iff.mp hexec
  obtain ⟨hclosed, hpc⟩ := Prod.mk.inj hval
  have hrun : Run (smallConfig 2) ReportSlotFree s := reach_of_exec .start hok hs
  have h := (closed_connections_reported hrun (by rw [hpc]; rfl)).2 (0, 5) (by rw [hclosed]; simp)
  exact ⟨s, hrun, hclosed, h⟩

end ClientState

end Catse
