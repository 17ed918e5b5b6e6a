import Catse.Admin.Custody
import Catse.Lib.Framing

/-!
# Requests of administrators

`cb_read` cuts what arrives on a connection into requests. `Requested` says that the frames of the
requests of a connection, with the bytes that are still in its buffer, are what has arrived, so that
nothing is skipped, read twice or taken for a part of another connection's stream, however the bytes
came in and whatever other connections did in between. Each request is for the descriptor of its
connection, and its length is in range.
-/

namespace Catse

/-- The requests of the connection `k`. -/
def requestsOf (askers : List ℕ) (put : List MsgAdmin) (k : ℕ) : List MsgAdmin :=
  ((askers.zip put).filter fun p => p.1 = k).map Prod.snd

/-- One more request is one of the connection that it came from. -/
theorem requestsOf_append {askers : List ℕ} {put : List MsgAdmin}
    (hlen : askers.length = put.length) (q : ℕ) (m : MsgAdmin) (k : ℕ) :
    requestsOf (askers ++ [q]) (put ++ [m]) k =
      requestsOf askers put k ++ if q = k then [m] else [] := by
  unfold requestsOf
  rw [List.zip_append hlen, List.filter_append, List.map_append]
  by_cases hq : q = k <;> simp [hq]

/-- A connection that asks nothing has no requests. -/
theorem requestsOf_eq_nil {askers : List ℕ} {put : List MsgAdmin} {k : ℕ} (hk : k ∉ askers) :
    requestsOf askers put k = [] := by
  unfold requestsOf
  rw [List.map_eq_nil_iff, List.filter_eq_nil_iff]
  intro p hp hpk
  exact hk (of_decide_eq_true hpk ▸ (List.of_mem_zip hp).1)

namespace AdminState

/-- A length that is not negative is the one that its four bytes have. -/
theorem readLen_bytes {b : Bufferevent} (hlen : 4 ≤ b.input.length) :
    leBytes 4 (readLen b % 2^32).toNat = b.input.take 4 := by
  have htake : (b.input.take 4).length = 4 := List.length_take_of_le hlen
  have hlt : ofLE (b.input.take 4) < 2^32 := by
    have h := ofLE_lt (b.input.take 4)
    rwa [htake] at h
  have hmod : readLen b % 2^32 = (ofLE (b.input.take 4) : ℤ) := by
    have hcast : ((2^32 : ℕ) : ℤ) = 2^32 := by norm_num
    unfold readLen toInt32
    rw [← hcast, Int.bmod_emod]
    exact Int.emod_eq_of_lt (Int.natCast_nonneg _) (Int.ofNat_lt.mpr hlt)
  rw [hmod, Int.toNat_natCast]
  have h := leBytes_ofLE (b.input.take 4)
  rwa [htake] at h

end AdminState

/-- The frame of a request is what it was read from. -/
theorem MsgAdmin.wire_of_read {b : Bufferevent} {m : MsgAdmin}
    (hlen : m.buf_len = AdminState.readLen b) (hpos : 0 ≤ m.buf_len)
    (hfits : m.buf_len + 4 ≤ b.input.length)
    (hbody : m.body = (b.input.drop 4).take m.buf_len.toNat) :
    m.wire ++ b.input.drop (4 + m.buf_len.toNat) = b.input := by
  have hbytes := AdminState.readLen_bytes (b := b) (by omega)
  rw [← hlen] at hbytes
  have hwire : m.wire = b.input.take 4 ++ (b.input.drop 4).take m.buf_len.toNat := by
    unfold MsgAdmin.wire
    rw [hbytes, hbody]
    by_cases hzero : m.buf_len = 0
    · rw [hzero]
      simp
    · rw [if_pos hzero]
  rw [hwire, List.append_assoc, ← List.drop_drop, List.take_append_drop, List.take_append_drop]

/-- What has arrived on a connection is its requests, and what is still to be read. -/
structure Requested (history : AdminHistory) (put : List MsgAdmin) (bes : ℕ → Option Bufferevent)
    (created : ℕ) : Prop where
  length : history.askers.length = put.length
  stream : ∀ k, ∃ rest,
    history.arrived k = streamOf MsgAdmin.wire (requestsOf history.askers put k) ++ rest ∧
      ∀ b, bes k = some b → b.input = rest
  requests : ∀ k, ∀ m ∈ requestsOf history.askers put k,
    m.fd = history.born k ∧ 0 ≤ m.buf_len ∧ m.buf_len ≤ MsgAdmin.bufSize
  later : ∀ k, created ≤ k → history.arrived k = [] ∧ k ∉ history.askers

namespace Requested

variable {history : AdminHistory} {put : List MsgAdmin} {bes : ℕ → Option Bufferevent}
  {created k : ℕ} {b : Bufferevent}

/-- The input of no connection changes, except that connections end. -/
theorem inputs (g : Requested history put bes created) {history' : AdminHistory}
    {bes' : ℕ → Option Bufferevent} (harrived : history'.arrived = history.arrived)
    (hborn : history'.born = history.born) (haskers : history'.askers = history.askers)
    (hbes : ∀ j c, bes' j = some c → ∃ c', bes j = some c' ∧ c.input = c'.input) :
    Requested history' put bes' created where
  length := by rw [haskers]; exact g.length
  stream j := by
    obtain ⟨rest, heq, hinput⟩ := g.stream j
    rw [harrived, haskers]
    refine ⟨rest, heq, fun c hc => ?_⟩
    obtain ⟨c', hc', hcc⟩ := hbes j c hc
    exact hcc.trans (hinput c' hc')
  requests := by rw [haskers, hborn]; exact g.requests
  later := by rw [harrived, haskers]; exact g.later

/-- A new connection. -/
theorem accept (g : Requested history put bes created) (fd : ℤ) (cb : Bool) :
    Requested { history with born := Function.update history.born created fd } put
      (Function.update bes created (some ⟨fd, [], [], cb⟩)) (created + 1) where
  length := g.length
  stream j := by
    obtain ⟨rest, heq, hinput⟩ := g.stream j
    refine ⟨rest, heq, fun c hc => ?_⟩
    by_cases hj : j = created
    · obtain ⟨hnil, hnot⟩ := g.later created (Nat.le_refl _)
      rw [hj, Function.update_self] at hc
      rw [hj, hnil, requestsOf_eq_nil hnot, streamOf_nil, List.nil_append] at heq
      rw [← Option.some.inj hc, ← heq]
    · rw [Function.update_of_ne hj] at hc
      exact hinput c hc
  requests j m hm := by
    obtain ⟨hfd, hrange⟩ := g.requests j m hm
    refine ⟨hfd.trans (Function.update_of_ne ?_ _ _).symm, hrange⟩
    rintro rfl
    rw [requestsOf_eq_nil (g.later j (Nat.le_refl _)).2] at hm
    exact absurd hm (by simp)
  later j hj := g.later j (Nat.le_of_succ_le hj)

/-- More bytes arrive. -/
theorem arrive (g : Requested history put bes created) (hb : bes k = some b) (hk : k < created)
    (bytes : List UInt8) :
    Requested { history with
      arrived := Function.update history.arrived k (history.arrived k ++ bytes) } put
      (Function.update bes k (some { b with input := b.input ++ bytes })) created where
  length := g.length
  stream j := by
    obtain ⟨rest, heq, hinput⟩ := g.stream j
    by_cases hj : j = k
    · subst hj
      refine ⟨rest ++ bytes, ?_, fun c hc => ?_⟩
      · show Function.update history.arrived j _ j = _
        rw [Function.update_self, heq, List.append_assoc]
      · rw [Function.update_self] at hc
        rw [← Option.some.inj hc]
        show b.input ++ bytes = rest ++ bytes
        rw [hinput b hb]
    · refine ⟨rest, (Function.update_of_ne hj _ _).trans heq, fun c hc => ?_⟩
      rw [Function.update_of_ne hj] at hc
      exact hinput c hc
  requests := g.requests
  later j hj := ⟨(Function.update_of_ne (by omega) _ _).trans (g.later j hj).1, (g.later j hj).2⟩

/-- A request is pushed. -/
theorem request (g : Requested history put bes created) (hb : bes k = some b) (hk : k < created)
    {m : MsgAdmin} (hfd : m.fd = history.born k) (hlen : m.buf_len = AdminState.readLen b)
    (hrange : 0 ≤ m.buf_len ∧ m.buf_len ≤ MsgAdmin.bufSize)
    (hfits : m.buf_len + 4 ≤ b.input.length)
    (hbody : m.body = (b.input.drop 4).take m.buf_len.toNat) :
    Requested { history with askers := history.askers ++ [k] } (put ++ [m])
      (Function.update bes k (some { b with input := b.input.drop (4 + m.buf_len.toNat) }))
      created where
  length := by
    show (history.askers ++ [k]).length = _
    rw [List.length_append, List.length_append, g.length]
    rfl
  stream j := by
    obtain ⟨rest, heq, hinput⟩ := g.stream j
    show ∃ rest, history.arrived j =
      streamOf _ (requestsOf (history.askers ++ [k]) (put ++ [m]) j) ++ rest ∧ _
    rw [requestsOf_append g.length]
    -- The stream of `k` has one frame more, which is what leaves its input.
    by_cases hj : j = k
    · subst hj
      refine ⟨b.input.drop (4 + m.buf_len.toNat), ?_, fun c hc => ?_⟩
      · rw [if_pos rfl, streamOf_append, List.append_assoc, streamOf_cons, streamOf_nil,
          List.append_nil, MsgAdmin.wire_of_read hlen hrange.1 hfits hbody, heq, hinput b hb]
      · rw [Function.update_self] at hc
        rw [← Option.some.inj hc]
    · refine ⟨rest, ?_, fun c hc => ?_⟩
      · rw [if_neg (Ne.symm hj), List.append_nil]
        exact heq
      · rw [Function.update_of_ne hj] at hc
        exact hinput c hc
  requests j m' hm' := by
    change m' ∈ requestsOf (history.askers ++ [k]) (put ++ [m]) j at hm'
    rw [requestsOf_append g.length] at hm'
    rcases List.mem_append.mp hm' with hm' | hm'
    · exact g.requests j m' hm'
    · by_cases hj : k = j
      · rw [if_pos hj, List.mem_singleton] at hm'
        rw [hm', ← hj]
        exact ⟨hfd, hrange⟩
      · rw [if_neg hj] at hm'
        exact absurd hm' (by simp)
  later j hj := by
    refine ⟨(g.later j hj).1, fun hmem => ?_⟩
    rcases List.mem_append.mp hmem with hmem | hmem
    · exact (g.later j hj).2 hmem
    · rw [List.mem_singleton] at hmem
      omega

end Requested

namespace AdminState

variable {n : ℕ} {list list' : ℕ → MsgAdmin} {s s' : AdminState}

/-- Every move keeps it. -/
theorem Safe.requested (g : s.Safe n) (h : Requested s.history s.recv.put s.bes s.created)
    (move : AdminMove s s') : Requested s'.history s'.recv.put s'.bes s'.created := by
  cases move with
  | quiet recvPut => exact recvPut ▸ h
  | accept => exact h.accept _ _
  | arrive bytes _ live => exact h.arrive live (g.listed.created _ _ live) bytes
  | @close k b recv recvPut _ _ live =>
    -- A connection that ends has no input any more, so nothing is asked of it.
    show Requested s.history recv.put (Function.update s.bes k none) s.created
    rw [recvPut]
    refine h.inputs rfl rfl rfl fun j c hc => ?_
    by_cases hj : j = k
    · rw [hj, Function.update_self] at hc
      exact absurd hc (by simp)
    · rw [Function.update_of_ne hj] at hc
      exact ⟨c, hc, rfl⟩
  | @request k b m recv _ live _ len range fits body fd recvPut =>
    show Requested { s.history with askers := s.history.askers ++ [k] } recv.put
      (Function.update s.bes k (some { b with input := b.input.drop (4 + m.buf_len.toNat) }))
      s.created
    rw [recvPut]
    exact h.request live (g.listed.created _ _ live) (fd.trans (g.listed.born _ _ live).symm) len
      range fits body
  | take _ recvPut => exact recvPut ▸ h
  | handled _ _ recvPut => exact recvPut ▸ h
  | answer => exact h.inputs rfl rfl rfl fun j c hc => ⟨c, hc, rfl⟩
  | pop => exact h
  | drop => exact h
  | @deliver m k b send _ _ _ live =>
    -- What is written to a connection does not change its input.
    refine h.inputs rfl rfl rfl fun j c hc => ?_
    change Function.update s.bes k _ j = some c at hc
    by_cases hj : j = k
    · rw [hj, Function.update_self] at hc
      exact ⟨b, hj ▸ live, (congrArg Bufferevent.input (Option.some.inj hc)).symm⟩
    · rw [Function.update_of_ne hj] at hc
      exact ⟨c, hc, rfl⟩

/-- The invariant holds in every state of every run. -/
theorem run_requested (run : Run n list list' s) :
    Requested s.history s.recv.put s.bes s.created := by
  refine run.invariant (I := fun s => Requested s.history s.recv.put s.bes s.created) ?_
    fun s a s' run h _ hstep => ?_
  · exact ⟨rfl, fun k => ⟨[], rfl, fun b hb => absurd hb (by simp [init])⟩,
      fun k m hm => absurd hm (by simp [init, requestsOf]), fun k _ => ⟨rfl, by simp [init]⟩⟩
  · have g := run_safe run
    exact g.requested h (g.step hstep).2

/-- In every state of every run, what has arrived on a connection is the frames of its requests and
what is still to be read, and the logic thread has got the first of all requests, in order. -/
theorem requests_in_order (run : Run n list list' s) :
    s.recv.put = s.recv.got ++ s.recv.queue ∧
      ∀ k, (∃ rest, s.history.arrived k =
          streamOf MsgAdmin.wire (requestsOf s.history.askers s.recv.put k) ++ rest ∧
          ∀ b, s.bes k = some b → b.input = rest) ∧
        ∀ m ∈ requestsOf s.history.askers s.recv.put k,
          m.fd = s.history.born k ∧ 0 ≤ m.buf_len ∧ m.buf_len ≤ MsgAdmin.bufSize := by
  have h := run_requested run
  exact ⟨(run_safe run).recv.fifo, fun k => ⟨h.stream k, h.requests k⟩⟩

theorem requests_in_order_one : ∃ s : AdminState, s.recv.got.map MsgAdmin.body = [[65]] ∧
    s.recv.put = s.recv.got ++ s.recv.queue ∧
      ∀ k, (∃ rest, s.history.arrived k =
          streamOf MsgAdmin.wire (requestsOf s.history.askers s.recv.put k) ++ rest ∧
          ∀ b, s.bes k = some b → b.input = rest) ∧
        ∀ m ∈ requestsOf s.history.askers s.recv.put k,
          m.fd = s.history.born k ∧ 0 ≤ m.buf_len ∧ m.buf_len ≤ MsgAdmin.bufSize := by
  have hexec : ((exec step (init 1 zeros zeros) oneReply).map fun s =>
      s.recv.got.map MsgAdmin.body) = some [[65]] := by
    decide +kernel
  obtain ⟨s, hs, hgot⟩ := Option.map_eq_some_iff.mp hexec
  have run : Run 1 zeros zeros s := reach_of_exec .start (execOk_any _ _ _) hs
  exact ⟨s, hgot, requests_in_order run⟩

end AdminState

end Catse
