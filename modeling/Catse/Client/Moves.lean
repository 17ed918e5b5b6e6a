import Catse.Client.Machine

/-!
# What a step of the client path can do

`Move cfg s a s'` lists the steps by what they do to the pools, the rings and the connections, with
the parts of the code that touch none of these as one case (`quiet`) and everything that ends in
`close_connect` as another (`close`). `move_of_step` is the only place where `step` and the bodies
of `cb_read` are taken apart; every invariant is a case analysis on `Move`.
-/

namespace Catse

namespace IoPc

/-- Is a `msg_recv` slot in the io thread's hand? -/
def recvHand : IoPc → Bool
  | .readFree | .readPush .. | .closePush => true
  | _ => false

/-- Is a `msg_send` slot in the io thread's hand? -/
def sendHand : IoPc → Bool
  | .timeSend | .timeFree _ => true
  | _ => false

/-- Is the io thread in `close_connect`? -/
def closing : IoPc → Bool
  | .closeAlloc .. | .closePush => true
  | _ => false

/-- No slot in hand, and not in `close_connect`. -/
structure Calm (pc : IoPc) : Prop where
  recv : pc.recvHand = false
  send : pc.sendHand = false
  close : pc.closing = false

/-- The connection that `cb_read` works on is live and has callbacks. -/
def Reads (io : ThreadIo) : IoPc → Prop
  | .readLoop be _ => ∃ b, io.bes be = some b ∧ b.cb = true
  | .readAlloc be _ fd _ _ => ∃ b, io.bes be = some b ∧ b.cb = true ∧ b.fd = fd
  | .readPush be _ => ∃ b, io.bes be = some b ∧ b.cb = true
  | _ => True

end IoPc

/-- The same connections, up to the bytes in their buffers. -/
structure SameConns (io io' : ThreadIo) : Prop where
  table : io'.table = io.table
  created : io'.created = io.created
  accepted : io'.accepted = io.accepted
  closed : io'.closed = io.closed
  bes : ∀ be, (io'.bes be).map (fun b => (b.fd, b.cb)) = (io.bes be).map fun b => (b.fd, b.cb)

namespace SameConns

variable {io io' : ThreadIo}

theorem refl (io : ThreadIo) : SameConns io io := ⟨rfl, rfl, rfl, rfl, fun _ => rfl⟩

/-- Replacing a live bufferevent by one that differs in its buffers. -/
theorem update {be : ℕ} {b b' : Bufferevent} (hb : io.bes be = some b) (hfd : b'.fd = b.fd)
    (hcb : b'.cb = b.cb) (w : Websocket) (f : ℤ → Bool) :
    SameConns io { io with
      bes := Function.update io.bes be (some b'), websocket := w, fd2websocket := f } where
  table := rfl
  created := rfl
  accepted := rfl
  closed := rfl
  bes k := by
    by_cases hk : k = be
    · subst hk
      simp [hb, hfd, hcb]
    · simp [hk]

/-- A live bufferevent is live on the other side, with the same socket and callbacks. -/
theorem exists_of_bes (h : SameConns io io') {be : ℕ} {b : Bufferevent}
    (hb : io.bes be = some b) : ∃ b', io'.bes be = some b' ∧ b'.fd = b.fd ∧ b'.cb = b.cb := by
  have hmap := h.bes be
  rw [hb] at hmap
  cases hb' : io'.bes be with
  | none => rw [hb'] at hmap; simp at hmap
  | some b' =>
    rw [hb'] at hmap
    obtain ⟨hfd, hcb⟩ := Prod.mk.injEq .. ▸ (Option.some.inj hmap)
    exact ⟨b', rfl, hfd, hcb⟩

theorem symm (h : SameConns io io') : SameConns io' io :=
  ⟨h.table.symm, h.created.symm, h.accepted.symm, h.closed.symm, fun be => (h.bes be).symm⟩

theorem trans {io'' : ThreadIo} (h : SameConns io io') (h' : SameConns io' io'') :
    SameConns io io'' :=
  ⟨h'.table.trans h.table, h'.created.trans h.created, h'.accepted.trans h.accepted,
    h'.closed.trans h.closed, fun be => (h'.bes be).trans (h.bes be)⟩

/-- `send_msg` changes the output buffer of a connection. -/
theorem sendMsg (io : ThreadIo) (m : MsgSend) (addressed : Option (ℤ × Option ℕ)) (fd : ℤ) :
    SameConns io (io.sendMsg m addressed fd) := by
  unfold ThreadIo.sendMsg
  split_ifs
  · split
    · exact refl io
    · rename_i be _
      refine ⟨rfl, rfl, rfl, rfl, fun k => ?_⟩
      by_cases hk : k = be
      · subst hk
        simp only [Function.update_self, Option.map_map]
        rfl
      · simp only [Function.update_of_ne hk]
  · exact refl io

/-- So does a whole delivery. -/
theorem sendAll (m : MsgSend) (addressed : Option (ℤ × Option ℕ)) (fds : List ℤ) (io : ThreadIo) :
    SameConns io (fds.foldl (fun io fd => io.sendMsg m addressed fd) io) := by
  induction fds generalizing io with
  | nil => exact refl io
  | cons fd fds ih => exact (sendMsg io m addressed fd).trans (ih _)

end SameConns

/-- The steps of the client path, by what they do. -/
inductive Move (cfg : ClientConfig) (s : ClientState) : ClientAction → ClientState → Prop where
  | accept {fd : ℤ} (idle : s.ioPc = .idle) (nonneg : 0 ≤ fd) (closed : s.io.isOpen fd = false) :
      Move cfg s (.accept fd) { s with io := s.io.cbListener fd }
  | quiet {a : ClientAction} {io' : ThreadIo} {pk' : PkLimit} {pc' : IoPc}
      (same : SameConns s.io io') (delivered : io'.delivered = s.io.delivered)
      (calm : s.ioPc.Calm) (calm' : pc'.Calm)
      (reads : s.ioPc.Reads s.io → pc'.Reads s.io) :
      Move cfg s a { s with io := io', pk := pk', ioPc := pc' }
  | close {a : ClientAction} {io' : ThreadIo} {be : ℕ} {b : Bufferevent}
      {reason real_reason : ℤ} (same : SameConns s.io io')
      (delivered : io'.delivered = s.io.delivered) (calm : s.ioPc.Calm)
      (live : s.io.bes be = some b) (cb : s.ioPc.Reads s.io → b.cb = true) :
      Move cfg s a ({ s with io := io' }.closeConnect be b.fd reason real_reason)
  | readAlloc {now : ℤ} {be : ℕ} {cur_time fd id len : ℤ}
      (pc : s.ioPc = .readAlloc be cur_time fd id len) :
      Move cfg s (.io now) (s.readAlloc be cur_time fd id len)
  | readFree {now : ℤ} (pc : s.ioPc = .readFree) : Move cfg s (.io now) s.readFree
  | readPush {now : ℤ} {be : ℕ} {cur_time : ℤ} (pc : s.ioPc = .readPush be cur_time) :
      Move cfg s (.io now) (s.readPush be cur_time)
  | closeAlloc {now : ℤ} {be : ℕ} {fd reason real_reason : ℤ}
      (pc : s.ioPc = .closeAlloc be fd reason real_reason) :
      Move cfg s (.io now) (s.closeAlloc cfg be fd reason real_reason)
  | closePush {now : ℤ} (pc : s.ioPc = .closePush) : Move cfg s (.io now) s.closePush
  | timePop {now : ℤ} (pc : s.ioPc = .timePop) : Move cfg s (.io now) s.timePop
  | timeSend {now : ℤ} (pc : s.ioPc = .timeSend) : Move cfg s (.io now) s.timeSend
  | timeFree {now : ℤ} {last : Bool} (pc : s.ioPc = .timeFree last) :
      Move cfg s (.io now) (s.timeFree last)
  | sampleRecv (pc : s.logicPc = .idle) (send : s.sendPc = .idle) :
      Move cfg s .logic s.sampleRecv
  | sampleDisconnect {cg : Option ℕ} (pc : s.logicPc = .sampledRecv cg) (send : s.sendPc = .idle) :
      Move cfg s .logic (s.sampleDisconnect cg)
  | take {cg gg : Option ℕ} (pc : s.logicPc = .sampled cg gg) (send : s.sendPc = .idle) :
      Move cfg s .logic (s.take cg gg)
  | ret (pc : s.logicPc = .handling) (send : s.sendPc = .idle) : Move cfg s .logic s.ret
  | sendAlloc {k : SendKind} {proto_id : ℤ} {written : Option (List UInt8 × ℤ)}
      (pc : s.logicPc = .idle ∨ s.logicPc = .handling) (send : s.sendPc = .idle) :
      Move cfg s (.send k proto_id written) (s.sendAlloc k proto_id written)
  | sendPush (pc : s.sendPc = .push) : Move cfg s .logic s.sendPush
  | sendFree (pc : s.sendPc = .free) : Move cfg s .logic s.sendFree
  | setLimit {key second cnt : Double} {pk' : PkLimit} :
      Move cfg s (.setLimit key second cnt) { s with pk := pk' }

namespace ClientState

variable {cfg : ClientConfig} {s s' : ClientState} {a : ClientAction}

private theorem calm_idle : IoPc.idle.Calm := ⟨rfl, rfl, rfl⟩

private theorem calm_readLoop (be : ℕ) (cur_time : ℤ) : (IoPc.readLoop be cur_time).Calm :=
  ⟨rfl, rfl, rfl⟩

/-- `cb_read` up to its loop. -/
theorem cbRead_move {be : ℕ} {b : Bufferevent} (hpc : s.ioPc = .idle) (hb : s.io.bes be = some b)
    (hcb : b.cb = true) (bytes : List UInt8) : Move cfg s a (s.cbRead cfg be b bytes) := by
  have calm : s.ioPc.Calm := hpc ▸ calm_idle
  unfold cbRead
  split
  · exact .close (.refl _) rfl calm hb fun _ => hcb
  split
  · exact .quiet (.update hb (by rfl) (by rfl) _ _) rfl calm (calm_readLoop be 0) fun _ =>
      ⟨b, hb, hcb⟩
  dsimp only
  split
  · exact .quiet (.refl _) rfl calm ⟨rfl, rfl, rfl⟩ fun _ => trivial
  · exact .quiet (.update hb (by rfl) (by rfl) _ _) rfl calm calm id

/-- The connection after `handle_packet`. -/
def drained (s : ClientState) (be : ℕ) (b : Bufferevent) : ThreadIo :=
  { s.io with
    bes := Function.update s.io.bes be
      (some { b with input := (s.io.websocket.handlePacket b.input).rest })
    websocket := (s.io.websocket.handlePacket b.input).ws }

/-- `readLoop` returns on too short an input. After a call of `handle_packet` it returns or goes on,
closes the connection, or asks the rate limit, which decides whether the packet goes on to
`alloc`. -/
theorem readLoop_spec {be : ℕ} {b : Bufferevent} (hb : s.io.bes be = some b) (cur_time now : ℤ) :
    s.readLoop be cur_time now = { s with ioPc := .idle } ∨
    (∃ pc, s.readLoop be cur_time now = { s with io := s.drained be b, ioPc := pc } ∧
      (pc = .idle ∨ pc = .readLoop be cur_time)) ∨
    (∃ reason, s.readLoop be cur_time now =
      { s with io := s.drained be b }.closeConnect be b.fd reason 0) ∨
    ∃ t id len, t = (if cur_time = 0 then now else cur_time) ∧ s.readLoop be cur_time now =
      { s with
        io := s.drained be b
        pk := (s.pk.checkPkLimit t b.fd id).2
        ioPc := if (s.pk.checkPkLimit t b.fd id).1 ≠ .ok then .readLoop be t
          else .readAlloc be t b.fd id len } := by
  unfold readLoop drained
  rw [hb]
  dsimp only
  generalize s.io.websocket.handlePacket b.input = e
  -- The returns of the loop, in their order.
  by_cases hshort : b.input.length < 6
  · rw [if_pos hshort]
    exact .inl rfl
  rw [if_neg hshort]
  right
  by_cases hzero : e.ret = 0
  · rw [if_pos hzero]
    exact .inl ⟨_, rfl, .inr rfl⟩
  rw [if_neg hzero]
  by_cases hclose : e.ret = -1
  · rw [if_pos hclose]
    exact .inr (.inl ⟨_, rfl⟩)
  rw [if_neg hclose]
  by_cases hpart : e.ret = -2
  · rw [if_pos hpart]
    exact .inl ⟨_, rfl, .inl rfl⟩
  rw [if_neg hpart]
  generalize toShort (ofBE (e.ws.buf.take 2)) = len
  generalize toShort (ofBE ((e.ws.buf.drop 2).take 2)) = id
  by_cases hlen : ¬(0 ≤ len ∧ len ≤ MsgRecv.bufSize)
  · rw [if_pos hlen]
    exact .inr (.inl ⟨_, rfl⟩)
  rw [if_neg hlen]
  by_cases hret : e.ret ≠ len + 4
  · rw [if_pos hret]
    exact .inl ⟨_, rfl, .inl rfl⟩
  rw [if_neg hret]
  by_cases hnone : (s.io.table.fd2be b.fd).isNone
  · rw [if_pos hnone]
    exact .inl ⟨_, rfl, .inl rfl⟩
  rw [if_neg hnone]
  -- A packet that is complete, of a connection that is registered.
  exact .inr (.inr ⟨_, id, len, rfl, rfl⟩)

/-- Without the connection it crashes. -/
theorem readLoop_none {be : ℕ} (hb : s.io.bes be = none) (cur_time now : ℤ) :
    s.readLoop be cur_time now = { s with ioPc := .crashed } := by
  rw [readLoop, hb]

/-- One iteration of the loop of `cb_read` up to `alloc`. -/
theorem readLoop_move {be : ℕ} {cur_time : ℤ} (hpc : s.ioPc = .readLoop be cur_time) (now : ℤ) :
    Move cfg s a (s.readLoop be cur_time now) := by
  have calm : s.ioPc.Calm := hpc ▸ calm_readLoop be cur_time
  cases hb : s.io.bes be with
  | none =>
    rw [readLoop_none hb]
    exact .quiet (.refl _) rfl calm ⟨rfl, rfl, rfl⟩ fun _ => trivial
  | some b =>
    have hreads : s.ioPc.Reads s.io → ∃ b, s.io.bes be = some b ∧ b.cb = true := by
      rw [hpc]
      exact fun hr => hr
    have hcb : s.ioPc.Reads s.io → b.cb = true := by
      intro hr
      obtain ⟨b', hb', hcb⟩ := hreads hr
      rwa [Option.some.inj (hb.symm.trans hb')]
    have same : SameConns s.io (s.drained be b) := .update hb (by rfl) (by rfl) _ _
    rcases readLoop_spec hb cur_time now with
      heq | ⟨pc, heq, rfl | rfl⟩ | ⟨reason, heq⟩ | ⟨t, id, len, -, heq⟩ <;> rw [heq]
    · exact .quiet (.refl _) rfl calm calm_idle fun _ => trivial
    · exact .quiet same rfl calm calm_idle fun _ => trivial
    · exact .quiet same rfl calm (calm_readLoop be cur_time) hreads
    · exact .close same rfl calm hb hcb
    · refine .quiet same rfl calm ?_ ?_
      · split_ifs
        · exact calm_readLoop be t
        · exact ⟨rfl, rfl, rfl⟩
      · intro hr
        split_ifs
        · exact hreads hr
        · exact ⟨b, hb, hcb hr, rfl⟩

/-- Every step is one of the moves. -/
theorem move_of_step (h : step cfg s a = some s') : Move cfg s a s' := by
  cases a with
  | accept fd =>
    obtain ⟨⟨hpc, h0, hopen⟩, h⟩ := Option.ite_none_right_eq_some.mp h
    obtain rfl := Option.some.inj h
    exact .accept hpc h0 hopen
  | read be bytes =>
    -- Bytes that the watermark keeps from `cb_read` only wait in the input.
    simp only [step] at h
    split at h
    · exact absurd h (by simp)
    rename_i b hb
    obtain ⟨⟨hpc, hcb, -⟩, h⟩ := Option.ite_none_right_eq_some.mp h
    split at h <;> obtain rfl := Option.some.inj h
    · exact .quiet (.update hb (by rfl) (by rfl) _ _) rfl (hpc ▸ calm_idle) (hpc ▸ calm_idle) id
    · exact cbRead_move hpc hb hcb bytes
  | event be nEvents =>
    simp only [step] at h
    split at h
    · exact absurd h (by simp)
    rename_i b hb
    obtain ⟨⟨hpc, hcb⟩, h⟩ := Option.ite_none_right_eq_some.mp h
    obtain rfl := Option.some.inj h
    exact .close (.refl _) rfl (hpc ▸ calm_idle) hb fun _ => hcb
  | tick =>
    obtain ⟨hpc, h⟩ := Option.ite_none_right_eq_some.mp h
    obtain rfl := Option.some.inj h
    exact .quiet (.refl _) rfl (hpc ▸ calm_idle) ⟨rfl, rfl, rfl⟩ fun _ => trivial
  | io now =>
    -- One constructor for each program counter of the io thread; it has no step from the idle one.
    simp only [step, ioNext] at h
    split at h <;> cases h
    case h_2 hpc => exact readLoop_move hpc now
    case h_3 hpc => exact .readAlloc hpc
    case h_4 hpc => exact .readFree hpc
    case h_5 hpc => exact .readPush hpc
    case h_6 hpc => exact .closeAlloc hpc
    case h_7 hpc => exact .closePush hpc
    case h_8 hpc => exact .timePop hpc
    case h_9 hpc => exact .timeSend hpc
    case h_10 hpc => exact .timeFree hpc
  | logic =>
    -- While a message is on its way out nothing else goes on.
    simp only [step, logicNext] at h
    split at h <;> cases h
    case h_1 hsend => exact .sendPush hsend
    case h_2 hsend => exact .sendFree hsend
    case h_3 hsend hpc => exact .sampleRecv hpc hsend
    case h_4 hsend hpc => exact .sampleDisconnect hpc hsend
    case h_5 hsend hpc => exact .take hpc hsend
    case h_6 hsend hpc => exact .ret hpc hsend
  | send k proto_id written =>
    obtain ⟨hlua, h⟩ := Option.ite_none_right_eq_some.mp h
    obtain rfl := Option.some.inj h
    obtain ⟨hpc, hsend⟩ := of_decide_eq_true hlua
    exact .sendAlloc hpc hsend
  | setLimit key second cnt =>
    obtain ⟨-, h⟩ := Option.ite_none_right_eq_some.mp h
    obtain ⟨pk', -, rfl⟩ := Option.map_eq_some_iff.mp h
    exact .setLimit

/-! ## What the bodies of the io thread come to -/

/-- A step of the io thread goes on where the program counter says. -/
theorem step_io_eq {now : ℤ} (h : step cfg s (.io now) = some s') :
    match s.ioPc with
    | .idle => False
    | .readLoop be cur_time => s' = s.readLoop be cur_time now
    | .readAlloc be cur_time fd id len => s' = s.readAlloc be cur_time fd id len
    | .readFree => s' = s.readFree
    | .readPush be cur_time => s' = s.readPush be cur_time
    | .closeAlloc be fd reason real_reason => s' = s.closeAlloc cfg be fd reason real_reason
    | .closePush => s' = s.closePush
    | .timePop => s' = s.timePop
    | .timeSend => s' = s.timeSend
    | .timeFree last => s' = s.timeFree last
    | .crashed => False := by
  change s.ioNext cfg now = some s' at h
  unfold ioNext at h
  generalize s.ioPc = pc at h ⊢
  cases pc with
  | idle => exact absurd h (by simp)
  | crashed => exact absurd h (by simp)
  | _ => exact (Option.some.inj h).symm

/-- A step of the logic thread goes on where the program counters say. -/
theorem step_logic_eq (h : step cfg s .logic = some s') :
    match s.sendPc, s.logicPc with
    | .push, _ => s' = s.sendPush
    | .free, _ => s' = s.sendFree
    | .idle, .idle => s' = s.sampleRecv
    | .idle, .sampledRecv cg => s' = s.sampleDisconnect cg
    | .idle, .sampled cg gg => s' = s.take cg gg
    | .idle, .handling => s' = s.ret
    | .idle, .fault => False := by
  change s.logicNext = some s' at h
  unfold logicNext at h
  generalize s.sendPc = sendPc at h ⊢
  generalize s.logicPc = logicPc at h ⊢
  cases sendPc with
  | push => exact (Option.some.inj h).symm
  | free => exact (Option.some.inj h).symm
  | idle =>
    cases logicPc with
    | fault => exact absurd h (by simp)
    | _ => exact (Option.some.inj h).symm

/-- With the calls of the rate limit left open. -/
theorem readLoop_cases {be : ℕ} {b : Bufferevent} (hb : s.io.bes be = some b) (cur_time now : ℤ) :
    s.readLoop be cur_time now = { s with ioPc := .idle } ∨
    (∃ pk pc, s.readLoop be cur_time now = { s with io := s.drained be b, pk := pk, ioPc := pc } ∧
      (pc = .idle ∨ (∃ t, pc = .readLoop be t) ∨ ∃ t id len, pc = .readAlloc be t b.fd id len)) ∨
    ∃ reason, s.readLoop be cur_time now =
      { s with io := s.drained be b }.closeConnect be b.fd reason 0 := by
  rcases readLoop_spec hb cur_time now with
    heq | ⟨pc, heq, hpc⟩ | ⟨reason, heq⟩ | ⟨t, id, len, -, heq⟩
  · exact .inl heq
  · exact .inr (.inl ⟨s.pk, pc, heq, hpc.imp_right fun hpc => .inl ⟨_, hpc⟩⟩)
  · exact .inr (.inr ⟨reason, heq⟩)
  · refine .inr (.inl ⟨_, _, heq, .inr ?_⟩)
    split_ifs
    · exact .inl ⟨t, rfl⟩
    · exact .inr ⟨t, id, len, rfl⟩

/-- `cbRead` closes a connection whose descriptor is out of range. Otherwise it enters the loop
after the handshake, and calls `hand_shake` before. -/
theorem cbRead_cases (cfg : ClientConfig) (s : ClientState) (be : ℕ) (b : Bufferevent)
    (bytes : List UInt8) :
    (¬(0 ≤ b.fd ∧ b.fd < FdTable.fdMax) ∧
      ∃ reason, s.cbRead cfg be b bytes = s.closeConnect be b.fd reason 0) ∨
    (s.io.fd2websocket b.fd = true ∧ s.cbRead cfg be b bytes =
      { s with
        io := { s.io with
          bes := Function.update s.io.bes be (some { b with input := b.input ++ bytes }) }
        ioPc := .readLoop be 0 }) ∨
    (s.io.fd2websocket b.fd = false ∧
      s.io.websocket.handShake cfg.accept (b.input ++ bytes) = .crash ∧
      s.cbRead cfg be b bytes = { s with ioPc := .crashed }) ∨
    s.io.fd2websocket b.fd = false ∧ ∃ e,
      s.io.websocket.handShake cfg.accept (b.input ++ bytes) = .done e ∧
      s.cbRead cfg be b bytes =
        { s with io := { s.io with
          bes := Function.update s.io.bes be
            (some { b with input := e.rest, output := b.output ++ e.out })
          websocket := e.ws
          fd2websocket :=
            if e.ret then Function.update s.io.fd2websocket b.fd true else s.io.fd2websocket } } :=
              by
  unfold cbRead
  dsimp only
  -- The three conditions of the source, in their order.
  by_cases hrange : ¬(0 ≤ b.fd ∧ b.fd < FdTable.fdMax)
  · rw [if_pos hrange]
    exact Or.inl ⟨hrange, _, rfl⟩
  rw [if_neg hrange]
  right
  by_cases hdone : s.io.fd2websocket b.fd = true
  · rw [if_pos hdone]
    exact Or.inl ⟨hdone, rfl⟩
  rw [if_neg hdone]
  right
  have hnot : s.io.fd2websocket b.fd = false := Bool.eq_false_iff.mpr hdone
  cases hshake : s.io.websocket.handShake cfg.accept (b.input ++ bytes) with
  | crash => exact Or.inl ⟨hnot, rfl, rfl⟩
  | done e => exact Or.inr ⟨hnot, e, rfl, rfl⟩

/-! ## What a step leaves alone -/

/-- `readAlloc` changes the messages from clients. -/
theorem readAlloc_eq (s : ClientState) (be : ℕ) (cur_time fd id len : ℤ) :
    ∃ recv pc, s.readAlloc be cur_time fd id len = { s with recv := recv, ioPc := pc } ∧
      (pc = .idle ∨ pc = .readFree ∨ pc = .readPush be cur_time) := by
  unfold readAlloc
  dsimp only
  split
  · exact ⟨_, _, rfl, .inl rfl⟩
  · split
    · exact ⟨_, _, rfl, .inr (.inl rfl)⟩
    · exact ⟨_, _, rfl, .inr (.inr rfl)⟩

/-- `closeAlloc` changes the messages from clients. -/
theorem closeAlloc_eq (cfg : ClientConfig) (s : ClientState) (be : ℕ) (fd reason real_reason : ℤ) :
    ∃ recv pc, s.closeAlloc cfg be fd reason real_reason = { s with recv := recv, ioPc := pc } ∧
      (pc = .idle ∨ pc = .closePush) := by
  unfold closeAlloc
  dsimp only
  split
  · exact ⟨_, _, rfl, .inl rfl⟩
  · exact ⟨_, _, rfl, .inr rfl⟩

/-- `timePop` changes the slots of the messages to clients. -/
theorem timePop_eq (s : ClientState) :
    ∃ slots pc, s.timePop = { s with send := { s.send with slots := slots }, ioPc := pc } ∧
      (pc = .idle ∨ pc = .timeSend) := by
  refine ⟨_, _, rfl, ?_⟩
  split
  · exact .inr rfl
  · exact .inl rfl

/-- `timeSend` changes output buffers. -/
theorem timeSend_eq (s : ClientState) :
    ∃ io pc, s.timeSend = { s with io := io, ioPc := pc } ∧ SameConns s.io io ∧
      (pc = .crashed ∧ s.send.slots.hand .io = none ∨ ∃ last, pc = .timeFree last) := by
  unfold timeSend
  split
  · rename_i hnone
    exact ⟨_, _, rfl, .refl _, .inl ⟨rfl, hnone⟩⟩
  · dsimp only
    split
    · exact ⟨_, _, rfl, .refl _, .inr ⟨_, rfl⟩⟩
    · exact ⟨_, _, rfl, .sendAll _ _ _ _, .inr ⟨_, rfl⟩⟩

/-- So does `timeFree`. -/
theorem timeFree_eq (s : ClientState) (last : Bool) :
    ∃ slots pc, s.timeFree last = { s with send := { s.send with slots := slots }, ioPc := pc } ∧
      (pc = .idle ∨ pc = .timePop) := by
  refine ⟨_, _, rfl, ?_⟩
  cases last
  · exact .inr rfl
  · exact .inl rfl

/-- `take` changes the messages from clients. -/
theorem take_eq (s : ClientState) (cg gg : Option ℕ) :
    ∃ recv pc, s.take cg gg = { s with recv := recv, logicPc := pc } := by
  unfold take
  dsimp only
  split
  · exact ⟨_, _, rfl⟩
  · exact ⟨_, _, rfl⟩
  · exact ⟨_, _, rfl⟩
  · split_ifs <;> exact ⟨_, _, rfl⟩

/-- `sendAlloc` changes the messages to clients. -/
theorem sendAlloc_eq (s : ClientState) (k : SendKind) (proto_id : ℤ)
    (written : Option (List UInt8 × ℤ)) :
    ∃ send pc, s.sendAlloc k proto_id written = { s with send := send, sendPc := pc } := by
  unfold sendAlloc
  dsimp only
  split
  · exact ⟨_, _, rfl⟩
  · split <;> exact ⟨_, _, rfl⟩

end ClientState

end Catse
