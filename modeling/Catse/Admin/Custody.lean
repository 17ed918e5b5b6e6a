import Catse.Admin.Connections

/-!
# The administration path keeps its messages and its connections

`Safe` is the invariant of the administration path: both pools have each slot in one place, the
tables agree with the live connections, and each thread holds a message where its program counter
says so. It excludes `fault`. `AdminMove` lists what a step does to the rings, the connections and
the records; `Safe.step` shows for each function that it keeps `Safe` and is such a move, so that
what is proved of runs further on is a case analysis on `AdminMove`.
-/

namespace Catse

namespace AdminPc

/-- Is a message of `admin_recv_pool` in the admin thread's hand? -/
def recvHand : AdminPc → Bool
  | .readMsg _ => true
  | _ => false

/-- Is a message of `admin_send_pool` in the admin thread's hand? -/
def sendHand : AdminPc → Bool
  | .timeMsg => true
  | _ => false

/-- The connection that `cb_read` works on is live and has callbacks. -/
def Reads (bes : ℕ → Option Bufferevent) : AdminPc → Prop
  | .readLoop k => ∃ b, bes k = some b ∧ b.cb = true
  | .readMsg k => ∃ b, bes k = some b ∧ b.cb = true
  | .fault => False
  | _ => True

end AdminPc

namespace AdminLogicPc

/-- Is a message of `admin_recv_pool` in the logic thread's hand? -/
def recvHand : AdminLogicPc → Bool
  | .handle => true
  | _ => false

/-- Is a message of `admin_send_pool` in the logic thread's hand? -/
def sendHand : AdminLogicPc → Bool
  | .fill _ _ => true
  | _ => false

end AdminLogicPc

namespace AdminState

/-- The pools are conserved, the tables agree with the connections, and the program counters with
what is held. -/
structure Safe (n : ℕ) (s : AdminState) : Prop where
  recv : s.recv.Ok n
  send : s.send.Ok n
  listed : Listed s.table s.bes s.created s.history.born
  reads : s.pc.Reads s.bes
  recvProducer : (s.recv.held .producer).isSome = s.pc.recvHand
  recvConsumer : (s.recv.held .consumer).isSome = s.logicPc.recvHand
  sendProducer : (s.send.held .producer).isSome = s.logicPc.sendHand
  sendConsumer : (s.send.held .consumer).isSome = s.pc.sendHand

variable {n : ℕ} {list list' : ℕ → MsgAdmin} {s s' : AdminState}

theorem init_safe (n : ℕ) (list list' : ℕ → MsgAdmin) : (init n list list').Safe n where
  recv := Mailbox.init_ok n list
  send := Mailbox.init_ok n list'
  listed := Listed.init
  reads := trivial
  recvProducer := rfl
  recvConsumer := rfl
  sendProducer := rfl
  sendConsumer := rfl

end AdminState

/-- The steps of the administration path, by what they do to the rings and the connections. -/
inductive AdminMove (s : AdminState) : AdminState → Prop where
  /-- Nothing is pushed or popped, and no connection changes. -/
  | quiet {recv send : Mailbox MsgAdmin} {pc : AdminPc} {logicPc : AdminLogicPc}
      (recvPut : recv.put = s.recv.put) (recvGot : recv.got = s.recv.got)
      (sendPut : send.put = s.send.put) (sendGot : send.got = s.send.got)
      (hand : pc.sendHand = s.pc.sendHand)
      (onward : logicPc = s.logicPc ∨ logicPc = .idle ∨
        ∃ fd str, s.logicPc = .reply fd str ∧ logicPc = .fill fd str) :
      AdminMove s { s with recv := recv, send := send, pc := pc, logicPc := logicPc }
  | accept {fd : ℤ} (closed : s.isOpen fd = false) : AdminMove s (s.cbListener fd)
  | arrive {k : ℕ} {b : Bufferevent} (bytes : List UInt8) (idle : s.pc = .idle)
      (live : s.bes k = some b) (cb : b.cb = true) :
      AdminMove s { s.setBe k (some { b with input := b.input ++ bytes }) with
        pc := .readLoop k
        history := { s.history with
          arrived := Function.update s.history.arrived k (s.history.arrived k ++ bytes) } }
  | close {k : ℕ} {b : Bufferevent} {recv : Mailbox MsgAdmin} (recvPut : recv.put = s.recv.put)
      (recvGot : recv.got = s.recv.got) (hand : s.pc.sendHand = false)
      (live : s.bes k = some b) (cb : b.cb = true) :
      AdminMove s ({ s with recv := recv }.closeConnect k b)
  | request {k : ℕ} {b : Bufferevent} {m : MsgAdmin} {recv : Mailbox MsgAdmin}
      (pc : s.pc = .readMsg k) (live : s.bes k = some b) (cb : b.cb = true)
      (len : m.buf_len = AdminState.readLen b)
      (range : 0 ≤ m.buf_len ∧ m.buf_len ≤ MsgAdmin.bufSize)
      (fits : m.buf_len + 4 ≤ b.input.length)
      (body : m.body = (b.input.drop 4).take m.buf_len.toNat) (fd : m.fd = b.fd)
      (recvPut : recv.put = s.recv.put ++ [m]) (recvGot : recv.got = s.recv.got) :
      AdminMove s { s.setBe k (some { b with input := b.input.drop (4 + m.buf_len.toNat) }) with
        recv := recv
        pc := .readLoop k
        history := { s.history with askers := s.history.askers ++ [k] } }
  | take {m : MsgAdmin} {recv : Mailbox MsgAdmin} (idle : s.logicPc = .idle)
      (recvPut : recv.put = s.recv.put) (recvGot : recv.got = s.recv.got ++ [m]) :
      AdminMove s { s with recv := recv, logicPc := .handle }
  | handled {m : MsgAdmin} {recv : Mailbox MsgAdmin} (str : List UInt8) (pc : s.logicPc = .handle)
      (recvPut : recv.put = s.recv.put) (recvGot : recv.got = s.recv.got)
      (last : s.recv.got.getLast? = some m) :
      AdminMove s { s with recv := recv, logicPc := .reply m.fd str }
  | answer {fd : ℤ} {str : List UInt8} {m m' : MsgAdmin} {send : Mailbox MsgAdmin}
      (pc : s.logicPc = .fill fd str)
      (filled : m = ({ m' with buf_len := 0, fd := fd } : MsgAdmin).writeString str)
      (sendPut : send.put = s.send.put ++ [m]) (sendGot : send.got = s.send.got) :
      AdminMove s { s with
        send := send
        logicPc := .idle
        history := { s.history with
          answers := s.history.answers ++ [(s.recv.got.length - 1, str)] } }
  | pop {m : MsgAdmin} {send : Mailbox MsgAdmin} (pc : s.pc = .timePop)
      (sendPut : send.put = s.send.put) (sendGot : send.got = s.send.got ++ [m]) :
      AdminMove s { s with send := send, pc := .timeMsg }
  | drop {m : MsgAdmin} {send : Mailbox MsgAdmin} (pc : s.pc = .timeMsg)
      (last : s.send.got.getLast? = some m)
      (none : ¬(0 ≤ m.fd ∧ m.fd < FdTable.fdMax) ∨ s.table.fd2be m.fd = none)
      (sendPut : send.put = s.send.put) (sendGot : send.got = s.send.got) :
      AdminMove s { s with send := send, pc := .idle }
  | deliver {m : MsgAdmin} {k : ℕ} {b : Bufferevent} {send : Mailbox MsgAdmin}
      (pc : s.pc = .timeMsg) (last : s.send.got.getLast? = some m)
      (found : s.table.fd2be m.fd = some k) (live : s.bes k = some b)
      (sendPut : send.put = s.send.put) (sendGot : send.got = s.send.got) :
      AdminMove s { s.setBe k (some { b with output := b.output ++ m.wire }) with
        send := send
        pc := .timePop
        history := { s.history with
          delivered := Function.update s.history.delivered k
            (s.history.delivered k ++ [s.send.got.length - 1]) } }

namespace AdminState

variable {n : ℕ} {list list' : ℕ → MsgAdmin} {s s' : AdminState} {k : ℕ} {b : Bufferevent}

/-- A call with a live bufferevent is made. -/
theorem useBe_live (hb : s.bes k = some b) (f : Bufferevent → AdminState) : s.useBe k f = f b := by
  rw [useBe, hb]

/-- The bytes behind a length that they suffice for. -/
theorem readMsg_body (mem : ℕ → UInt8) {input : List UInt8} {len : ℤ} (hlen : 0 ≤ len)
    (hfits : len + 4 ≤ input.length) :
    prefixOf (storeAt mem 0 ((input.drop 4).take len.toNat)) len.toNat =
      (input.drop 4).take len.toNat := by
  have hlength : ((input.drop 4).take len.toNat).length = len.toNat := by
    rw [List.length_take, List.length_drop]
    omega
  have h := prefixOf_storeAt_length mem 0 ((input.drop 4).take len.toNat)
  rw [hlength, Nat.zero_add] at h
  exact h

namespace Safe

/-- What is held, by the program counters. -/
theorem hands (g : s.Safe n) :
    (s.recv.held .producer).isSome = s.pc.recvHand ∧
      (s.recv.held .consumer).isSome = s.logicPc.recvHand ∧
      (s.send.held .producer).isSome = s.logicPc.sendHand ∧
      (s.send.held .consumer).isSome = s.pc.sendHand :=
  ⟨g.recvProducer, g.recvConsumer, g.sendProducer, g.sendConsumer⟩

/-- `cb_listener`. -/
theorem cbListener (g : s.Safe n) {fd : ℤ} (hpc : s.pc = .idle) (hopen : s.isOpen fd = false) :
    (s.cbListener fd).Safe n where
  recv := g.recv
  send := g.send
  listed := g.listed.accept fun _ _ hb => fd_ne_of_not_open hopen g.listed.created hb
  reads := by
    show s.pc.Reads _
    rw [hpc]
    trivial
  recvProducer := g.recvProducer
  recvConsumer := g.recvConsumer
  sendProducer := g.sendProducer
  sendConsumer := g.sendConsumer

/-- The loop of `cb_read` up to `alloc`. -/
theorem readLoop (g : s.Safe n) (hpc : s.pc = .readLoop k) :
    (s.readLoop k).Safe n ∧ AdminMove s (s.readLoop k) := by
  obtain ⟨hrecv, -, -, hsend⟩ := g.hands
  have hreads := g.reads
  rw [hpc] at hrecv hsend hreads
  obtain ⟨b, hb, hcb⟩ := hreads
  have hidle : ({ s with pc := .idle } : AdminState).Safe n ∧ AdminMove s { s with pc := .idle } :=
    ⟨⟨g.recv, g.send, g.listed, trivial, hrecv, g.recvConsumer, g.sendProducer, hsend⟩,
      .quiet rfl rfl rfl rfl (by rw [hpc]; rfl) (.inl rfl)⟩
  unfold AdminState.readLoop
  rw [useBe_live hb]
  split_ifs with hshort
  · exact hidle
  have hnone : s.recv.held .producer = none := Mailbox.held_none hrecv
  dsimp only
  rcases g.recv.alloc_spec hnone with heq | ⟨hsome, hcon, hqueue, hok⟩
  · rw [heq, hnone]
    exact hidle
  · rw [hsome, if_pos rfl]
    refine ⟨⟨hok, g.send, g.listed, ⟨b, hb, hcb⟩, hsome, ?_, g.sendProducer, hsend⟩,
      .quiet rfl rfl rfl rfl (by rw [hpc]; rfl) (.inl rfl)⟩
    rw [hcon]
    exact g.recvConsumer

/-- The rest of a round of the loop of `cb_read`: the message is refused with its connection, waits
for more bytes, or is pushed. -/
theorem readMsg (g : s.Safe n) (hpc : s.pc = .readMsg k) :
    (s.readMsg k).Safe n ∧ AdminMove s (s.readMsg k) := by
  obtain ⟨hrecv, hcon, hpro, hsend⟩ := g.hands
  have hreads := g.reads
  rw [hpc] at hrecv hsend hreads
  obtain ⟨b, hb, hcb⟩ := hreads
  obtain ⟨m, hm⟩ := Option.isSome_iff_exists.mp hrecv
  obtain ⟨len, hlen⟩ : ∃ len, len = readLen b := ⟨_, rfl⟩
  obtain ⟨hheld, hcon₁, -, hput₁, hgot₁, hok₁⟩ :=
    g.recv.edit_spec fun m => { m with buf_len := len }
  rw [hm, Option.map_some] at hheld
  obtain ⟨hfree, hother, -, hokf⟩ := hok₁.free_spec (h := .producer) (by rw [hheld]; rfl)
  have hconf := (hother .consumer (by decide)).trans hcon₁
  unfold AdminState.readMsg
  rw [useBe_live hb]
  dsimp only
  rw [← hlen]
  by_cases hbad : ¬(0 ≤ len ∧ len ≤ MsgAdmin.bufSize)
  · rw [if_pos hbad]
    constructor
    · exact {
        recv := hokf
        send := g.send
        listed := g.listed.close hb hcb
        reads := trivial
        recvProducer := congrArg Option.isSome hfree
        recvConsumer := (congrArg Option.isSome hconf).trans hcon
        sendProducer := hpro
        sendConsumer := hsend }
    · exact .close hput₁ hgot₁ (by rw [hpc]; rfl) hb hcb
  rw [if_neg hbad]
  by_cases hpart : (b.input.length : ℤ) < len + 4
  · rw [if_pos hpart]
    constructor
    · exact {
        recv := hokf
        send := g.send
        listed := g.listed
        reads := trivial
        recvProducer := congrArg Option.isSome hfree
        recvConsumer := (congrArg Option.isSome hconf).trans hcon
        sendProducer := hpro
        sendConsumer := hsend }
    · exact .quiet hput₁ hgot₁ rfl rfl (by rw [hpc]; rfl) (.inl rfl)
  rw [if_neg hpart]
  -- The message gets its bytes and goes into the ring.
  obtain ⟨hheld₂, hcon₂, -, hput₂, hgot₂, hok₂⟩ := hok₁.edit_spec fun m =>
    { m with buf := storeAt m.buf 0 ((b.input.drop 4).take (len).toNat), fd := toShort b.fd }
  rw [hheld, Option.map_some] at hheld₂
  obtain ⟨hpush, hcon₃, -, hput₃, hgot₃, hok₃⟩ := hok₂.push_spec hheld₂
  have hrange := not_not.mp hbad
  have hfits := not_lt.mp hpart
  constructor
  · exact {
      recv := hok₃
      send := g.send
      listed := g.listed.buffers hb rfl rfl
      reads := ⟨_, Function.update_self .., hcb⟩
      recvProducer := congrArg Option.isSome hpush
      recvConsumer := (congrArg Option.isSome (hcon₃.trans (hcon₂.trans hcon₁))).trans hcon
      sendProducer := hpro
      sendConsumer := hsend }
  · have hbody : prefixOf (storeAt m.buf 0 ((b.input.drop 4).take (len).toNat))
        (len).toNat = (b.input.drop 4).take (len).toNat :=
      readMsg_body m.buf hrange.1 hfits
    have hput : ((s.recv.edit fun m => { m with buf_len := len }).edit fun m =>
        { m with
          buf := storeAt m.buf 0 ((b.input.drop 4).take (len).toNat)
          fd := toShort b.fd }).push.put = s.recv.put ++ [⟨_, len, toShort b.fd⟩] :=
      hput₃.trans (by rw [hput₂, hput₁])
    have hgot := hgot₃.trans (hgot₂.trans hgot₁)
    exact .request (m := ⟨_, len, toShort b.fd⟩) hpc hb hcb hlen hrange hfits hbody
      (g.listed.toShort_fd hb hcb) hput hgot

/-- The loop of `cb_time` up to `pop`. -/
theorem timePop (g : s.Safe n) (hpc : s.pc = .timePop) :
    s.timePop.Safe n ∧ AdminMove s s.timePop := by
  obtain ⟨hrecv, -, hpro, hsend⟩ := g.hands
  rw [hpc] at hrecv hsend
  have hnone : s.send.held .consumer = none := Mailbox.held_none hsend
  unfold AdminState.timePop
  dsimp only
  rcases g.send.pop_spec hnone with ⟨-, heq⟩ | ⟨m, -, hheld, hother, hput, hgot, hok⟩
  · rw [heq, hnone]
    refine ⟨?_, .quiet rfl rfl rfl rfl (by rw [hpc]; rfl) (.inl rfl)⟩
    exact ⟨g.recv, g.send, g.listed, trivial, hrecv, g.recvConsumer, hpro, hsend⟩
  · rw [hheld]
    refine ⟨?_, .pop hpc hput hgot⟩
    exact ⟨g.recv, hok, g.listed, trivial, hrecv, g.recvConsumer,
      (congrArg Option.isSome hother).trans hpro, congrArg Option.isSome hheld⟩

/-- The rest of a round of the loop of `cb_time`: the message goes to the connection that the tables
have for its descriptor, if there is one. -/
theorem timeMsg (g : s.Safe n) (hpc : s.pc = .timeMsg) :
    s.timeMsg.Safe n ∧ AdminMove s s.timeMsg := by
  obtain ⟨hrecv, -, hpro, hsend⟩ := g.hands
  rw [hpc] at hrecv hsend
  obtain ⟨m, hm⟩ := Option.isSome_iff_exists.mp hsend
  have hlast := g.send.last m hm
  obtain ⟨hfree, hother, -, hok⟩ := g.send.free_spec (h := .consumer) hsend
  have hfree' : ((s.send.free .consumer).held .consumer).isSome = false := congrArg _ hfree
  have hpro' := (congrArg Option.isSome (hother .producer (by decide))).trans hpro
  have hdrop : ({ s with send := s.send.free .consumer, pc := .idle } : AdminState).Safe n :=
    ⟨g.recv, hok, g.listed, trivial, hrecv, g.recvConsumer, hpro', hfree'⟩
  unfold AdminState.timeMsg
  rw [hm]
  dsimp only
  by_cases hrange : ¬(0 ≤ m.fd ∧ m.fd < FdTable.fdMax)
  · rw [if_pos hrange]
    exact ⟨hdrop, .drop hpc hlast (.inl hrange) rfl rfl⟩
  rw [if_neg hrange]
  cases hfound : s.table.fd2be m.fd with
  | none => exact ⟨hdrop, .drop hpc hlast (.inr hfound) rfl rfl⟩
  | some k =>
    obtain ⟨b, hb, -, -⟩ := g.listed.live_of_fd2be m.fd k hfound
    dsimp only
    rw [useBe_live hb]
    refine ⟨?_, .deliver hpc hlast hfound hb rfl rfl⟩
    exact ⟨g.recv, hok, g.listed.buffers hb rfl rfl, trivial, hrecv, g.recvConsumer, hpro', hfree'⟩

/-- `handle_admin` pops a request, if there is one. -/
theorem handlePop (g : s.Safe n) (hpc : s.logicPc = .idle) :
    s.handlePop.Safe n ∧ AdminMove s s.handlePop := by
  obtain ⟨hrecv, hcon, hpro, -⟩ := g.hands
  rw [hpc] at hcon hpro
  have hnone : s.recv.held .consumer = none := Mailbox.held_none hcon
  unfold AdminState.handlePop
  dsimp only
  rcases g.recv.pop_spec hnone with ⟨-, heq⟩ | ⟨m, -, hheld, hother, hput, hgot, hok⟩
  · rw [heq, hnone]
    refine ⟨?_, .quiet rfl rfl rfl rfl rfl (.inr (.inl rfl))⟩
    exact ⟨g.recv, g.send, g.listed, g.reads, hrecv, hcon, hpro, g.sendConsumer⟩
  · rw [hheld]
    refine ⟨?_, .take hpc hput hgot⟩
    exact ⟨hok, g.send, g.listed, g.reads, (congrArg Option.isSome hother).trans hrecv,
      congrArg Option.isSome hheld, hpro, g.sendConsumer⟩

/-- Lua code has been called with the request, which is freed. -/
theorem handled (g : s.Safe n) (hpc : s.logicPc = .handle) (reply : Option (List UInt8)) :
    (s.handled reply).Safe n ∧ AdminMove s (s.handled reply) := by
  obtain ⟨hrecv, hcon, hpro, -⟩ := g.hands
  rw [hpc] at hcon hpro
  obtain ⟨m, hm⟩ := Option.isSome_iff_exists.mp hcon
  have hlast := g.recv.last m hm
  obtain ⟨hfree, hother, -, hok⟩ := g.recv.free_spec (h := .consumer) hcon
  have hfree' : ((s.recv.free .consumer).held .consumer).isSome = false := congrArg _ hfree
  have hrecv' := (congrArg Option.isSome (hother .producer (by decide))).trans hrecv
  unfold AdminState.handled
  rw [hm]
  cases reply with
  | none =>
    refine ⟨?_, .quiet rfl rfl rfl rfl rfl (.inr (.inl rfl))⟩
    exact ⟨hok, g.send, g.listed, g.reads, hrecv', hfree', hpro, g.sendConsumer⟩
  | some str =>
    refine ⟨?_, .handled str hpc rfl rfl hlast⟩
    exact ⟨hok, g.send, g.listed, g.reads, hrecv', hfree', hpro, g.sendConsumer⟩

/-- `alloc` of a reply, which is given up when there is no slot. -/
theorem replyAlloc (g : s.Safe n) {fd : ℤ} {str : List UInt8} (hpc : s.logicPc = .reply fd str) :
    (s.replyAlloc fd str).Safe n ∧ AdminMove s (s.replyAlloc fd str) := by
  obtain ⟨-, hcon, hpro, hsend⟩ := g.hands
  rw [hpc] at hcon hpro
  have hnone : s.send.held .producer = none := Mailbox.held_none hpro
  unfold AdminState.replyAlloc
  dsimp only
  rcases g.send.alloc_spec hnone with heq | ⟨hsome, hother, -, hok⟩
  · rw [heq, hnone]
    refine ⟨?_, .quiet rfl rfl rfl rfl rfl (.inr (.inl rfl))⟩
    exact ⟨g.recv, g.send, g.listed, g.reads, g.recvProducer, hcon, hpro, hsend⟩
  · rw [hsome, if_pos rfl]
    refine ⟨?_, .quiet rfl rfl rfl rfl rfl (.inr (.inr ⟨fd, str, hpc, rfl⟩))⟩
    exact ⟨g.recv, hok, g.listed, g.reads, g.recvProducer, hcon, hsome,
      (congrArg Option.isSome hother).trans hsend⟩

/-- The reply is written and pushed. -/
theorem replyPush (g : s.Safe n) {fd : ℤ} {str : List UInt8} (hpc : s.logicPc = .fill fd str) :
    (s.replyPush fd str).Safe n ∧ AdminMove s (s.replyPush fd str) := by
  obtain ⟨-, hcon, hpro, hsend⟩ := g.hands
  rw [hpc] at hcon hpro
  obtain ⟨m, hm⟩ := Option.isSome_iff_exists.mp hpro
  obtain ⟨hheld, hother, -, hput, hgot, hok⟩ := g.send.edit_spec fun m =>
    ({ m with buf_len := 0, fd := fd } : MsgAdmin).writeString str
  rw [hm, Option.map_some] at hheld
  obtain ⟨hpush, hother', -, hput', hgot', hok'⟩ := hok.push_spec hheld
  rw [hput] at hput'
  unfold AdminState.replyPush
  refine ⟨?_, .answer hpc rfl hput' (hgot'.trans hgot)⟩
  exact ⟨g.recv, hok', g.listed, g.reads, g.recvProducer, hcon, congrArg Option.isSome hpush,
    (congrArg Option.isSome (hother'.trans hother)).trans hsend⟩

/-- Every step keeps the invariant, and is one of the moves. -/
theorem step (g : s.Safe n) {a : AdminAction} (hstep : AdminState.step s a = some s') :
    s'.Safe n ∧ AdminMove s s' := by
  cases a with
  | accept fd =>
    simp only [AdminState.step, Option.ite_none_right_eq_some, Option.some.injEq] at hstep
    obtain ⟨⟨hpc, -, hopen⟩, rfl⟩ := hstep
    exact ⟨g.cbListener hpc hopen, .accept hopen⟩
  | read k bytes =>
    -- The callback runs for a connection that is there, and no other callback does.
    simp only [AdminState.step] at hstep
    cases hb : s.bes k with
    | none =>
      rw [hb] at hstep
      exact absurd hstep (by simp)
    | some b =>
      rw [hb] at hstep
      simp only [Option.ite_none_right_eq_some, Option.some.injEq] at hstep
      obtain ⟨⟨hpc, hcb⟩, rfl⟩ := hstep
      obtain ⟨hrecv, hcon, hpro, hsend⟩ := g.hands
      rw [hpc] at hrecv hsend
      refine ⟨?_, .arrive bytes hpc hb hcb⟩
      exact ⟨g.recv, g.send, g.listed.buffers hb rfl rfl, ⟨_, Function.update_self .., hcb⟩, hrecv,
        hcon, hpro, hsend⟩
  | event k =>
    -- The same, and the connection leaves the tables.
    simp only [AdminState.step] at hstep
    cases hb : s.bes k with
    | none =>
      rw [hb] at hstep
      exact absurd hstep (by simp)
    | some b =>
      rw [hb] at hstep
      simp only [Option.ite_none_right_eq_some, Option.some.injEq] at hstep
      obtain ⟨⟨hpc, hcb⟩, rfl⟩ := hstep
      obtain ⟨hrecv, hcon, hpro, hsend⟩ := g.hands
      rw [hpc] at hrecv hsend
      refine ⟨?_, .close rfl rfl (by rw [hpc]; rfl) hb hcb⟩
      exact ⟨g.recv, g.send, g.listed.close hb hcb, trivial, hrecv, hcon, hpro, hsend⟩
  | tick =>
    simp only [AdminState.step, Option.ite_none_right_eq_some, Option.some.injEq] at hstep
    obtain ⟨hpc, rfl⟩ := hstep
    obtain ⟨hrecv, hcon, hpro, hsend⟩ := g.hands
    rw [hpc] at hrecv hsend
    refine ⟨?_, .quiet rfl rfl rfl rfl (by rw [hpc]; rfl) (.inl rfl)⟩
    exact ⟨g.recv, g.send, g.listed, trivial, hrecv, hcon, hpro, hsend⟩
  | admin =>
    -- The next statement of the callback that runs; there is none outside of one.
    simp only [AdminState.step, adminNext] at hstep
    cases hpc : s.pc with
    | idle =>
      rw [hpc] at hstep
      exact absurd hstep (by simp)
    | readLoop k =>
      rw [hpc] at hstep
      obtain rfl := Option.some.inj hstep
      exact g.readLoop hpc
    | readMsg k =>
      rw [hpc] at hstep
      obtain rfl := Option.some.inj hstep
      exact g.readMsg hpc
    | timePop =>
      rw [hpc] at hstep
      obtain rfl := Option.some.inj hstep
      exact g.timePop hpc
    | timeMsg =>
      rw [hpc] at hstep
      obtain rfl := Option.some.inj hstep
      exact g.timeMsg hpc
    | fault =>
      rw [hpc] at hstep
      exact absurd hstep (by simp)
  | handle =>
    simp only [AdminState.step, Option.ite_none_right_eq_some, Option.some.injEq] at hstep
    obtain ⟨hpc, rfl⟩ := hstep
    exact g.handlePop hpc
  | handled reply =>
    simp only [AdminState.step, Option.ite_none_right_eq_some, Option.some.injEq] at hstep
    obtain ⟨hpc, rfl⟩ := hstep
    exact g.handled hpc reply
  | logic =>
    -- The next statement of `handle_admin`, up to the call of Lua code or behind it.
    simp only [AdminState.step, logicNext] at hstep
    cases hpc : s.logicPc with
    | idle =>
      rw [hpc] at hstep
      exact absurd hstep (by simp)
    | handle =>
      rw [hpc] at hstep
      exact absurd hstep (by simp)
    | reply fd str =>
      rw [hpc] at hstep
      obtain rfl := Option.some.inj hstep
      exact g.replyAlloc hpc
    | fill fd str =>
      rw [hpc] at hstep
      obtain rfl := Option.some.inj hstep
      exact g.replyPush hpc

end Safe

/-- The invariant holds in every state of every run. -/
theorem run_safe (run : Run n list list' s) : s.Safe n :=
  run.invariant (init_safe n list list') fun _ _ _ _ g _ hstep => (g.step hstep).1

/-- In every state of every run each slot of both pools is in one place and none is lost, since no
`push` and no `free` is refused; the tables have the live connections that have callbacks; and
nothing has been used after it was freed. -/
theorem nothing_lost (run : Run n list list' s) :
    s.pc ≠ .fault ∧ s.recv.Ok n ∧ s.send.Ok n ∧
      Listed s.table s.bes s.created s.history.born := by
  have g := run_safe run
  refine ⟨fun hpc => ?_, g.recv, g.send, g.listed⟩
  have hreads := g.reads
  rw [hpc] at hreads
  exact hreads

/-- What `malloc` gives: zeros. -/
def zeros (_ : ℕ) : MsgAdmin := ⟨fun _ => 0, 0, 0⟩

/-- An administrator sends `A` and gets `B`. -/
def oneReply : List AdminAction :=
  [.accept 5, .read 0 [1, 0, 0, 0, 65], .admin, .admin, .admin, .handle, .handled (some [66]),
    .logic, .logic, .tick, .admin, .admin, .admin]

theorem nothing_lost_one : ∃ s : AdminState, s.send.got.map (·.buf_len) = [1] ∧ s.pc ≠ .fault ∧
    s.recv.Ok 1 ∧ s.send.Ok 1 ∧ Listed s.table s.bes s.created s.history.born := by
  have hexec : ((exec step (init 1 zeros zeros) oneReply).map fun s =>
      s.send.got.map (·.buf_len)) = some [1] := by
    decide +kernel
  obtain ⟨s, hs, hgot⟩ := Option.map_eq_some_iff.mp hexec
  have run : Run 1 zeros zeros s := reach_of_exec .start (execOk_any _ _ _) hs
  exact ⟨s, hgot, nothing_lost run⟩

end AdminState

end Catse
