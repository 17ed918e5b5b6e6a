import Catse.Client.Connections
import Catse.Client.RecvCustody
import Catse.Lib.Framing
import Catse.Logic.Packets

/-!
# The packets of a client as bytes on a connection

`Observed` is the client path together with a history of one connection `be` that has shaken hands:
the bytes that have arrived on it, and what its calls of `cb_read` have pushed into `q_recv_io`.
Everything else goes on around it: other connections arrive, send, and end, the timer writes, and
the logic thread takes what is pushed. `Serves` is what is asked of the surroundings: the client
sends the frames of its packets, cut anywhere, nothing ends the connection, the rate limit accepts
the packet that is next, and a slot is free for it.

`Greeted` says that the connection is live with its callbacks and its handshake done, and what is in
its input buffer. `Greeted.other` is the frame rule: no step but those of its own calls of `cb_read`
touches it. `Stage` says where the connection stands, and `Inv.step` is a case analysis on it.
Between the calls of `cb_read` the input buffer holds no whole frame, so that when all bytes have
arrived, everything has been pushed.
-/

namespace Catse

/-- Is the io thread in a `cb_read` of the connection? -/
def IoPc.reading (be : ℕ) : IoPc → Bool
  | .readLoop k _ => k = be
  | .readAlloc k _ _ _ _ => k = be
  | .readPush k _ => k = be
  | _ => false

/-- Where a `cb_read` of the connection can be. -/
theorem IoPc.reading_cases {be : ℕ} {pc : IoPc} (h : pc.reading be = true) :
    (∃ t, pc = .readLoop be t) ∨ (∃ t fd id len, pc = .readAlloc be t fd id len) ∨
      ∃ t, pc = .readPush be t := by
  cases pc with
  | readLoop k t =>
    obtain rfl : k = be := of_decide_eq_true h
    exact .inl ⟨t, rfl⟩
  | readAlloc k t fd id len =>
    obtain rfl : k = be := of_decide_eq_true h
    exact .inr (.inl ⟨t, fd, id, len, rfl⟩)
  | readPush k t =>
    obtain rfl : k = be := of_decide_eq_true h
    exact .inr (.inr ⟨t, rfl⟩)
  | _ => nomatch h

/-- The thread that takes a step. -/
def ClientAction.thread : ClientAction → Thread
  | .accept _ | .read _ _ | .event _ _ | .tick | .io _ => .io
  | .logic | .send _ _ _ | .setLimit _ _ _ => .logic

/-- The id of a message and the bytes between its cursor and its end. -/
def MsgRecv.content (m : MsgRecv) : ℤ × List UInt8 :=
  (m.id, (m.buf.drop m.front.toNat).take (m.back - m.front).toNat)

namespace ThreadIo

/-- The connection is live, has its callbacks and has shaken hands, and `input` is in its input
buffer. -/
structure Greeted (io : ThreadIo) (be : ℕ) (fd : ℤ) (input : List UInt8) : Prop where
  live : ∃ output, io.bes be = some ⟨fd, input, output, true⟩
  websocket : io.fd2websocket fd = true

namespace Greeted

variable {io : ThreadIo} {be : ℕ} {fd : ℤ} {input : List UInt8}

/-- Another input buffer. -/
theorem update (h : io.Greeted be fd input) (input' output : List UInt8) (w : Websocket) :
    { io with
      bes := Function.update io.bes be (some ⟨fd, input', output, true⟩)
      websocket := w : ThreadIo }.Greeted be fd input' where
  live := ⟨output, Function.update_self ..⟩
  websocket := h.websocket

/-- Another connection changes or ends, and perhaps shakes hands. -/
theorem update_ne (h : io.Greeted be fd input) {k : ℕ} (hk : k ≠ be) (x : Option Bufferevent)
    (w : Websocket) {f : ℤ → Bool} (hf : f fd = true) :
    { io with
      bes := Function.update io.bes k x
      websocket := w
      fd2websocket := f : ThreadIo }.Greeted be fd input where
  live := by
    obtain ⟨output, hlive⟩ := h.live
    refine ⟨output, ?_⟩
    show Function.update io.bes k x be = _
    rw [Function.update_of_ne (Ne.symm hk)]
    exact hlive
  websocket := hf

/-- `fd_del` and `bufferevent_free` of another connection. -/
theorem remove (h : io.Greeted be fd input) {k : ℕ} (hk : k ≠ be) (fd' : ℤ) :
    (io.remove k fd').Greeted be fd input where
  live := by
    obtain ⟨output, hlive⟩ := h.live
    refine ⟨output, ?_⟩
    show Function.update io.bes k none be = _
    rw [Function.update_of_ne (Ne.symm hk)]
    exact hlive
  websocket := h.websocket

/-- `cb_listener` on another descriptor. -/
theorem cbListener (h : io.Greeted be fd input) (hbe : be ≠ io.created) {fd' : ℤ} (hfd : fd ≠ fd') :
    (io.cbListener fd').Greeted be fd input where
  live := by
    obtain ⟨output, hlive⟩ := h.live
    refine ⟨output, ?_⟩
    unfold ThreadIo.cbListener
    dsimp only
    rw [Function.update_of_ne hbe]
    exact hlive
  websocket := by
    unfold ThreadIo.cbListener
    dsimp only
    split_ifs
    · rw [Function.update_of_ne hfd]
      exact h.websocket
    · exact h.websocket

/-- `send_msg` changes the output buffer of a connection. -/
theorem sendMsg (h : io.Greeted be fd input) (m : MsgSend) (addressed : Option (ℤ × Option ℕ))
    (fd' : ℤ) : (io.sendMsg m addressed fd').Greeted be fd input := by
  obtain ⟨output, hlive⟩ := h.live
  unfold ThreadIo.sendMsg
  split_ifs with hrange
  · cases hk : io.table.fd2be fd' with
    | none => exact h
    | some k =>
      refine ⟨?_, h.websocket⟩
      by_cases hkb : k = be
      · subst hkb
        refine ⟨output ++ Websocket.sendMsg m.id m.buf m.buf_len, ?_⟩
        show Function.update io.bes k _ k = _
        rw [Function.update_self, hlive]
        rfl
      · refine ⟨output, ?_⟩
        show Function.update io.bes k _ be = _
        rw [Function.update_of_ne (Ne.symm hkb)]
        exact hlive
  · exact h

/-- So does a whole delivery. -/
theorem sendAll (h : io.Greeted be fd input) (m : MsgSend) (addressed : Option (ℤ × Option ℕ))
    (fds : List ℤ) : (fds.foldl (fun io fd => io.sendMsg m addressed fd) io).Greeted be fd input :=
      by
  induction fds generalizing io with
  | nil => exact h
  | cons fd' fds ih => exact ih (h.sendMsg m addressed fd')

end Greeted

end ThreadIo

namespace ClientState

variable {cfg : ClientConfig} {s s' : ClientState} {a : ClientAction}

/-! ## What other steps leave alone -/

/-- `pop` and `free` of the logic thread leave the hand of the io thread alone. -/
theorem hand_logic (c : RecvChannel) :
    (∀ r, (c.pop r).slots.hand .io = c.slots.hand .io) ∧
      (c.free .logic).slots.hand .io = c.slots.hand .io := by
  have hne : Thread.io ≠ Thread.logic := by decide
  constructor
  · intro r
    show Function.update c.slots.hand .logic (c.slots.ring r).pop.1 .io = _
    rw [Function.update_of_ne hne]
  · show (c.slots.free .logic).hand .io = _
    unfold Slots.free
    cases c.slots.hand .logic with
    | none => rfl
    | some i =>
      show Function.update c.slots.hand .logic none .io = _
      rw [Function.update_of_ne hne]

/-- A step of the logic thread leaves the io thread as it is, with the message in its hand. -/
theorem step_logic_side (ha : a.thread = .logic) (hstep : step cfg s a = some s') :
    s'.io = s.io ∧ s'.ioPc = s.ioPc ∧ s'.recv.list = s.recv.list ∧
      s'.recv.slots.hand .io = s.recv.slots.hand .io := by
  cases a with
  | logic =>
    have heq := step_logic_eq hstep
    -- The logic thread takes and frees with its own hand.
    have hpop : ∀ r, (s.recv.pop r).slots.hand .io = s.recv.slots.hand .io := (hand_logic _).1
    generalize s.sendPc = sendPc at heq
    generalize s.logicPc = logicPc at heq
    cases sendPc with
    | push => rw [heq]; exact ⟨rfl, rfl, rfl, rfl⟩
    | free => rw [heq]; exact ⟨rfl, rfl, rfl, rfl⟩
    | idle =>
      cases logicPc with
      | idle => rw [heq]; exact ⟨rfl, rfl, rfl, rfl⟩
      | sampledRecv cg => rw [heq]; exact ⟨rfl, rfl, rfl, rfl⟩
      | sampled cg gg =>
        rw [heq]
        unfold take
        dsimp only
        split
        · exact ⟨rfl, rfl, rfl, rfl⟩
        · exact ⟨rfl, rfl, rfl, hpop _⟩
        · exact ⟨rfl, rfl, rfl, hpop _⟩
        · split_ifs
          · exact ⟨rfl, rfl, rfl, hpop _⟩
          · exact ⟨rfl, rfl, rfl, hpop _⟩
          · exact ⟨rfl, rfl, rfl, rfl⟩
      | handling => rw [heq]; exact ⟨rfl, rfl, rfl, (hand_logic s.recv).2⟩
      | fault => exact heq.elim
  | send k proto_id written =>
    obtain ⟨-, hstep⟩ := Option.ite_none_right_eq_some.mp hstep
    obtain ⟨send, pc, heq⟩ := sendAlloc_eq s k proto_id written
    rw [← Option.some.inj hstep, heq]
    exact ⟨rfl, rfl, rfl, rfl⟩
  | setLimit key second cnt =>
    obtain ⟨-, hstep⟩ := Option.ite_none_right_eq_some.mp hstep
    obtain ⟨pk', -, rfl⟩ := Option.map_eq_some_iff.mp hstep
    exact ⟨rfl, rfl, rfl, rfl⟩
  | _ => nomatch ha

/-- A step of the io thread is one of the loop of `cb_read`, or it delivers a message or leaves the
connections alone, and is then not in a `cb_read` that it was not in before. -/
theorem step_io_side {now : ℤ} (hstep : step cfg s (.io now) = some s') :
    (∃ be t, s.ioPc = .readLoop be t ∧ s' = s.readLoop be t now) ∨
      (s'.io = s.io ∨ ∃ m addressed, ∃ fds : List ℤ,
        s'.io = fds.foldl (fun io fd => io.sendMsg m addressed fd) s.io) ∧
      ∀ be, s.ioPc.reading be = false → s'.ioPc.reading be = false := by
  have heq := step_io_eq hstep
  cases hpc : s.ioPc with
  | readLoop be t =>
    -- Here alone the loop of `cb_read` goes on.
    rw [hpc] at heq
    exact .inl ⟨be, t, rfl, heq⟩
  | idle =>
    rw [hpc] at heq
    exact heq.elim
  | crashed =>
    rw [hpc] at heq
    exact heq.elim
  | readAlloc be t fd id len =>
    obtain ⟨recv, pc, hgo, rfl | rfl | rfl⟩ := readAlloc_eq s be t fd id len <;>
      simp only [hpc, hgo] at heq <;> rw [heq]
    · exact .inr ⟨.inl rfl, fun _ _ => rfl⟩
    · exact .inr ⟨.inl rfl, fun _ _ => rfl⟩
    · exact .inr ⟨.inl rfl, fun _ h => h⟩
  | readFree =>
    simp only [hpc] at heq
    rw [heq]
    exact .inr ⟨.inl rfl, fun _ _ => rfl⟩
  | readPush be t =>
    simp only [hpc] at heq
    rw [heq]
    exact .inr ⟨.inl rfl, fun _ h => h⟩
  | closeAlloc be fd reason real_reason =>
    obtain ⟨recv, pc, hgo, rfl | rfl⟩ := closeAlloc_eq cfg s be fd reason real_reason <;>
      simp only [hpc, hgo] at heq <;> rw [heq]
    · exact .inr ⟨.inl rfl, fun _ _ => rfl⟩
    · exact .inr ⟨.inl rfl, fun _ _ => rfl⟩
  | closePush =>
    simp only [hpc] at heq
    rw [heq]
    exact .inr ⟨.inl rfl, fun _ _ => rfl⟩
  | timePop =>
    obtain ⟨slots, pc, hgo, rfl | rfl⟩ := timePop_eq s <;>
      simp only [hpc, hgo] at heq <;> rw [heq]
    · exact .inr ⟨.inl rfl, fun _ _ => rfl⟩
    · exact .inr ⟨.inl rfl, fun _ _ => rfl⟩
  | timeSend =>
    -- Here alone something is written to connections.
    simp only [hpc] at heq
    rw [heq]
    unfold timeSend
    split
    · exact .inr ⟨.inl rfl, fun _ _ => rfl⟩
    · dsimp only
      split
      · exact .inr ⟨.inl rfl, fun _ _ => rfl⟩
      · exact .inr ⟨.inr ⟨_, _, _, rfl⟩, fun _ _ => rfl⟩
  | timeFree last =>
    obtain ⟨slots, pc, hgo, rfl | rfl⟩ := timeFree_eq s last <;>
      simp only [hpc, hgo] at heq <;> rw [heq]
    · exact .inr ⟨.inl rfl, fun _ _ => rfl⟩
    · exact .inr ⟨.inl rfl, fun _ _ => rfl⟩

/-- What `step` asks of the arrival of bytes, and what it does. -/
theorem step_read_eq {be : ℕ} {bytes : List UInt8} (hstep : step cfg s (.read be bytes) = some s') :
    ∃ b, s.io.bes be = some b ∧ s.ioPc = .idle ∧ b.cb = true ∧
      (b.input.length + bytes.length < 4 ∧
          s' = { s with io := { s.io with
            bes := Function.update s.io.bes be (some { b with input := b.input ++ bytes }) } } ∨
        4 ≤ b.input.length + bytes.length ∧ s' = s.cbRead cfg be b bytes) := by
  unfold step at hstep
  dsimp only at hstep
  cases hb : s.io.bes be with
  | none => simp [hb] at hstep
  | some b =>
    rw [hb] at hstep
    obtain ⟨⟨hidle, hcb, -⟩, hstep⟩ := Option.ite_none_right_eq_some.mp hstep
    refine ⟨b, rfl, hidle, hcb, ?_⟩
    by_cases hlow : b.input.length + bytes.length < 4
    · rw [if_pos hlow] at hstep
      exact Or.inl ⟨hlow, (Option.some.inj hstep).symm⟩
    · rw [if_neg hlow] at hstep
      exact Or.inr ⟨by omega, (Option.some.inj hstep).symm⟩

/-- What `step` does at an event. -/
theorem step_event_eq {be n : ℕ} (hstep : step cfg s (.event be n) = some s') :
    ∃ b reason, s.io.bes be = some b ∧ s.ioPc = .idle ∧ s' = s.closeConnect be b.fd reason n := by
  unfold step at hstep
  dsimp only at hstep
  cases hb : s.io.bes be with
  | none => simp [hb] at hstep
  | some b =>
    rw [hb] at hstep
    obtain ⟨⟨hidle, -⟩, hstep⟩ := Option.ite_none_right_eq_some.mp hstep
    exact ⟨b, _, rfl, hidle, (Option.some.inj hstep).symm⟩

section Other

variable {be : ℕ} {fd : ℤ} {input : List UInt8}

/-- `close_connect` of another connection. -/
theorem closeConnect_other {io : ThreadIo} (h : io.Greeted be fd input) {k : ℕ} (hk : k ≠ be)
    (fd' reason real_reason : ℤ) :
    ({ s with io := io }.closeConnect k fd' reason real_reason).io.Greeted be fd input ∧
      ({ s with io := io }.closeConnect k fd' reason real_reason).ioPc.reading be = false :=
  ⟨h.remove hk fd', rfl⟩

/-- A step of the io thread, when it is not in a `cb_read` of the connection. -/
theorem io_other (h : s.io.Greeted be fd input) (hpc : s.ioPc.reading be = false) {now : ℤ}
    (hstep : step cfg s (.io now) = some s') :
    s'.io.Greeted be fd input ∧ s'.ioPc.reading be = false := by
  rcases step_io_side hstep with ⟨k, t, hk, rfl⟩ | ⟨hio, hreading⟩
  · -- `cb_read` of another connection.
    rw [hk] at hpc
    have hne : k ≠ be := of_decide_eq_false hpc
    cases hb : s.io.bes k with
    | none =>
      rw [readLoop_none hb]
      exact ⟨h, rfl⟩
    | some b =>
      have hio : (s.drained k b).Greeted be fd input := h.update_ne hne _ _ h.websocket
      rcases readLoop_cases hb t now with hret | ⟨pk, pc, hgo, hcases⟩ | ⟨reason, hclose⟩
      · rw [hret]
        exact ⟨h, rfl⟩
      · rw [hgo]
        refine ⟨hio, ?_⟩
        rcases hcases with rfl | ⟨t', rfl⟩ | ⟨t', id, len, rfl⟩
        · rfl
        · exact decide_eq_false hne
        · exact decide_eq_false hne
      · rw [hclose]
        exact closeConnect_other hio hne _ _ _
  · refine ⟨?_, hreading be hpc⟩
    rcases hio with heq | ⟨m, addressed, fds, heq⟩
    · rw [heq]
      exact h
    · rw [heq]
      exact h.sendAll _ _ _

/-- A step leaves a connection alone that has shaken hands, when it is neither a step of one of its
calls of `cb_read` nor what starts one or ends the connection. -/
theorem greeted_other (g : s.Registered) (h : s.io.Greeted be fd input)
    (hpc : s.ioPc.reading be = false) (hread : ∀ bytes, a ≠ .read be bytes)
    (hevent : ∀ n, a ≠ .event be n) (hstep : step cfg s a = some s') :
    s'.io.Greeted be fd input ∧ s'.ioPc.reading be = false := by
  obtain ⟨output, hlive⟩ := h.live
  have hlogic : a.thread = .logic → s'.io.Greeted be fd input ∧ s'.ioPc.reading be = false := by
    intro ha
    obtain ⟨hio, hsame, -⟩ := step_logic_side ha hstep
    rw [hio, hsame]
    exact ⟨h, hpc⟩
  cases a with
  | accept fd' =>
    -- The new connection has another number, and a descriptor that was not in use.
    obtain ⟨⟨-, -, hopen⟩, hstep⟩ := Option.ite_none_right_eq_some.mp hstep
    obtain rfl := Option.some.inj hstep
    have hbe := g.created be _ hlive
    have hfd := g.fd_ne_of_not_open hopen hlive
    exact ⟨h.cbListener (by omega) hfd, hpc⟩
  | read k bytes =>
    -- Another connection reads, with a descriptor of its own where it shakes hands.
    have hk : k ≠ be := fun hk => hread bytes (by rw [hk])
    obtain ⟨b, hb, -, -, ⟨-, rfl⟩ | ⟨-, rfl⟩⟩ := step_read_eq hstep
    · exact ⟨h.update_ne hk _ _ h.websocket, hpc⟩
    · rcases cbRead_cases cfg s k b bytes with
        ⟨-, reason, hclose⟩ | ⟨-, hloop⟩ | ⟨-, -, hcrash⟩ | ⟨-, e, -, hshake⟩
      · rw [hclose]
        exact closeConnect_other h hk _ _ _
      · rw [hloop]
        exact ⟨h.update_ne hk _ _ h.websocket, decide_eq_false hk⟩
      · rw [hcrash]
        exact ⟨h, rfl⟩
      · rw [hshake]
        refine ⟨h.update_ne hk _ _ ?_, hpc⟩
        split_ifs
        · by_cases hfd : fd = b.fd
          · rw [hfd, Function.update_self]
          · rw [Function.update_of_ne hfd]
            exact h.websocket
        · exact h.websocket
  | event k n =>
    -- Another connection ends.
    have hk : k ≠ be := fun hk => hevent n (by rw [hk])
    obtain ⟨b, reason, -, -, rfl⟩ := step_event_eq hstep
    exact closeConnect_other h hk _ _ _
  | tick =>
    obtain ⟨-, hstep⟩ := Option.ite_none_right_eq_some.mp hstep
    obtain rfl := Option.some.inj hstep
    exact ⟨h, rfl⟩
  | io now => exact io_other h hpc hstep
  | logic => exact hlogic rfl
  | send kind proto_id written => exact hlogic rfl
  | setLimit key second cnt => exact hlogic rfl

end Other

/-! ## The scratch buffer `key` -/

/-- The delivery of a message does not use the scratch buffers. -/
theorem websocket_sendAll (m : MsgSend) (addressed : Option (ℤ × Option ℕ)) (fds : List ℤ)
    (io : ThreadIo) :
    (fds.foldl (fun io fd => io.sendMsg m addressed fd) io).websocket = io.websocket := by
  induction fds generalizing io with
  | nil => rfl
  | cons fd fds ih =>
    rw [List.foldl_cons, ih]
    unfold ThreadIo.sendMsg
    split_ifs
    · cases io.table.fd2be fd with
      | none => rfl
      | some be => rfl
    · rfl

/-- A step of the io thread keeps the size of `key`. -/
theorem io_key (hkey : s.io.websocket.key.length = Websocket.keySize) {now : ℤ}
    (hstep : step cfg s (.io now) = some s') :
    s'.io.websocket.key.length = Websocket.keySize := by
  rcases step_io_side hstep with ⟨be, t, -, rfl⟩ | ⟨heq | ⟨m, addressed, fds, heq⟩, -⟩
  · cases hb : s.io.bes be with
    | none =>
      rw [readLoop_none hb]
      exact hkey
    | some b =>
      have hdrained : (s.drained be b).websocket.key.length = Websocket.keySize := by
        show (s.io.websocket.handlePacket b.input).ws.key.length = _
        rw [Websocket.handlePacket_key]
        exact hkey
      rcases readLoop_cases hb t now with hret | ⟨pk, pc, hgo, -⟩ | ⟨reason, hclose⟩
      · rw [hret]
        exact hkey
      · rw [hgo]
        exact hdrained
      · rw [hclose]
        exact hdrained
  · rw [heq]
    exact hkey
  · rw [heq, websocket_sendAll]
    exact hkey

/-- A step keeps the size of `key`. -/
theorem step_key (hkey : s.io.websocket.key.length = Websocket.keySize)
    (hstep : step cfg s a = some s') : s'.io.websocket.key.length = Websocket.keySize := by
  have hlogic : a.thread = .logic → s'.io.websocket.key.length = Websocket.keySize := by
    intro ha
    rw [(step_logic_side ha hstep).1]
    exact hkey
  cases a with
  | accept fd =>
    obtain ⟨-, hstep⟩ := Option.ite_none_right_eq_some.mp hstep
    obtain rfl := Option.some.inj hstep
    exact hkey
  | read be bytes =>
    -- Only `hand_shake` writes to `key`.
    obtain ⟨b, -, -, -, ⟨-, rfl⟩ | ⟨-, rfl⟩⟩ := step_read_eq hstep
    · exact hkey
    · rcases cbRead_cases cfg s be b bytes with
        ⟨-, reason, hclose⟩ | ⟨-, hloop⟩ | ⟨-, -, hcrash⟩ | ⟨-, e, hdone, hshake⟩
      · rw [hclose]
        exact hkey
      · rw [hloop]
        exact hkey
      · rw [hcrash]
        exact hkey
      · rw [hshake]
        exact Websocket.length_key_handShake hkey hdone
  | event be n =>
    obtain ⟨b, reason, -, -, rfl⟩ := step_event_eq hstep
    exact hkey
  | tick =>
    obtain ⟨-, hstep⟩ := Option.ite_none_right_eq_some.mp hstep
    obtain rfl := Option.some.inj hstep
    exact hkey
  | io now => exact io_key hkey hstep
  | logic => exact hlogic rfl
  | send kind proto_id written => exact hlogic rfl
  | setLimit key second cnt => exact hlogic rfl

/-- `key` has its size in every state of every run. -/
theorem run_key {ok : ClientState → ClientAction → Prop} (run : Run cfg ok s) :
    s.io.websocket.key.length = Websocket.keySize :=
  run.invariant List.length_replicate fun _ _ _ _ hkey _ hstep => step_key hkey hstep

/-! ## A connection and its history -/

/-- What a step pushes into `q_recv_io` in a `cb_read` of the connection. -/
def pushes (s : ClientState) (be : ℕ) : ClientAction → List (ℤ × List UInt8)
  | .io _ =>
    match s.ioPc with
    | .readPush k _ =>
      if k = be ∧ ((s.recv.slots.ring .qRecvIo).push (s.recv.slots.hand .io)).1 = true then
        (s.recv.slots.hand .io).toList.map fun i => (s.recv.list i).content
      else []
    | _ => []
  | _ => []

/-- The bytes that arrive on the connection in a step. -/
def arrives (be : ℕ) : ClientAction → List UInt8
  | .read k bytes => if k = be then bytes else []
  | _ => []

end ClientState

/-- The client path with the history of one connection: the bytes that have arrived, and what has
been pushed. -/
structure Observed where
  state : ClientState
  received : List UInt8
  pushed : List (ℤ × List UInt8)

namespace Observed

/-- The history starts. -/
def start (s : ClientState) : Observed := ⟨s, [], []⟩

/-- A step of the client path, recorded for the connection `be`. -/
def step (cfg : ClientConfig) (be : ℕ) (o : Observed) (a : ClientAction) : Option Observed :=
  (ClientState.step cfg o.state a).map fun s =>
    { state := s
      received := o.received ++ ClientState.arrives be a
      pushed := o.pushed ++ o.state.pushes be a }

/-- What is asked of the surroundings of the connection: the client sends the frames of the packets
`sent`, nothing ends the connection, the rate limit accepts the packet that is next, and a slot is
free for it. -/
def Serves (sent : List ClientPacket) (be : ℕ) (o : Observed) : ClientAction → Prop
  | .read k bytes => k = be → o.received ++ bytes <+: streamOf ClientPacket.bytes sent
  | .event k _ => k ≠ be
  | .io now =>
    match o.state.ioPc with
    | .readLoop k t =>
      k = be → ∀ p ∈ sent[o.pushed.length]?, ∀ b ∈ o.state.io.bes be,
        (o.state.pk.checkPkLimit (if t = 0 then now else t) b.fd p.id).1 = .ok
    | .readAlloc k _ _ _ _ => k = be → o.state.recv.slots.pool.freeSlots ≠ []
    | _ => True
  | _ => True

/-- The connection has finished its handshake, and everything before it is taken. -/
structure Ready (s : ClientState) (be : ℕ) (fd : ℤ) : Prop where
  idle : s.ioPc.reading be = false
  greeted : s.io.Greeted be fd []

/-- Where the connection stands, with the bytes `input` in its input buffer and the packets `out`
pushed: it waits for more bytes, with no whole frame there; or `cb_read` is before a call of
`handle_packet`, or has a packet that it fills into a slot, or that it has filled in. -/
inductive Stage (sent : List ClientPacket) (be : ℕ) (o : Observed) (fd : ℤ) (input : List UInt8)
    (out : List ClientPacket) : Prop where
  | waiting (pc : o.state.ioPc.reading be = false)
      (synced : Synced ClientPacket.bytes sent out o.received input)
      (cut : ∀ p, out ++ [p] <+: sent → ∀ rest, input ≠ p.bytes ++ rest)
  | looping {t : ℤ} (pc : o.state.ioPc = .readLoop be t)
      (synced : Synced ClientPacket.bytes sent out o.received input)
  | filling {t : ℤ} {p : ClientPacket} (pc : o.state.ioPc = .readAlloc be t fd p.id p.body.length)
      (synced : Synced ClientPacket.bytes sent (out ++ [p]) o.received input)
      (body : (o.state.io.websocket.buf.drop 4).take p.body.length = p.body)
  | pushing {t : ℤ} {p : ClientPacket} {i : ℕ} (pc : o.state.ioPc = .readPush be t)
      (synced : Synced ClientPacket.bytes sent (out ++ [p]) o.received input)
      (hand : o.state.recv.slots.hand .io = some i)
      (content : (o.state.recv.list i).content = p.content)

namespace Stage

variable {sent out : List ClientPacket} {be : ℕ} {o : Observed} {fd t : ℤ} {input : List UInt8}

/-- Outside its calls of `cb_read` the connection waits. -/
theorem of_not_reading (h : Stage sent be o fd input out) (hpc : o.state.ioPc.reading be = false) :
    Synced ClientPacket.bytes sent out o.received input ∧
      ∀ p, out ++ [p] <+: sent → ∀ rest, input ≠ p.bytes ++ rest := by
  cases h with
  | waiting _ synced cut => exact ⟨synced, cut⟩
  | looping pc | filling pc | pushing pc =>
    rw [pc] at hpc
    exact absurd hpc (by simp [IoPc.reading])

/-- In the loop of `cb_read` no packet is at hand. -/
theorem of_readLoop (h : Stage sent be o fd input out) (hpc : o.state.ioPc = .readLoop be t) :
    Synced ClientPacket.bytes sent out o.received input := by
  cases h with
  | looping _ synced => exact synced
  | waiting pc =>
    rw [hpc] at pc
    exact absurd pc (by simp [IoPc.reading])
  | filling pc | pushing pc => exact absurd (hpc.symm.trans pc) (by simp)

/-- Before `alloc` a packet is in the scratch buffer. -/
theorem of_readAlloc (h : Stage sent be o fd input out) {fd' id len : ℤ}
    (hpc : o.state.ioPc = .readAlloc be t fd' id len) :
    ∃ p : ClientPacket, fd' = fd ∧ id = p.id ∧ len = p.body.length ∧
      Synced ClientPacket.bytes sent (out ++ [p]) o.received input ∧
      (o.state.io.websocket.buf.drop 4).take p.body.length = p.body := by
  cases h with
  | @filling t' p pc synced body =>
    obtain ⟨-, -, rfl, rfl, rfl⟩ := IoPc.readAlloc.inj (hpc.symm.trans pc)
    exact ⟨p, rfl, rfl, rfl, synced, body⟩
  | waiting pc =>
    rw [hpc] at pc
    exact absurd pc (by simp [IoPc.reading])
  | looping pc | pushing pc => exact absurd (hpc.symm.trans pc) (by simp)

/-- Before `push` the packet is in the slot at hand. -/
theorem of_readPush (h : Stage sent be o fd input out) (hpc : o.state.ioPc = .readPush be t) :
    ∃ (p : ClientPacket) (i : ℕ), Synced ClientPacket.bytes sent (out ++ [p]) o.received input ∧
      o.state.recv.slots.hand .io = some i ∧ (o.state.recv.list i).content = p.content := by
  cases h with
  | @pushing t' p i _ synced hand content => exact ⟨p, i, synced, hand, content⟩
  | waiting pc =>
    rw [hpc] at pc
    exact absurd pc (by simp [IoPc.reading])
  | looping pc | filling pc => exact absurd (hpc.symm.trans pc) (by simp)

/-- The packets pushed are the first ones sent. -/
theorem isPrefix (h : Stage sent be o fd input out) : out <+: sent := by
  cases h with
  | waiting _ synced | looping _ synced => exact synced.isPrefix
  | filling _ synced | pushing _ synced => exact (List.prefix_append _ _).trans synced.isPrefix

end Stage

/-- The connection is live and stands where `Stage` says. -/
def Streams (sent : List ClientPacket) (be : ℕ) (fd : ℤ) (o : Observed) : Prop :=
  ∃ input out, o.state.io.Greeted be fd input ∧ o.pushed = out.map ClientPacket.content ∧
    Stage sent be o fd input out

/-- What holds of a connection in every state of a run, together with what holds of the client
path. -/
structure Inv (cfg : ClientConfig) (sent : List ClientPacket) (be : ℕ) (fd : ℤ) (o : Observed) :
    Prop where
  registered : o.state.Registered
  custody : o.state.RecvCustody cfg
  key : o.state.io.websocket.key.length = Websocket.keySize
  streams : Streams sent be fd o

section Step

variable {cfg : ClientConfig} {sent : List ClientPacket} {be : ℕ} {fd : ℤ} {o o' : Observed}
  {a : ClientAction}

/-- At the end of the handshake nothing has arrived and nothing is pushed. -/
theorem inv_start {s : ClientState} (run : ClientState.Run cfg anyStep s) (ready : Ready s be fd) :
    Inv cfg sent be fd (start s) where
  registered := ClientState.run_registered run
  custody := ClientState.run_recvCustody run
  key := ClientState.run_key run
  streams := by
    refine ⟨[], [], ready.greeted, rfl, .waiting ready.idle ?_ ?_⟩
    · exact ⟨List.nil_prefix, rfl, List.nil_prefix⟩
    · intro p _ rest hempty
      have hlen := congrArg List.length hempty
      have hmin := p.length_bytes_le.1
      rw [List.length_append, List.length_nil] at hlen
      omega

/-- So it stands after the `cb_read` in which `hand_shake` succeeds. -/
theorem ready_cbRead {s : ClientState} {b : Bufferevent} (hidle : s.ioPc = .idle)
    (hcb : b.cb = true)
    (hrange : 0 ≤ b.fd ∧ b.fd < FdTable.fdMax) (hfirst : s.io.fd2websocket b.fd = false)
    {bytes : List UInt8} {e : Websocket.Effect Bool}
    (hshake : s.io.websocket.handShake cfg.accept (b.input ++ bytes) = .done e)
    (hret : e.ret = true) : Ready (s.cbRead cfg be b bytes) be b.fd := by
  rcases ClientState.cbRead_cases cfg s be b bytes with
    ⟨hout, -⟩ | ⟨hdone, -⟩ | ⟨-, hcrash, -⟩ | ⟨-, e', hshake', heq⟩
  · exact absurd hrange hout
  · exact absurd (hdone.symm.trans hfirst) (by simp)
  · exact absurd (hshake.symm.trans hcrash) (by simp)
  · obtain rfl : e = e' := Websocket.Outcome.done.inj (hshake.symm.trans hshake')
    rw [heq]
    refine ⟨?_, ⟨b.output ++ e.out, ?_⟩, ?_⟩
    · show s.ioPc.reading be = false
      rw [hidle]
      rfl
    · show Function.update s.io.bes be _ be = _
      rw [Function.update_self, Websocket.handShake_rest hshake hret, ← hcb]
    · dsimp only
      rw [if_pos hret, Function.update_self]

/-- Only the step that pushes adds to what is pushed. -/
theorem pushes_eq_nil {s : ClientState} (h : ∀ t, s.ioPc ≠ .readPush be t) :
    s.pushes be a = [] := by
  cases a with
  | io now =>
    unfold ClientState.pushes
    dsimp only
    cases hpc : s.ioPc with
    | readPush k t =>
      dsimp only
      rw [if_neg]
      rintro ⟨rfl, -⟩
      exact h t hpc
    | _ => rfl
  | _ => rfl

/-- The bytes of a packet do not fit into fewer. -/
theorem ne_bytes_append {input : List UInt8} (hlen : input.length < 10) (p : ClientPacket)
    (rest : List UInt8) : input ≠ p.bytes ++ rest := by
  intro heq
  have hmin := p.length_bytes_le.1
  rw [heq, List.length_append] at hlen
  omega

/-- The descriptor of a connection that has shaken hands is in range and registered. -/
theorem Inv.fd_range {input : List UInt8} (h : Inv cfg sent be fd o)
    (hg : o.state.io.Greeted be fd input) :
    (0 ≤ fd ∧ fd < FdTable.fdMax) ∧ o.state.io.table.fd2be fd = some be := by
  obtain ⟨output, hlive⟩ := hg.live
  constructor
  · exact h.registered.accepted_range _ (h.registered.accepted_of_live be _ hlive rfl)
  · exact h.registered.fd2be_of_live be _ hlive rfl

/-- An iteration of `cb_read` with a whole frame at the front of the input buffer: the frame is
taken, and its packet goes on to `alloc`. -/
theorem readLoop_whole {s : ClientState} {output rest : List UInt8} (p : ClientPacket)
    (hkey : s.io.websocket.key.length = Websocket.keySize)
    (hlive : s.io.bes be = some ⟨fd, p.bytes ++ rest, output, true⟩)
    (hfd : s.io.table.fd2be fd = some be) (t now : ℤ)
    (hlimit : (s.pk.checkPkLimit (if t = 0 then now else t) fd p.id).1 = .ok) :
    ∃ io' pk', s.readLoop be t now =
        { s with
          io := io', pk := pk'
          ioPc := .readAlloc be (if t = 0 then now else t) fd p.id p.body.length } ∧
      (s.io.fd2websocket fd = true → io'.Greeted be fd rest) ∧
      (io'.websocket.buf.drop 4).take p.body.length = p.body := by
  obtain ⟨hrest, hret, hlen, hid, hbody⟩ := p.handlePacket_whole hkey rest
  have hmin := p.length_bytes_le.1
  have hsize := p.body_le
  have hsix : ¬ (p.bytes ++ rest).length < 6 := by
    rw [List.length_append]
    omega
  unfold ClientState.readLoop
  rw [hlive]
  dsimp only
  generalize s.io.websocket.handlePacket (p.bytes ++ rest) = e at hrest hret hlen hid hbody
  have hlimit' : ¬ (s.pk.checkPkLimit (if t = 0 then now else t) fd p.id).1 ≠ .ok :=
    not_not.mpr hlimit
  rw [if_neg hsix, hret, if_neg (by omega), if_neg (by omega), if_neg (by omega), hlen, hid,
    if_neg (by omega), if_neg (by omega), hfd, Option.isNone_some, if_neg Bool.false_ne_true,
    if_neg hlimit']
  refine ⟨_, _, rfl, ?_, hbody⟩
  intro hws
  rw [hrest]
  exact ⟨⟨output, Function.update_self ..⟩, hws⟩

/-- An iteration of `cb_read` with less than a whole frame in the input buffer: `cb_read` returns,
and the input buffer is as before. -/
theorem readLoop_part {s : ClientState} {input output : List UInt8}
    (hkey : s.io.websocket.key.length = Websocket.keySize)
    (hlive : s.io.bes be = some ⟨fd, input, output, true⟩) (t now : ℤ)
    (hpart : input = [] ∨ ∃ (p : ClientPacket) (tail : List UInt8), tail ≠ [] ∧
      input ++ tail = p.bytes) :
    ∃ io', s.readLoop be t now = { s with io := io', ioPc := .idle } ∧
      (s.io.fd2websocket fd = true → io'.Greeted be fd input) := by
  unfold ClientState.readLoop
  rw [hlive]
  dsimp only
  by_cases hshort : input.length < 6
  · rw [if_pos hshort]
    exact ⟨s.io, rfl, fun hws => ⟨⟨output, hlive⟩, hws⟩⟩
  · rcases hpart with rfl | ⟨p, tail, htail, hframe⟩
    · exact absurd (by decide) hshort
    · obtain ⟨hrest, hret⟩ := p.handlePacket_part hkey hframe htail (by omega)
      generalize s.io.websocket.handlePacket input = e at hrest hret
      rw [if_neg hshort, hret, if_neg (by decide), if_neg (by decide), if_pos rfl]
      refine ⟨_, rfl, ?_⟩
      intro hws
      rw [hrest]
      exact ⟨⟨output, Function.update_self ..⟩, hws⟩

/-- `alloc` gets a slot, and the packet is filled in. -/
theorem readAlloc_fills {s : ClientState} (custody : s.RecvCustody cfg) {t : ℤ} (p : ClientPacket)
    (hpc : s.ioPc = .readAlloc be t fd p.id p.body.length)
    (hfree : s.recv.slots.pool.freeSlots ≠ [])
    (hbody : (s.io.websocket.buf.drop 4).take p.body.length = p.body) :
    ∃ recv' i, s.readAlloc be t fd p.id p.body.length =
        { s with recv := recv', ioPc := .readPush be t } ∧
      recv'.slots.hand .io = some i ∧ (recv'.list i).content = p.content := by
  have hsize := p.body_le
  have hlen : sizeLt MsgRecv.bufSize (p.body.length : ℤ) = false := by
    rw [sizeLt_of_nonneg (by omega) (by unfold MsgRecv.bufSize at hsize; omega)]
    exact decide_eq_false (by omega)
  rcases custody.readAlloc_spec hpc with ⟨hnil, -⟩ | ⟨i, -, hi, -⟩
  · exact absurd hnil hfree
  · unfold ClientState.readAlloc
    dsimp only
    rw [hi]
    dsimp only
    rw [hlen, if_neg (by simp), Int.toNat_natCast, hbody]
    refine ⟨_, i, rfl, hi, ?_⟩
    unfold RecvChannel.fill
    dsimp only
    rw [Function.update_self]
    show (p.id, ((overwrite _ 0 p.body).drop 0).take ((p.body.length : ℤ) - 0).toNat) =
      (p.id, p.body)
    rw [List.drop_zero, sub_zero, Int.toNat_natCast, overwrite, List.take_zero, List.nil_append,
      List.take_left' rfl]

/-- Bytes arrive on the connection: `cb_read` is called, unless they are too few. -/
theorem Inv.read (h : Inv cfg sent be fd o) {bytes : List UInt8}
    (hserves : o.received ++ bytes <+: streamOf ClientPacket.bytes sent) {s' : ClientState}
    (hstep : ClientState.step cfg o.state (.read be bytes) = some s') :
    Streams sent be fd ⟨s', o.received ++ bytes, o.pushed⟩ := by
  obtain ⟨input, out, hg, hpushed, hstage⟩ := h.streams
  obtain ⟨hrange, -⟩ := h.fd_range hg
  obtain ⟨output, hlive⟩ := hg.live
  obtain ⟨b, hb, hidle, -, hcases⟩ := ClientState.step_read_eq hstep
  rw [hlive] at hb
  obtain rfl := Option.some.inj hb
  have hpc : o.state.ioPc.reading be = false := by
    rw [hidle]
    rfl
  obtain ⟨synced, -⟩ := hstage.of_not_reading hpc
  have hgot := synced.receive hserves
  rcases hcases with ⟨hlow, rfl⟩ | ⟨-, rfl⟩
  · refine ⟨input ++ bytes, out, hg.update _ _ _, hpushed, .waiting hpc hgot ?_⟩
    intro p _ rest
    apply ne_bytes_append
    rw [List.length_append]
    dsimp only at hlow
    omega
  · rcases ClientState.cbRead_cases cfg o.state be ⟨fd, input, output, true⟩ bytes with
      ⟨hout, -⟩ | ⟨-, hloop⟩ | ⟨hnot, -⟩ | ⟨hnot, -⟩
    · exact absurd hrange hout
    · rw [hloop]
      exact ⟨input ++ bytes, out, hg.update _ _ _, hpushed, .looping rfl hgot⟩
    · exact absurd (hg.websocket.symm.trans hnot) (by simp)
    · exact absurd (hg.websocket.symm.trans hnot) (by simp)

/-- The packet that is next has its place in what is sent. -/
theorem getElem?_of_next {out : List ClientPacket} {p : ClientPacket} (h : out ++ [p] <+: sent) :
    sent[out.length]? = some p := by
  obtain ⟨rest, hrest⟩ := h
  rw [← hrest, List.append_assoc, List.getElem?_append_right (Nat.le_refl _), Nat.sub_self]
  rfl

/-- `cb_read` of the connection goes through an iteration up to `alloc`. The loop does not go round
without a push. -/
theorem Inv.looping (h : Inv cfg sent be fd o) {t now : ℤ} (hpc : o.state.ioPc = .readLoop be t)
    (hserves : Serves sent be o (.io now)) :
    Streams sent be fd ⟨o.state.readLoop be t now, o.received, o.pushed⟩ ∧
      ∀ t', (o.state.readLoop be t now).ioPc ≠ .readLoop be t' := by
  obtain ⟨input, out, hg, hpushed, hstage⟩ := h.streams
  obtain ⟨-, hfd⟩ := h.fd_range hg
  obtain ⟨output, hlive⟩ := hg.live
  have hlength : o.pushed.length = out.length := by rw [hpushed, List.length_map]
  have synced := hstage.of_readLoop hpc
  rcases synced.cases with ⟨hdone, hempty⟩ | ⟨p, rest, hnext, hinput⟩ |
    ⟨p, tail, hnext, htail, hframe⟩
  · -- There is nothing left to take.
    obtain ⟨io', hgo, hkept⟩ := readLoop_part h.key hlive t now (Or.inl hempty)
    rw [hgo]
    refine ⟨⟨input, out, hkept hg.websocket, hpushed, .waiting rfl synced ?_⟩, by simp⟩
    intro p _ rest
    apply ne_bytes_append
    rw [hempty]
    decide
  · -- A whole frame.
    have hlimit : (o.state.pk.checkPkLimit (if t = 0 then now else t) fd p.id).1 = .ok := by
      unfold Serves at hserves
      rw [hpc] at hserves
      dsimp only at hserves
      rw [hlength, getElem?_of_next hnext, hlive] at hserves
      exact hserves rfl p rfl _ rfl
    subst hinput
    obtain ⟨io', pk', hgo, hkept, hbody⟩ := readLoop_whole p h.key hlive hfd t now hlimit
    rw [hgo]
    exact ⟨⟨rest, out, hkept hg.websocket, hpushed, .filling rfl (synced.take hnext rfl) hbody⟩,
      by simp⟩
  · -- A part of a frame.
    obtain ⟨io', hgo, hkept⟩ := readLoop_part h.key hlive t now (Or.inr ⟨p, tail, htail, hframe⟩)
    rw [hgo]
    refine ⟨⟨input, out, hkept hg.websocket, hpushed, .waiting rfl synced ?_⟩, by simp⟩
    intro p' hnext' rest hwhole
    have hsame : p' = p :=
      Option.some.inj ((getElem?_of_next hnext').symm.trans (getElem?_of_next hnext))
    have hpos : 0 < tail.length := List.length_pos_iff.mpr htail
    have hlen := congrArg List.length hframe
    rw [hwhole, hsame] at hlen
    simp only [List.length_append] at hlen
    omega

/-- `cb_read` of the connection fills a packet into a slot. -/
theorem Inv.filling (h : Inv cfg sent be fd o) {t fd' id len now : ℤ}
    (hpc : o.state.ioPc = .readAlloc be t fd' id len) (hserves : Serves sent be o (.io now)) :
    Streams sent be fd ⟨o.state.readAlloc be t fd' id len, o.received, o.pushed⟩ := by
  obtain ⟨input, out, hg, hpushed, hstage⟩ := h.streams
  obtain ⟨p, rfl, rfl, rfl, synced, hbody⟩ := hstage.of_readAlloc hpc
  have hfree : o.state.recv.slots.pool.freeSlots ≠ [] := by
    unfold Serves at hserves
    rw [hpc] at hserves
    exact hserves rfl
  obtain ⟨recv', i, hgo, hhand, hcontent⟩ := readAlloc_fills h.custody p hpc hfree hbody
  rw [hgo]
  exact ⟨input, out, hg, hpushed, .pushing rfl synced hhand hcontent⟩

/-- `cb_read` of the connection pushes a packet. -/
theorem Inv.pushing (h : Inv cfg sent be fd o) {t now : ℤ} (hpc : o.state.ioPc = .readPush be t) :
    Streams sent be fd
      ⟨o.state.readPush be t, o.received, o.pushed ++ o.state.pushes be (.io now)⟩ := by
  obtain ⟨input, out, hg, hpushed, hstage⟩ := h.streams
  obtain ⟨p, i, synced, hhand, hcontent⟩ := hstage.of_readPush hpc
  -- The ring has room for all slots of the pool.
  obtain ⟨j, hj, hroom, -⟩ := h.custody.push_spec (by rw [hpc]; rfl) .qRecvIo
  have hpushes : o.state.pushes be (.io now) = [p.content] := by
    unfold ClientState.pushes
    rw [hpc]
    dsimp only
    rw [if_pos ⟨rfl, hroom⟩, hhand]
    show [(o.state.recv.list i).content] = _
    rw [hcontent]
  refine ⟨input, out ++ [p], hg, ?_, .looping rfl synced⟩
  rw [hpushes, hpushed, List.map_append, List.map_singleton]

/-- A step that is none of the connection's own leaves it where it stands. -/
theorem Inv.other (h : Inv cfg sent be fd o) (hpc : o.state.ioPc.reading be = false)
    (hread : ∀ bytes, a ≠ .read be bytes) (hevent : ∀ n, a ≠ .event be n) {s' : ClientState}
    (hstep : ClientState.step cfg o.state a = some s') :
    Streams sent be fd ⟨s', o.received, o.pushed⟩ ∧ s'.ioPc.reading be = false := by
  obtain ⟨input, out, hg, hpushed, hstage⟩ := h.streams
  obtain ⟨hkept, hpc'⟩ := ClientState.greeted_other h.registered hg hpc hread hevent hstep
  obtain ⟨synced, cut⟩ := hstage.of_not_reading hpc
  exact ⟨⟨input, out, hkept, hpushed, .waiting hpc' synced cut⟩, hpc'⟩

/-- A step of the logic thread leaves the connection where it stands. -/
theorem Inv.logic (h : Inv cfg sent be fd o) (ha : a.thread = .logic) {s' : ClientState}
    (hstep : ClientState.step cfg o.state a = some s') :
    Streams sent be fd ⟨s', o.received, o.pushed⟩ := by
  obtain ⟨input, out, hg, hpushed, hstage⟩ := h.streams
  obtain ⟨hio, hpc, hlist, hhand⟩ := ClientState.step_logic_side ha hstep
  have hg' : s'.io.Greeted be fd input := hio ▸ hg
  refine ⟨input, out, hg', hpushed, ?_⟩
  cases hstage with
  | waiting pc synced cut => exact .waiting (hpc ▸ pc) synced cut
  | looping pc synced => exact .looping (hpc.trans pc) synced
  | filling pc synced body => exact .filling (hpc.trans pc) synced (hio ▸ body)
  | pushing pc synced hand content =>
    exact .pushing (hpc.trans pc) synced (hhand.trans hand) (hlist ▸ content)

/-- A step of the io thread in a `cb_read` of the connection. -/
theorem Inv.reading (h : Inv cfg sent be fd o) {now : ℤ} (hserves : Serves sent be o (.io now))
    (hpc : o.state.ioPc.reading be = true) {s' : ClientState}
    (hstep : ClientState.step cfg o.state (.io now) = some s') :
    Streams sent be fd ⟨s', o.received, o.pushed ++ o.state.pushes be (.io now)⟩ := by
  have heq := ClientState.step_io_eq hstep
  rcases IoPc.reading_cases hpc with ⟨t, hk⟩ | ⟨t, fd', id, len, hk⟩ | ⟨t, hk⟩
  · have hnil : o.state.pushes be (.io now) = [] := pushes_eq_nil (by simp [hk])
    rw [hk] at heq
    dsimp only at heq
    rw [heq, hnil, List.append_nil]
    exact (h.looping hk hserves).1
  · have hnil : o.state.pushes be (.io now) = [] := pushes_eq_nil (by simp [hk])
    rw [hk] at heq
    dsimp only at heq
    rw [heq, hnil, List.append_nil]
    exact h.filling hk hserves
  · rw [hk] at heq
    dsimp only at heq
    rw [heq]
    exact h.pushing hk

/-- Outside the `cb_read`s of the connection nothing is pushed for it. -/
theorem pushes_other {s : ClientState} (hpc : s.ioPc.reading be = false) : s.pushes be a = [] := by
  apply pushes_eq_nil
  intro t ht
  rw [ht] at hpc
  exact absurd hpc (by simp [IoPc.reading])

/-- No bytes arrive in other steps. -/
theorem arrives_other (hread : ∀ bytes, a ≠ .read be bytes) : ClientState.arrives be a = [] := by
  cases a with
  | read k bytes =>
    have hk : k ≠ be := fun hk => hread bytes (by rw [hk])
    exact if_neg hk
  | _ => rfl

/-- In a `cb_read` the io thread goes on with it. -/
theorem io_of_reading {s s' : ClientState} (hpc : s.ioPc.reading be = true)
    (ha : a.thread = .io) (hstep : ClientState.step cfg s a = some s') : ∃ now, a = .io now := by
  have hbusy : s.ioPc ≠ .idle := by
    intro hidle
    rw [hidle] at hpc
    exact absurd hpc (by simp [IoPc.reading])
  cases a with
  | io now => exact ⟨now, rfl⟩
  | accept fd' =>
    obtain ⟨⟨hidle, -⟩, -⟩ := Option.ite_none_right_eq_some.mp hstep
    exact absurd hidle hbusy
  | read k bytes =>
    obtain ⟨-, -, hidle, -⟩ := ClientState.step_read_eq hstep
    exact absurd hidle hbusy
  | event k n =>
    obtain ⟨-, -, -, hidle, -⟩ := ClientState.step_event_eq hstep
    exact absurd hidle hbusy
  | tick =>
    obtain ⟨hidle, -⟩ := Option.ite_none_right_eq_some.mp hstep
    exact absurd hidle hbusy
  | _ => nomatch ha

/-- The logic thread pushes nothing for the connection, and no bytes arrive in its steps. -/
theorem logic_quiet (be : ℕ) (s : ClientState) (ha : a.thread = .logic) :
    s.pushes be a = [] ∧ ClientState.arrives be a = [] := by
  cases a with
  | logic | send _ _ _ | setLimit _ _ _ => exact ⟨rfl, rfl⟩
  | _ => nomatch ha

/-- Every step of the client path, in surroundings as asked for, keeps the invariant. -/
theorem Inv.step (h : Inv cfg sent be fd o) (hserves : Serves sent be o a)
    (hstep : Observed.step cfg be o a = some o') : Inv cfg sent be fd o' := by
  obtain ⟨s', hs, rfl⟩ := Option.map_eq_some_iff.mp hstep
  constructor
  · exact h.registered.step hs
  · exact h.custody.step hs
  · exact ClientState.step_key h.key hs
  · cases hpc : o.state.ioPc.reading be with
    | false =>
      rw [pushes_other hpc, List.append_nil]
      cases a with
      | read k bytes =>
        -- Bytes arrive, for this connection or for another one.
        by_cases hk : k = be
        · subst hk
          have harrives : ClientState.arrives k (.read k bytes) = bytes := if_pos rfl
          rw [harrives]
          exact h.read (hserves rfl) hs
        · have hread : ∀ bytes', ClientAction.read k bytes ≠ .read be bytes' := by
            intro bytes' heq
            exact hk (ClientAction.read.inj heq).1
          rw [arrives_other hread, List.append_nil]
          exact (h.other hpc hread (by simp) hs).1
      | event k n =>
        -- It is not this connection that ends.
        have hevent : ∀ n', ClientAction.event k n ≠ .event be n' := by
          intro n' heq
          exact hserves (ClientAction.event.inj heq).1
        rw [arrives_other (by simp), List.append_nil]
        exact (h.other hpc (by simp) hevent hs).1
      | _ =>
        rw [arrives_other (by simp), List.append_nil]
        exact (h.other hpc (by simp) (by simp) hs).1
    | true =>
      -- While `cb_read` runs the io thread does nothing else.
      cases hthread : a.thread with
      | io =>
        obtain ⟨now, rfl⟩ := io_of_reading hpc hthread hs
        rw [arrives_other (by simp), List.append_nil]
        exact h.reading hserves hpc hs
      | logic =>
        obtain ⟨hpushes, harrives⟩ := logic_quiet be o.state hthread
        rw [hpushes, harrives, List.append_nil, List.append_nil]
        exact h.logic hthread hs

/-- The invariant holds throughout every run of the client path in such surroundings. -/
theorem run_inv {s : ClientState} (run : ClientState.Run cfg anyStep s) (ready : Ready s be fd)
    (obs : Reach (Observed.step cfg be) (start s) (Serves sent be) o) : Inv cfg sent be fd o :=
  obs.invariant (inv_start run ready) fun _ _ _ _ h hok hstep => h.step hok hstep

/-! ## `cb_read` ends -/

/-- The steps that the io thread still needs for the `cb_read` that is under way, at most: three for
each packet. -/
def work (sent : List ClientPacket) (be : ℕ) (o : Observed) : ℕ :=
  match o.state.ioPc with
  | .readLoop k _ => if k = be then 3 * (sent.length - o.pushed.length) + 1 else 0
  | .readAlloc k _ _ _ _ => if k = be then 3 * (sent.length - o.pushed.length) else 0
  | .readPush k _ => if k = be then 3 * (sent.length - o.pushed.length) - 1 else 0
  | _ => 0

/-- The packets that are pushed and the one that is at hand are among those sent. -/
theorem Inv.length_le (h : Inv cfg sent be fd o) : o.pushed.length ≤ sent.length ∧
    ((∃ t fd' id len, o.state.ioPc = .readAlloc be t fd' id len) ∨
      (∃ t, o.state.ioPc = .readPush be t) → o.pushed.length < sent.length) := by
  obtain ⟨input, out, -, hpushed, hstage⟩ := h.streams
  have hlength : o.pushed.length = out.length := by rw [hpushed, List.length_map]
  rw [hlength]
  -- A packet at hand is one more.
  have hmore : ∀ p, Synced ClientPacket.bytes sent (out ++ [p]) o.received input →
      out.length < sent.length := by
    intro p synced
    have hle := synced.isPrefix.length_le
    rwa [List.length_append, List.length_singleton] at hle
  refine ⟨hstage.isPrefix.length_le, ?_⟩
  rintro (⟨t, fd', id, len, hk⟩ | ⟨t, hk⟩)
  · obtain ⟨p, -, -, -, synced, -⟩ := hstage.of_readAlloc hk
    exact hmore p synced
  · obtain ⟨p, -, synced, -⟩ := hstage.of_readPush hk
    exact hmore p synced

/-- Before `handle_packet`, a round for each packet that is left and the last one. -/
theorem work_of_readLoop {t : ℤ} (hpc : o.state.ioPc = .readLoop be t) :
    work sent be o = 3 * (sent.length - o.pushed.length) + 1 := by
  unfold work
  rw [hpc]
  exact if_pos rfl

/-- Without the last one, there is no more than the rounds. -/
theorem work_le (hpc : ∀ t, o.state.ioPc ≠ .readLoop be t) :
    work sent be o ≤ 3 * (sent.length - o.pushed.length) := by
  unfold work
  cases hk : o.state.ioPc with
  | readLoop k t =>
    dsimp only
    have hne : k ≠ be := fun hkb => hpc t (hkb ▸ hk)
    rw [if_neg hne]
    exact Nat.zero_le _
  | readAlloc | readPush =>
    dsimp only
    split_ifs <;> omega
  | _ => exact Nat.zero_le _

/-- Every step of the io thread brings the `cb_read` of the connection nearer to its end. -/
theorem Inv.work_lt (h : Inv cfg sent be fd o) {now : ℤ} (hserves : Serves sent be o (.io now))
    (hpc : o.state.ioPc.reading be = true) (hstep : Observed.step cfg be o (.io now) = some o') :
    work sent be o' < work sent be o := by
  have h' := (h.step hserves hstep).length_le.1
  obtain ⟨hle, hlt⟩ := h.length_le
  obtain ⟨s', hs, rfl⟩ := Option.map_eq_some_iff.mp hstep
  have heq := ClientState.step_io_eq hs
  rcases IoPc.reading_cases hpc with ⟨t, hk⟩ | ⟨t, fd', id, len, hk⟩ | ⟨t, hk⟩ <;> rw [hk] at heq
  · -- `cb_read` does not come back to the loop without a push.
    dsimp only at heq
    have hnil : o.state.pushes be (.io now) = [] := pushes_eq_nil (by simp [hk])
    have hround := (h.looping hk hserves).2
    rw [← heq] at hround
    rw [work_of_readLoop hk, hnil, List.append_nil]
    exact Nat.lt_succ_of_le (work_le hround)
  · have hmore := hlt (Or.inl ⟨t, fd', id, len, hk⟩)
    have hwork : work sent be o = 3 * (sent.length - o.pushed.length) := by
      unfold work
      rw [hk]
      exact if_pos rfl
    have hnil : o.state.pushes be (.io now) = [] := pushes_eq_nil (by simp [hk])
    obtain ⟨recv, pc, hgo, hcases⟩ := ClientState.readAlloc_eq o.state be t fd' id len
    dsimp only at heq
    rw [hwork, hnil, List.append_nil, heq, hgo]
    unfold work
    dsimp only
    rcases hcases with rfl | rfl | rfl
    · dsimp only
      omega
    · dsimp only
      omega
    · dsimp only
      rw [if_pos rfl]
      omega
  · have hmore := hlt (Or.inr ⟨t, hk⟩)
    have hwork : work sent be o = 3 * (sent.length - o.pushed.length) - 1 := by
      unfold work
      rw [hk]
      exact if_pos rfl
    -- The push makes up for the round.
    obtain ⟨i, hi, hroom, -⟩ := h.custody.push_spec (by rw [hk]; rfl) .qRecvIo
    have hpushes : (o.state.pushes be (.io now)).length = 1 := by
      unfold ClientState.pushes
      rw [hk]
      dsimp only
      rw [if_pos ⟨rfl, hroom⟩, hi]
      rfl
    rw [List.length_append, hpushes] at h'
    dsimp only at heq
    subst heq
    rw [hwork, work_of_readLoop (t := t) rfl]
    dsimp only
    rw [List.length_append, hpushes]
    omega

/-- The other steps do not. -/
theorem Inv.work_eq (ha : a.thread = .logic) (hstep : Observed.step cfg be o a = some o') :
    work sent be o' = work sent be o := by
  obtain ⟨s', hs, rfl⟩ := Option.map_eq_some_iff.mp hstep
  obtain ⟨-, hpc, -⟩ := ClientState.step_logic_side ha hs
  unfold work
  dsimp only
  rw [hpc, (logic_quiet be o.state ha).1, List.append_nil]

/-- A step in surroundings as asked for, in a `cb_read` of the connection. -/
def During (sent : List ClientPacket) (be : ℕ) (o : Observed) (a : ClientAction) : Prop :=
  Serves sent be o a ∧ o.state.ioPc.reading be = true

/-- During a `cb_read` of the connection the io thread takes no more steps than `work` says. -/
theorem Inv.countP_le (h : Inv cfg sent be fd o) {as : List ClientAction}
    (hok : execOk (Observed.step cfg be) (During sent be) o as)
    (hexec : exec (Observed.step cfg be) o as = some o') :
    as.countP (fun a => a.thread = .io) ≤ work sent be o := by
  induction as generalizing o with
  | nil => exact Nat.zero_le _
  | cons a as ih =>
    obtain ⟨⟨hserves, hpc⟩, hok⟩ := hok
    obtain ⟨o₁, hstep, hexec⟩ := Option.bind_eq_some_iff.mp hexec
    have hrest := ih (h.step hserves hstep) (hok o₁ hstep) hexec
    rw [List.countP_cons]
    cases hthread : a.thread with
    | io =>
      obtain ⟨s', hs, -⟩ := Option.map_eq_some_iff.mp hstep
      obtain ⟨now, rfl⟩ := io_of_reading hpc hthread hs
      have hlt := h.work_lt hserves hpc hstep
      rw [if_pos (by decide)]
      omega
    | logic =>
      have hsame : work sent be o₁ = work sent be o := Inv.work_eq hthread hstep
      rw [if_neg (by simp)]
      omega

/-- In a `cb_read` of the connection the io thread can go on. -/
theorem isSome_of_reading (hpc : o.state.ioPc.reading be = true) (now : ℤ) :
    (Observed.step cfg be o (.io now)).isSome = true := by
  have hsome : (o.state.ioNext cfg now).isSome = true := by
    unfold ClientState.ioNext
    rcases IoPc.reading_cases hpc with ⟨t, hk⟩ | ⟨t, fd', id, len, hk⟩ | ⟨t, hk⟩ <;> rw [hk] <;>
      rfl
  rw [Observed.step, Option.isSome_map]
  exact hsome

end Step

/-- However the bytes are cut, and whatever goes on around the connection: what `cb_read` has pushed
is a prefix of the packets, the connection is open, and when all bytes have arrived and no `cb_read`
is under way, exactly the packets have been pushed, in order. A `cb_read` that is under way can go
on, and ends after at most three steps of the io thread for each packet and one more. -/
theorem client_framing {cfg : ClientConfig} {sent : List ClientPacket} {be : ℕ} {fd : ℤ}
    {s : ClientState} {o : Observed} (run : ClientState.Run cfg anyStep s) (ready : Ready s be fd)
    (obs : Reach (Observed.step cfg be) (start s) (Serves sent be) o) :
    o.pushed <+: sent.map ClientPacket.content ∧
    (∃ input, o.state.io.Greeted be fd input) ∧
    (o.received = streamOf ClientPacket.bytes sent → o.state.ioPc.reading be = false →
      o.pushed = sent.map ClientPacket.content) ∧
    (o.state.ioPc.reading be = true → ∀ now, (Observed.step cfg be o (.io now)).isSome = true) ∧
    ∀ as o', execOk (Observed.step cfg be) (During sent be) o as →
      exec (Observed.step cfg be) o as = some o' →
      as.countP (fun a => a.thread = .io) ≤ 3 * sent.length + 1 := by
  have h := run_inv run ready obs
  obtain ⟨input, out, hg, hpushed, hstage⟩ := h.streams
  refine ⟨?_, ⟨input, hg⟩, ?_, fun hpc now => isSome_of_reading hpc now, ?_⟩
  · rw [hpushed]
    exact hstage.isPrefix.map _
  · intro hall hpc
    obtain ⟨synced, cut⟩ := hstage.of_not_reading hpc
    rcases synced.cases_all hall with ⟨hdone, -⟩ | ⟨p, rest, hnext, hinput⟩
    · rw [hpushed, hdone]
    · exact absurd hinput (cut p hnext rest)
  · intro as o' hok hexec
    have hcount := h.countP_le hok hexec
    have hwork : work sent be o ≤ 3 * sent.length + 1 := by
      unfold work
      split
      · split_ifs <;> omega
      · split_ifs <;> omega
      · split_ifs <;> omega
      · omega
    omega

instance Serves.decidable (sent : List ClientPacket) (be : ℕ) (o : Observed) :
    (a : ClientAction) → Decidable (Serves sent be o a)
  | .read k bytes =>
    inferInstanceAs (Decidable (k = be → o.received ++ bytes <+: streamOf ClientPacket.bytes sent))
  | .event k _ => inferInstanceAs (Decidable (k ≠ be))
  | .io now =>
    match h : o.state.ioPc with
    | .readLoop k t =>
      decidable_of_iff
        (k = be → ∀ p ∈ sent[o.pushed.length]?, ∀ b ∈ o.state.io.bes be,
          (o.state.pk.checkPkLimit (if t = 0 then now else t) b.fd p.id).1 = .ok)
        (by unfold Serves; rw [h])
    | .readAlloc k _ _ _ _ =>
      decidable_of_iff (k = be → o.state.recv.slots.pool.freeSlots ≠ []) (by unfold Serves; rw [h])
    | .idle | .readFree | .readPush _ _ | .closeAlloc _ _ _ _ | .closePush | .timePop | .timeSend
    | .timeFree _ | .crashed => .isTrue (by unfold Serves; rw [h]; trivial)
  | .accept _ | .tick | .logic | .send _ _ _ | .setLimit _ _ _ => .isTrue trivial

/-- A packet of id `1` without a body. -/
def shortPacket : ClientPacket where
  head := 0x82
  form := .len7
  key := [0, 0, 0, 0]
  id := 1
  body := []
  fin := by decide
  opcode := by decide
  form_ne := by decide
  key_length := rfl
  id_range := by decide
  body_le := by decide
  fits := by decide

/-- The packet arrives in two pieces. -/
def inPieces : List ClientAction :=
  [.read 0 (shortPacket.bytes.take 7), .io 1,
    .read 0 (shortPacket.bytes.drop 7), .io 1, .io 1, .io 1, .io 1]

/-- A packet that arrives in two pieces is pushed. -/
theorem client_framing_pieces :
    ∃ o : Observed, o.received = streamOf ClientPacket.bytes [shortPacket] ∧
    o.state.ioPc.reading 0 = false ∧ o.pushed = [shortPacket].map ClientPacket.content := by
  have hready : ((exec (ClientState.step (ClientState.smallConfig 4))
      (ClientState.init (ClientState.smallConfig 4)) ClientState.greeted).map fun s =>
        decide (s.ioPc.reading 0 = false ∧ s.io.fd2websocket 5 = true ∧
          (s.io.bes 0).map (fun b => (b.fd, b.input, b.cb)) = some (5, [], true))) = some true := by
    decide +kernel
  have hobs : ∀ s ∈ exec (ClientState.step (ClientState.smallConfig 4))
      (ClientState.init (ClientState.smallConfig 4)) ClientState.greeted,
      execOk (Observed.step (ClientState.smallConfig 4) 0) (Serves [shortPacket] 0)
      (start s) inPieces ∧
      (exec (Observed.step (ClientState.smallConfig 4) 0) (start s) inPieces).map (fun o =>
        (decide (o.received = streamOf ClientPacket.bytes [shortPacket]), o.state.ioPc.reading 0)) =
          some (true, false) := by
    decide +kernel
  obtain ⟨s, hs, hfields⟩ := Option.map_eq_some_iff.mp hready
  obtain ⟨hpc, hws, hbes⟩ := of_decide_eq_true hfields
  obtain ⟨⟨fd, input, output, cb⟩, hb, hfields⟩ := Option.map_eq_some_iff.mp hbes
  obtain ⟨rfl, hfields⟩ := Prod.mk.inj hfields
  obtain ⟨rfl, rfl⟩ := Prod.mk.inj hfields
  obtain ⟨hok, hend⟩ := hobs s hs
  obtain ⟨o, ho, hfields⟩ := Option.map_eq_some_iff.mp hend
  obtain ⟨hall, hpc'⟩ := Prod.mk.inj hfields
  have run : ClientState.Run (ClientState.smallConfig 4) anyStep s :=
    reach_of_exec .start (execOk_any _ _ _) hs
  have ready : Ready s 0 5 := ⟨hpc, ⟨output, hb⟩, hws⟩
  have obs : Reach (Observed.step (ClientState.smallConfig 4) 0) (start s)
      (Serves [shortPacket] 0) o :=
    reach_of_exec .start hok ho
  have hall' := of_decide_eq_true hall
  exact ⟨o, hall', hpc', (client_framing run ready obs).2.2.1 hall' hpc'⟩

end Observed

end Catse
