import Catse.Inner.Machine
import Catse.Lib.Framing

/-!
# Messages between servers as bytes on a connection

`cb_time_logic` and `cb_time_world` write a message as `buf_len` in four bytes and then `buf[0,
buf_len)`, and `cb_read` at the other end takes the messages out of its input buffer again.
`InnerLink` is one connection in one direction: what was written to it, how far it has arrived, and
the `cb_read` of the receiver, which is in its loop while `reading`. The bytes arrive in pieces of
any size, and each `msg_inner_pool.alloc()` gives a slot, with whatever an earlier message has left
in it, or fails. The receive ring has room.

`readIter` is one iteration of the loop of `cb_read` by itself, and `InnerState.readLoop` does what
it says (`readLoop_eq`). The invariant of the connection is `Synced` of `Catse/Lib/Framing.lean`.
-/

namespace Catse

/-- The bytes of a message. -/
def MsgInner.body (m : MsgInner) : List UInt8 := m.buf.take m.buf_len

/-- The frame of a message with the bytes `body`. -/
def innerFrame (body : List UInt8) : List UInt8 := leBytes 4 body.length ++ body

/-- `buf_len` is within `buf`. -/
def MsgInner.InBuf (m : MsgInner) : Prop :=
  m.buf.length = MsgInner.bufSize ∧ m.buf_len ≤ MsgInner.bufSize

instance (m : MsgInner) : Decidable m.InBuf := inferInstanceAs (Decidable (_ ∧ _))

/-- A message goes out as the frame of its bytes. -/
theorem MsgInner.InBuf.wire_eq {m : MsgInner} (h : m.InBuf) : m.wire = innerFrame m.body := by
  obtain ⟨hbuf, hlen⟩ := h
  have hbody : m.body.length = m.buf_len := by
    rw [MsgInner.body, List.length_take]
    omega
  rw [MsgInner.wire, innerFrame, hbody]
  rfl

/-- The bytes of a message are at most `sizeof(buf)`. -/
theorem MsgInner.InBuf.length_body_le {m : MsgInner} (h : m.InBuf) :
    m.body.length ≤ MsgInner.bufSize := by
  obtain ⟨hbuf, hlen⟩ := h
  rw [MsgInner.body, List.length_take]
  omega

/-! ## One iteration of `cb_read` -/

/-- What an iteration comes to: it returns, it closes the connection, or it pushes a message and
leaves `rest` in the input buffer. -/
inductive ReadIter where
  | ret
  | close
  | push (msg : MsgInner) (rest : List UInt8)

/-- One iteration of the loop of `thread_inner::cb_read` on the bytes of the input buffer, where
`slot` is what `alloc` returns if it is called. -/
def readIter (fd : ℤ) (input : List UInt8) (slot : Option MsgInner) : ReadIter :=
  let buf_len := ofLE (input.take 4)
  if input.length < 4 then .ret
  else if MsgInner.bufSize < buf_len then .close
  else if input.length < buf_len + 4 then .ret
  else
    match slot with
    | none => .ret
    | some m =>
      .push { m with
        buf := overwrite m.buf 0 ((input.drop 4).take buf_len)
        buf_len := buf_len
        fd := (fd % 2^16).toNat } (input.drop (4 + buf_len))

/-- The length at the front of a frame. -/
theorem ofLE_innerFrame {body rest : List UInt8} (h : body.length ≤ MsgInner.bufSize) :
    ofLE ((innerFrame body ++ rest).take 4) = body.length := by
  have htake : (innerFrame body ++ rest).take 4 = leBytes 4 body.length := by
    rw [innerFrame, List.append_assoc]
    exact List.take_left' (length_leBytes 4 _)
  have hsmall : body.length < 2^(8 * 4) := by
    unfold MsgInner.bufSize at h
    omega
  rw [htake, ofLE_leBytes, Nat.mod_eq_of_lt hsmall]

/-- An iteration takes a whole frame off the input buffer, when it gets a slot for it. -/
theorem readIter_whole {body : List UInt8} (h : body.length ≤ MsgInner.bufSize) (fd : ℤ)
    (m : MsgInner) (rest : List UInt8) :
    ∃ msg, readIter fd (innerFrame body ++ rest) (some m) = .push msg rest ∧
      msg.body = body ∧ msg.buf_len = body.length := by
  have hlen : (innerFrame body).length = 4 + body.length := by
    rw [innerFrame, List.length_append, length_leBytes]
  have hpayload : ((innerFrame body ++ rest).drop 4).take body.length = body := by
    rw [innerFrame, List.append_assoc, List.drop_left' (length_leBytes 4 _), List.take_left' rfl]
  have hrest : (innerFrame body ++ rest).drop (4 + body.length) = rest := List.drop_left' hlen
  unfold readIter
  rw [ofLE_innerFrame h]
  dsimp only
  rw [List.length_append, hlen, if_neg (by omega), if_neg (by omega), if_neg (by omega), hpayload,
    hrest]
  refine ⟨_, rfl, ?_, rfl⟩
  show (overwrite m.buf 0 body).take body.length = body
  rw [overwrite, List.take_zero, List.nil_append, List.take_left' rfl]

/-- An iteration returns when it gets no slot, at a length that a slot can hold. -/
theorem readIter_none (fd : ℤ) {input : List UInt8}
    (hlen : ofLE (input.take 4) ≤ MsgInner.bufSize) : readIter fd input none = .ret := by
  unfold readIter
  dsimp only
  rw [if_neg (by omega : ¬ MsgInner.bufSize < ofLE (input.take 4))]
  split_ifs
  · rfl
  · rfl
  · rfl

/-- An iteration returns at a part of a frame. -/
theorem readIter_part {body input tail : List UInt8} (h : body.length ≤ MsgInner.bufSize)
    (hframe : input ++ tail = innerFrame body) (htail : tail ≠ []) (fd : ℤ)
    (slot : Option MsgInner) : readIter fd input slot = .ret := by
  unfold readIter
  by_cases hshort : input.length < 4
  · rw [if_pos hshort]
  · have htake : input.take 4 = (innerFrame body ++ []).take 4 := by
      rw [List.append_nil, ← hframe, List.take_append_of_le_length (by omega)]
    have hlen : ofLE (input.take 4) = body.length := by
      rw [htake]
      exact ofLE_innerFrame h
    have htotal : input.length + tail.length = 4 + body.length := by
      rw [← List.length_append, hframe, innerFrame, List.length_append, length_leBytes]
    have hpos : 0 < tail.length := List.length_pos_iff.mpr htail
    rw [if_neg hshort, hlen, if_neg (by omega), if_pos (by omega)]

/-- The loop of `cb_read` in the machine goes through the iteration that `readIter` says. -/
theorem InnerState.readLoop_eq (s : InnerState) {be : ℕ} {b : Bufferevent}
    (hb : s.inner.bes be = some b) :
    let slots := s.slots.alloc .inner
    (readIter b.fd b.input ((slots.hand .inner).map s.list) = .close ∧
        s.readLoop be = s.closeConnect (some be) false) ∨
      (readIter b.fd b.input ((slots.hand .inner).map s.list) = .ret ∧
        (s.readLoop be = { s with pc := .idle } ∨
          s.readLoop be = { s with slots := slots, pc := .idle })) ∨
      ∃ i msg rest, slots.hand .inner = some i ∧
        readIter b.fd b.input ((slots.hand .inner).map s.list) = .push msg rest ∧
        s.readLoop be = { s with
          slots := slots
          list := Function.update s.list i msg
          inner := s.inner.setBe be (some { b with input := rest })
          pc := .readPush be } := by
  intro slots
  unfold InnerState.readLoop InnerState.useBe readIter
  simp only [hb]
  split_ifs with hshort hlarge hpart
  · exact Or.inr (Or.inl ⟨rfl, Or.inl rfl⟩)
  · exact Or.inl ⟨rfl, rfl⟩
  · exact Or.inr (Or.inl ⟨rfl, Or.inl rfl⟩)
  · show _ ∨ _ ∨ _
    cases hhand : slots.hand .inner with
    | none =>
      right
      left
      refine ⟨rfl, Or.inr ?_⟩
      simp only [slots] at hhand ⊢
    | some i =>
      right
      right
      refine ⟨i, _, _, rfl, rfl, ?_⟩
      simp only [slots] at hhand ⊢

/-- `bufferevent_write` of a message that `cb_time_logic` or `cb_time_world` has popped adds its
bytes to the output of the connection. -/
theorem InnerState.write_output (s : InnerState) {k : ℕ} {b : Bufferevent}
    (hb : s.inner.bes k = some b) (m : MsgInner) (pc : InnerPc) :
    (s.write (some k) m.wire pc).inner.bes k = some { b with output := b.output ++ m.wire } ∧
      (s.write (some k) m.wire pc).pc = pc := by
  simp [InnerState.write, InnerState.useBe, hb, ThreadInner.setBe]

/-! ## A connection -/

/-- A connection in one direction: the messages written and their bytes, the bytes that have
arrived, and at the receiver the input buffer, whether `cb_read` is in its loop, whether it has
closed the connection, and what it has pushed. -/
structure InnerLink where
  sent : List MsgInner
  output : List UInt8
  received : List UInt8
  input : List UInt8
  reading : Bool
  closed : Bool
  pushed : List MsgInner

/-- The sender writes a message; the next `n` bytes arrive and libevent calls `cb_read`; or
`cb_read` goes through its loop once more, and `slot` is what `alloc` returns. -/
inductive LinkAction where
  | write (m : MsgInner)
  | read (n : ℕ)
  | iterate (slot : Option MsgInner)

namespace InnerLink

/-- A new connection. -/
def init : InnerLink := ⟨[], [], [], [], false, false, []⟩

/-- The `n` bytes that arrive next. -/
def arriving (s : InnerLink) (n : ℕ) : List UInt8 := (s.output.drop s.received.length).take n

/-- A step, with the receiver's descriptor `fd`. -/
def step (fd : ℤ) (s : InnerLink) : LinkAction → Option InnerLink
  | .write m =>
    if m.InBuf then some { s with sent := s.sent ++ [m], output := s.output ++ m.wire } else none
  | .read n =>
    if s.reading = false ∧ s.closed = false then
      some { s with
        received := s.received ++ s.arriving n
        input := s.input ++ s.arriving n
        reading := true }
    else none
  | .iterate slot =>
    if s.reading then
      match readIter fd s.input slot with
      | .ret => some { s with reading := false }
      | .close => some { s with reading := false, closed := true }
      | .push msg rest => some { s with input := rest, pushed := s.pushed ++ [msg] }
    else none

/-- A state that some run of the connection reaches. -/
abbrev Run (fd : ℤ) : InnerLink → Prop := Reach (step fd) init anyStep

/-- The messages written and those pushed are synchronised with the bytes, and the connection is
open. -/
structure Inv (s : InnerLink) : Prop where
  synced : Synced innerFrame (s.sent.map MsgInner.body) (s.pushed.map MsgInner.body) s.received
    s.input
  output_eq : s.output = streamOf innerFrame (s.sent.map MsgInner.body)
  inBuf : ∀ m ∈ s.sent, m.InBuf
  whole : ∀ m ∈ s.pushed, m.buf_len = m.body.length
  open_ : s.closed = false

theorem inv_init : Inv init where
  synced := .start
  output_eq := rfl
  inBuf _ hm := absurd hm (by simp [init])
  whole _ hm := absurd hm (by simp [init])
  open_ := rfl

/-- The bytes of the messages that are still to come fit into a slot. -/
theorem Inv.length_le {s : InnerLink} (h : s.Inv) {body : List UInt8}
    (hnext : s.pushed.map MsgInner.body ++ [body] <+: s.sent.map MsgInner.body) :
    body.length ≤ MsgInner.bufSize := by
  obtain ⟨msgs, hmsgs⟩ := hnext
  have hmem : body ∈ s.sent.map MsgInner.body := by
    rw [← hmsgs]
    simp
  obtain ⟨m, hm, rfl⟩ := List.mem_map.mp hmem
  exact (h.inBuf m hm).length_body_le

/-- What an iteration finds: all messages taken, a whole frame for which it gets a slot or not, or a
part of one. -/
theorem Inv.readIter_cases {s : InnerLink} (h : s.Inv) (fd : ℤ) (slot : Option MsgInner) :
    readIter fd s.input slot = .ret ∨
    ∃ msg rest m, slot = some m ∧ readIter fd s.input slot = .push msg rest ∧
      Synced innerFrame (s.sent.map MsgInner.body) ((s.pushed ++ [msg]).map MsgInner.body)
        s.received rest ∧ msg.buf_len = msg.body.length := by
  rcases h.synced.cases with ⟨-, hempty⟩ | ⟨body, rest, hnext, hinput⟩ |
    ⟨body, tail, hnext, htail, hframe⟩
  · left
    rw [hempty]
    rfl
  · have hlen := h.length_le hnext
    cases slot with
    | none =>
      left
      apply readIter_none
      rw [hinput, ofLE_innerFrame hlen]
      exact hlen
    | some m =>
      right
      obtain ⟨msg, hpush, hbody, hmsg⟩ := readIter_whole hlen fd m rest
      rw [← hinput] at hpush
      rw [← hbody] at hmsg
      refine ⟨msg, rest, m, rfl, hpush, ?_, hmsg⟩
      rw [List.map_append, List.map_singleton, hbody]
      exact h.synced.take hnext hinput
  · have hlen := h.length_le hnext
    exact Or.inl (readIter_part hlen hframe htail fd slot)

/-- What arrives next is the continuation of what has arrived. -/
theorem Inv.arriving {s : InnerLink} (h : s.Inv) (n : ℕ) :
    s.received ++ s.arriving n <+: streamOf innerFrame (s.sent.map MsgInner.body) := by
  obtain ⟨rest, hrest⟩ := h.synced.arrived
  unfold InnerLink.arriving
  rw [h.output_eq, ← hrest, List.drop_left' rfl]
  exact (List.prefix_append_right_inj _).mpr (List.take_prefix n rest)

/-- Every step keeps the invariant. -/
theorem Inv.step {fd : ℤ} {s s' : InnerLink} {a : LinkAction} (h : s.Inv)
    (hs : InnerLink.step fd s a = some s') : s'.Inv := by
  cases a with
  | write m =>
    simp only [InnerLink.step] at hs
    split_ifs at hs with hbuf
    obtain rfl := Option.some.inj hs
    constructor
    · show Synced innerFrame ((s.sent ++ [m]).map MsgInner.body) _ _ _
      rw [List.map_append, List.map_singleton]
      exact h.synced.send m.body
    · show s.output ++ m.wire = streamOf innerFrame ((s.sent ++ [m]).map MsgInner.body)
      rw [List.map_append, streamOf_append, h.output_eq, hbuf.wire_eq]
      simp
    · intro m' hm'
      rcases List.mem_append.mp hm' with hold | hnew
      · exact h.inBuf m' hold
      · rw [List.mem_singleton.mp hnew]
        exact hbuf
    · exact h.whole
    · exact h.open_
  | read n =>
    simp only [InnerLink.step] at hs
    split_ifs at hs with hidle
    obtain rfl := Option.some.inj hs
    constructor
    · exact h.synced.receive (h.arriving n)
    · exact h.output_eq
    · exact h.inBuf
    · exact h.whole
    · exact h.open_
  | iterate slot =>
    simp only [InnerLink.step] at hs
    split_ifs at hs with hreading
    rcases h.readIter_cases fd slot with hret | ⟨msg, rest, m, -, hpush, hsynced, hmsg⟩
    · -- Nothing is taken, and the loop ends.
      rw [hret] at hs
      obtain rfl := Option.some.inj hs
      exact ⟨h.synced, h.output_eq, h.inBuf, h.whole, h.open_⟩
    · -- The message at the front is taken, and it is the next one that was sent.
      rw [hpush] at hs
      obtain rfl := Option.some.inj hs
      constructor
      · exact hsynced
      · exact h.output_eq
      · exact h.inBuf
      · intro m' hm'
        rcases List.mem_append.mp hm' with hold | hnew
        · exact h.whole m' hold
        · rw [List.mem_singleton.mp hnew]
          exact hmsg
      · exact h.open_

/-- The invariant holds throughout every run. -/
theorem run_inv {fd : ℤ} {s : InnerLink} (run : Run fd s) : s.Inv :=
  run.invariant inv_init fun _ _ _ _ h _ hs => h.step hs

/-- The length and the bytes of each of the messages, as far as both sides keep them. -/
def contents (msgs : List MsgInner) : List (ℕ × List UInt8) := msgs.map fun m => (m.buf_len, m.body)

/-- Messages that are whole have the contents that their bytes say. -/
theorem contents_eq {msgs : List MsgInner} (h : ∀ m ∈ msgs, m.buf_len = m.body.length) :
    contents msgs = (msgs.map MsgInner.body).map fun b => (b.length, b) := by
  rw [contents, List.map_map]
  apply List.map_congr_left
  intro m hm
  rw [h m hm]
  rfl

/-- So are the messages that were written. -/
theorem Inv.whole_sent {s : InnerLink} (h : s.Inv) : ∀ m ∈ s.sent, m.buf_len = m.body.length := by
  intro m hm
  obtain ⟨hbuf, hlen⟩ := h.inBuf m hm
  rw [MsgInner.body, List.length_take]
  omega

/-- The call of `cb_read` with the slots that its iterations get: one iteration for each slot. -/
def iterations (slots : ℕ → MsgInner) (k : ℕ) : List LinkAction :=
  (List.range k).map fun i => .iterate (some (slots i))

/-- When all bytes have arrived and every `alloc` gets a slot, `cb_read` ends after some number of
iterations with everything pushed. -/
theorem Inv.drains {fd : ℤ} {s : InnerLink} (h : s.Inv) (hreading : s.reading = true)
    (hall : s.received = s.output) (slots : ℕ → MsgInner) :
    ∃ k s', exec (InnerLink.step fd) s (iterations slots k) = some s' ∧ s'.reading = false ∧
      s'.sent = s.sent ∧ s'.pushed.map MsgInner.body = s.sent.map MsgInner.body := by
  -- Induction on the number of messages that are still to be pushed.
  induction hn : s.sent.length - s.pushed.length generalizing s slots with
  | zero =>
    have hall' := hall
    rw [h.output_eq] at hall'
    rcases h.synced.cases_all hall' with ⟨hdone, hempty⟩ | ⟨body, rest, hnext, -⟩
    · have hret : readIter fd s.input (some (slots 0)) = .ret := by
        rw [hempty]
        rfl
      refine ⟨1, { s with reading := false }, ?_, rfl, rfl, hdone⟩
      simp [iterations, exec, InnerLink.step, hreading, hret]
    · have hlen := hnext.length_le
      simp only [List.length_append, List.length_map, List.length_singleton] at hlen
      omega
  | succ n ih =>
    have hall' := hall
    rw [h.output_eq] at hall'
    rcases h.synced.cases_all hall' with ⟨hdone, -⟩ | ⟨body, rest, hnext, hinput⟩
    · have hlen := congrArg List.length hdone
      simp only [List.length_map] at hlen
      omega
    · obtain ⟨msg, hpush, hbody, -⟩ := readIter_whole (h.length_le hnext) fd (slots 0) rest
      rw [← hinput] at hpush
      have hstep : InnerLink.step fd s (.iterate (some (slots 0))) =
          some { s with input := rest, pushed := s.pushed ++ [msg] } := by
        simp [InnerLink.step, hreading, hpush]
      obtain ⟨k, s', hexec, hend, hsent, hpushed⟩ := ih (h.step hstep) hreading hall
        (fun i => slots (i + 1)) (by simp; omega)
      refine ⟨k + 1, s', ?_, hend, hsent, hpushed⟩
      have hsplit : iterations slots (k + 1) =
          .iterate (some (slots 0)) :: iterations (fun i => slots (i + 1)) k := by
        simp [iterations, List.range_succ_eq_map]
      rw [hsplit, exec, hstep, Option.bind_some]
      exact hexec

/-- However the bytes are cut and whichever calls of `alloc` fail: what `cb_read` has pushed is a
prefix of what was written, a call without a slot leaves the input buffer as it is, and a call that
has all the bytes and gets all its slots pushes everything. -/
theorem inner_framing {fd : ℤ} {s : InnerLink} (run : Run fd s) :
    contents s.pushed <+: contents s.sent ∧ s.closed = false ∧
    (∀ s', step fd s (.iterate none) = some s' → s' = { s with reading := false }) ∧
    ∀ n s', step fd s (.read n) = some s' → s'.received = s'.output → ∀ slots : ℕ → MsgInner,
      ∃ k t, exec (step fd) s' (iterations slots k) = some t ∧ t.reading = false ∧
        t.sent = s.sent ∧ contents t.pushed = contents s.sent := by
  have h := run_inv run
  refine ⟨?_, h.open_, ?_, ?_⟩
  · rw [contents_eq h.whole, contents_eq h.whole_sent]
    exact h.synced.isPrefix.map _
  · intro s' hs
    rw [step] at hs
    split_ifs at hs with hreading
    rcases h.readIter_cases fd none with hret | ⟨msg, rest, m, hnone, -⟩
    · rw [hret] at hs
      exact (Option.some.inj hs).symm
    · exact absurd hnone (by simp)
  · intro n s' hs hall slots
    have hsent : s'.reading = true ∧ s'.sent = s.sent := by
      rw [step] at hs
      split_ifs at hs with hidle
      rw [← Option.some.inj hs]
      exact ⟨rfl, rfl⟩
    have h' := h.step hs
    obtain ⟨k, t, hexec, hend, hsame, hpushed⟩ := h'.drains hsent.1 hall slots
    have ht : t.Inv := by
      have hrun : Reach (step fd) s' anyStep t := reach_of_exec .start (execOk_any _ _ _) hexec
      exact hrun.invariant h' fun _ _ _ _ h _ hs => h.step hs
    refine ⟨k, t, hexec, hend, hsame.trans hsent.2, ?_⟩
    rw [contents_eq ht.whole, contents_eq h.whole_sent, hpushed, hsent.2]

/-- Two messages. The first is cut within its length, and there is no slot when it has arrived in
part; it is pushed when one byte of the second is there too. The rest of the second comes after a
call without a slot, and then both are pushed. -/
theorem inner_framing_two : ∃ s s' k t, Run 7 s ∧ contents s.pushed = [(1, [65])] ∧
    step 7 s (.read 20) = some s' ∧ exec (step 7) s' (iterations (fun _ => ⟨[], 0, 0⟩) k) = some t ∧
    t.reading = false ∧ contents s.pushed <+: contents s.sent ∧
    contents t.pushed = [(1, [65]), (2, [66, 67])] := by
  -- What is behind the bytes of a message in its buffer plays no part.
  obtain ⟨tail, htail⟩ : ∃ tail : List UInt8, tail.length = 204798 :=
    ⟨List.replicate 204798 0, List.length_replicate⟩
  let m : MsgInner := ⟨65 :: 0 :: tail, 1, 0⟩
  let m' : MsgInner := ⟨66 :: 67 :: tail, 2, 0⟩
  have hin : m.InBuf := ⟨congrArg (· + 2) htail, by norm_num [m, MsgInner.bufSize]⟩
  have hin' : m'.InBuf := ⟨congrArg (· + 2) htail, by norm_num [m', MsgInner.bufSize]⟩
  have hlen : leBytes 4 1 = [1, 0, 0, 0] := by decide +kernel
  have hlen' : leBytes 4 2 = [2, 0, 0, 0] := by decide +kernel
  have hwire : m.wire = [1, 0, 0, 0, 65] := congrArg (· ++ [65]) hlen
  have hwire' : m'.wire = [2, 0, 0, 0, 66, 67] := congrArg (· ++ [66, 67]) hlen'
  let sent : InnerLink :=
    { init with sent := [m, m'], output := [1, 0, 0, 0, 65, 2, 0, 0, 0, 66, 67] }
  have hwrite : exec (step 7) init [.write m, .write m'] = some sent := by
    simp only [exec, step, if_pos hin, if_pos hin', hwire, hwire', Option.bind_some]
    rfl
  have hrest : ((exec (step 7) sent [.read 2, .iterate none, .read 4,
      .iterate (some ⟨[], 0, 0⟩), .iterate none]).map fun s =>
        (s.sent, s.received, s.output, s.reading, s.closed, contents s.pushed)) =
      some ([m, m'], [1, 0, 0, 0, 65, 2], [1, 0, 0, 0, 65, 2, 0, 0, 0, 66, 67], false, false,
        [(1, [65])]) := rfl
  obtain ⟨s, hs, he⟩ := Option.map_eq_some_iff.mp hrest
  obtain ⟨hsent, hreceived, houtput, hreading, hclosed, hpushed⟩ := by
    simpa only [Prod.mk.injEq] using he
  have hrun : Run 7 s :=
    reach_of_exec (reach_of_exec .start (execOk_any _ _ _) hwrite) (execOk_any _ _ _) hs
  obtain ⟨hpre, -, -, hdrains⟩ := inner_framing hrun
  have hread : step 7 s (.read 20) = some { s with
      received := s.received ++ s.arriving 20
      input := s.input ++ s.arriving 20
      reading := true } := if_pos ⟨hreading, hclosed⟩
  -- With the next 20 bytes all has arrived.
  have hall : s.received ++ s.arriving 20 = s.output := by
    rw [arriving, hreceived, houtput]
    rfl
  obtain ⟨k, t, hexec, hend, -, hcontents⟩ := hdrains 20 _ hread hall fun _ => ⟨[], 0, 0⟩
  refine ⟨s, _, k, t, hrun, hpushed, hread, hexec, hend, hpre, ?_⟩
  rw [hcontents, hsent]
  rfl

end InnerLink

end Catse
