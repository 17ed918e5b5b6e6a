import Catse.Common.Slots
import Catse.Common.MsgStruct
import Catse.Common.FdTable
import Catse.Lib.Transition

/-!
# The inter-server path: the inner thread and the logic thread

Servers talk to each other through a middle server. `thread_inner.h` runs on all of them: with
`isMiddle` it listens for the other servers, and without it keeps one connection, `beNormal`, to the
middle server. What arrives goes to the logic thread through `q_inner_recv` (`handle_inner` of
`thread_logic.cpp`), and what Lua code writes with `msg_inner_parse.h` goes out through
`q_inner_send`. Both rings share one pool.

As in `Catse/Client/Machine.lean`, a step is what one thread does up to and including its next
operation on the pool or on a ring, `InnerPc` says where the inner thread is, and what comes from
outside is the action. The event loop of libevent runs one callback of the inner thread at a time.
The logic thread needs no program counter: it is in `handle_inner` while it holds a message that it
has popped, and the message that its Lua code writes is a pointer that outlives every call.

To use a bufferevent through a null pointer, or after it has been freed, is undefined behaviour. The
inner thread is at `fault` then and takes no more steps.
-/

namespace Catse

/-- The rings that `msg_inner` slots travel through. -/
inductive InnerRing where
  | qInnerRecv
  | qInnerSend
  deriving DecidableEq

instance : Fintype InnerRing :=
  ⟨{.qInnerRecv, .qInnerSend}, fun t => by cases t <;> decide⟩

/-- The pointers to `msg_inner` slots: the local `msg` of `thread_inner`, that of `handle_inner`,
and `msg_inner_parse::msg_send`. -/
inductive InnerHand where
  | inner
  | reader
  | writer
  deriving DecidableEq

instance : Fintype InnerHand :=
  ⟨{.inner, .reader, .writer}, fun t => by cases t <;> decide⟩

/-- The configuration: the capacity of `msg_inner_pool`, and the kind and the index of the
server. -/
structure InnerConfig where
  cap : ℕ
  isMiddle : Bool
  svr_index : ℤ

/-- `thread_inner::connect_state`: `0`, `1` and `2`. -/
inductive ConnectState where
  | closed
  | connecting
  | connected
  deriving DecidableEq

/-- `thread_inner`. `bes` has the live bufferevents, of the `created` that there have been. -/
structure ThreadInner where
  isMiddle : Bool
  table : FdTable ℕ
  bes : ℕ → Option Bufferevent
  created : ℕ
  beNormal : Option ℕ
  needConnect : Bool
  forceClose : Bool
  setIp : Bool
  connect_state : ConnectState
  svr_index : ℤ

namespace ThreadInner

/-- `PACKET_ID_HELLO`. -/
def packetIdHello : ℤ := 1

/-- `PACKET_ID_DISCONNECT_LW`. -/
def packetIdDisconnectLw : ℤ := 2

/-- `PACKET_ID_DISCONNECT_WL`. -/
def packetIdDisconnectWl : ℤ := 4

/-- Is `fd` an open socket of some bufferevent? -/
def isOpen (t : ThreadInner) (fd : ℤ) : Bool :=
  (List.range t.created).any fun be => (t.bes be).any (·.fd = fd)

/-- `thread_inner::cb_listener`. A connection that `fd_add` refuses keeps its bufferevent, without
callbacks. -/
def cbListener (t : ThreadInner) (fd : ℤ) : ThreadInner :=
  let add := t.table.fdAdd fd t.created
  { t with
    table := add.2
    bes := Function.update t.bes t.created (some ⟨fd, [], [], add.1⟩)
    created := t.created + 1 }

/-- `bufferevent_socket_new(eb, -1, BEV_OPT_CLOSE_ON_FREE)`, where `beNormal` is null. -/
def newNormal (t : ThreadInner) : ThreadInner :=
  if t.beNormal = none then
    { t with
      bes := Function.update t.bes t.created (some ⟨-1, [], [], false⟩)
      created := t.created + 1
      beNormal := some t.created }
  else t

/-- `beNormal = 0; connect_state = 0;`. -/
def reset (t : ThreadInner) : ThreadInner :=
  { t with beNormal := none, connect_state := .closed }

/-- The bufferevent `be` is replaced or, with `none`, freed. -/
def setBe (t : ThreadInner) (be : ℕ) (b : Option Bufferevent) : ThreadInner :=
  { t with bes := Function.update t.bes be b }

end ThreadInner

/-- Where the inner thread is: outside its callbacks (`idle`), before the call of `connect` or of
`bufferevent_socket_connect` (`connect`), in the loop of `cb_read`, in `close_connect` (`reset` says
whether the caller resets `beNormal` afterwards), in the loop of `cb_time_logic` or
`cb_time_world`, or nowhere after undefined behaviour. -/
inductive InnerPc where
  | idle
  | connect
  | readLoop (be : ℕ)
  | readPush (be : ℕ)
  | closeAlloc (fd : ℤ) (reset : Bool)
  | closePush (reset : Bool)
  | timePop
  | timeFree
  | fault
  deriving DecidableEq

/-- What `bufferevent_socket_connect` does: it starts to connect on a descriptor, or it returns an
error with or without a descriptor, or it runs the event callback before it returns an error. -/
inductive ConnectResult where
  | started (fd : ℤ)
  | failed (fd : ℤ)
  | failedEvent
  deriving DecidableEq

/-- The inner thread, what the logic thread holds, and what they share. -/
structure InnerState where
  slots : Slots InnerRing InnerHand
  list : ℕ → MsgInner
  inner : ThreadInner
  pc : InnerPc

namespace InnerState

/-- `global::init` and `thread_inner::init`: the rings have as many cells as the pool has slots. -/
def init (cfg : InnerConfig) : InnerState where
  slots := Slots.init cfg.cap fun _ => cfg.cap
  list := fun _ => ⟨List.replicate MsgInner.bufSize 0, 0, 0⟩
  inner :=
    { isMiddle := cfg.isMiddle
      table := FdTable.empty
      bes := fun _ => none
      created := 0
      beNormal := none
      needConnect := false
      forceClose := false
      setIp := false
      connect_state := .closed
      svr_index := cfg.svr_index }
  pc := .idle

/-- What a call with the bufferevent `be` does, when `be` is live. -/
def useBe (s : InnerState) (be : Option ℕ) (f : ℕ → Bufferevent → InnerState) : InnerState :=
  match be with
  | none => { s with pc := .fault }
  | some k =>
    match s.inner.bes k with
    | none => { s with pc := .fault }
    | some b => f k b

/-- `bufferevent_write`, after which the thread is at `pc`. -/
def write (s : InnerState) (be : Option ℕ) (bytes : List UInt8) (pc : InnerPc) : InnerState :=
  s.useBe be fun k b =>
    { s with inner := s.inner.setBe k (some { b with output := b.output ++ bytes }), pc := pc }

/-! ## `close_connect` and the ends of the connection to the middle server -/

/-- The start of `close_connect`. -/
def closeConnect (s : InnerState) (be : Option ℕ) (reset : Bool) : InnerState :=
  s.useBe be fun k b =>
    { s with
      inner := { s.inner.setBe k none with table := (s.inner.table.fdDel b.fd).2 }
      pc := .closeAlloc b.fd reset }

/-- The return from `close_connect`, and what its caller does then. -/
def closed (s : InnerState) (reset : Bool) : InnerState :=
  { s with inner := if reset then s.inner.reset else s.inner, pc := .idle }

/-- The report that `close_connect` fills in. -/
def closeMsg (isMiddle : Bool) (m : MsgInner) (fd : ℤ) : MsgInner :=
  ({ m with fd := (fd % 2^16).toNat, buf_len := 0 }.writeInt
    (if isMiddle then ThreadInner.packetIdDisconnectLw
      else ThreadInner.packetIdDisconnectWl)).2

/-- The rest of `close_connect` up to `push`. -/
def closeAlloc (s : InnerState) (fd : ℤ) (reset : Bool) : InnerState :=
  let slots := s.slots.alloc .inner
  match slots.hand .inner with
  | none => { s with slots := slots }.closed reset
  | some i =>
    { s with
      slots := slots
      list := Function.update s.list i (closeMsg s.inner.isMiddle (s.list i) fd)
      pc := .closePush reset }

/-- The end of `close_connect`. -/
def closePush (s : InnerState) (reset : Bool) : InnerState :=
  { s with slots := s.slots.push .inner .qInnerRecv }.closed reset

/-- The end of the connection in `dis_connect` and `cb_event`. -/
def dropNormal (s : InnerState) : InnerState :=
  if s.inner.beNormal ≠ none ∧ s.inner.connect_state = .connected then
    s.closeConnect s.inner.beNormal true
  else
    s.useBe s.inner.beNormal fun k _ =>
      { s with inner := (s.inner.setBe k none).reset, pc := .idle }

/-- `thread_inner::dis_connect`. -/
def disConnect (s : InnerState) : InnerState :=
  if s.inner.beNormal = none then { s with pc := .idle } else s.dropNormal

/-! ## Events -/

/-- `BEV_EVENT_ERROR`. -/
def bevEventError : ℕ := 0x20

/-- `thread_inner::sendHelloPacketToWorld`. -/
def sendHello (s : InnerState) : InnerState :=
  s.write s.inner.beNormal (leBytes 4 8 ++ leBytes 4 ThreadInner.packetIdHello.toNat ++
    leBytes 4 (s.inner.svr_index % 2^32).toNat) .idle

/-- `thread_inner::cb_event`. The flag `BEV_EVENT_CONNECTED` is bit `7`. -/
def cbEvent (s : InnerState) (be nEvents : ℕ) : InnerState :=
  if s.inner.isMiddle then s.closeConnect (some be) false
  else if nEvents.testBit 7 then
    { s with inner := { s.inner with connect_state := .connected } }.sendHello
  else s.dropNormal

/-- The rest of `connect` from `bufferevent_setcb` on. -/
def socketConnect (s : InnerState) (r : ConnectResult) : InnerState :=
  s.useBe s.inner.beNormal fun k b =>
    let inner (fd : ℤ) : ThreadInner :=
      { s.inner.setBe k (some { b with cb := true, fd := fd }) with needConnect := false }
    match r with
    | .started fd =>
      { s with inner := { inner fd with connect_state := .connecting }, pc := .idle }
    | .failed fd => { s with inner := inner fd, pc := .idle }
    | .failedEvent => { s with inner := inner b.fd }.cbEvent k bevEventError

/-- `thread_inner::connect`, where `created` says whether `bufferevent_socket_new` has memory. -/
def connect (s : InnerState) (created : Bool) (r : ConnectResult) : InnerState :=
  if s.inner.isMiddle ∨ s.inner.connect_state ≠ .closed ∨ s.inner.setIp = false then
    { s with pc := .idle }
  else if s.inner.beNormal = none ∧ created = false then { s with pc := .idle }
  else { s with inner := s.inner.newNormal }.socketConnect r

/-! ## Reading -/

/-- One iteration of the loop of `cb_read` up to `push`. -/
def readLoop (s : InnerState) (be : ℕ) : InnerState :=
  s.useBe (some be) fun k b =>
    let buf_len := ofLE (b.input.take 4)
    if b.input.length < 4 then { s with pc := .idle }
    else if MsgInner.bufSize < buf_len then s.closeConnect (some k) false
    else if b.input.length < buf_len + 4 then { s with pc := .idle }
    else
      let slots := s.slots.alloc .inner
      match slots.hand .inner with
      | none => { s with slots := slots, pc := .idle }
      | some i =>
        let m := s.list i
        { s with
          slots := slots
          list := Function.update s.list i { m with
            buf := overwrite m.buf 0 ((b.input.drop 4).take buf_len)
            buf_len := buf_len
            fd := (b.fd % 2^16).toNat }
          inner := s.inner.setBe k (some { b with input := b.input.drop (4 + buf_len) })
          pc := .readPush be }

/-- The end of an iteration. -/
def readPush (s : InnerState) (be : ℕ) : InnerState :=
  { s with slots := s.slots.push .inner .qInnerRecv, pc := .readLoop be }

/-! ## Writing -/

/-- `if (needConnect == true) connect(); return;`. -/
def connectIfNeeded (s : InnerState) : InnerState :=
  { s with pc := if s.inner.needConnect then .connect else .idle }

/-- `thread_inner::cb_time_logic` up to its loop. -/
def cbTimeLogic (s : InnerState) : InnerState :=
  if s.inner.forceClose then
    { s with inner := { s.inner with forceClose := false } }.disConnect
  else if s.inner.connect_state ≠ .connected then s.connectIfNeeded
  else { s with pc := .timePop }

/-- One iteration of the loop of `cb_time_logic` up to `free`. -/
def timeLogic (s : InnerState) : InnerState :=
  if s.inner.connect_state ≠ .connected then s.connectIfNeeded
  else
    let slots := s.slots.pop .inner .qInnerSend
    match slots.hand .inner with
    | none => { s with slots := slots, pc := .idle }
    | some i => { s with slots := slots }.write s.inner.beNormal (s.list i).wire .timeFree

/-- One iteration of the loop of `cb_time_world` up to `free`. -/
def timeWorld (s : InnerState) : InnerState :=
  let slots := s.slots.pop .inner .qInnerSend
  match slots.hand .inner with
  | none => { s with slots := slots, pc := .idle }
  | some i =>
    let fd := toShort (s.list i).fd
    if 0 ≤ fd ∧ fd < FdTable.fdMax ∧ (s.inner.table.fd2be fd).isSome then
      { s with slots := slots }.write (s.inner.table.fd2be fd) (s.list i).wire .timeFree
    else { s with slots := slots, pc := .timeFree }

/-- `msg_inner_pool.free(msg)` in both loops. -/
def timeFree (s : InnerState) : InnerState :=
  { s with slots := s.slots.free .inner, pc := .timePop }

/-! ## The logic thread -/

/-- `thread_inner::set_connect`, with arguments of the right types. -/
def setConnect (s : InnerState) : InnerState :=
  { s with inner := { s.inner with setIp := true, forceClose := true, needConnect := true } }

/-- `msg_inner_parse::static_close_connect`. -/
def staticCloseConnect (s : InnerState) : InnerState :=
  { s with inner := { s.inner with forceClose := true } }

/-- `msg_inner_parse::static_write_begin`, with `none` for an argument that is not a number. A
message that was begun and not ended is begun again. -/
def staticWriteBegin (s : InnerState) (fd id : Option Double) : InnerState :=
  let slots := if (s.slots.hand .writer).isNone then s.slots.alloc .writer else s.slots
  match slots.hand .writer, fd with
  | none, _ => { s with slots := slots }
  | some _, none => { s with slots := slots }
  | some i, some fd =>
    let m := { s.list i with fd := fd.castUShort, buf_len := 0 }
    match id with
    | none => { s with slots := slots, list := Function.update s.list i m }
    | some id =>
      let w := m.writeInt id.castInt
      { s with
        slots := if w.1 then slots else slots.free .writer
        list := Function.update s.list i w.2 }

/-- The message that Lua code writes is changed, if there is one. -/
def writeMsg (s : InnerState) (f : MsgInner → MsgInner) : InnerState :=
  match s.slots.hand .writer with
  | none => s
  | some i => { s with list := Function.update s.list i (f (s.list i)) }

/-- `msg_inner_parse::static_write_int`, with `none` for an argument that is not a number. -/
def staticWriteInt (s : InnerState) (d : Option Double) : InnerState :=
  s.writeMsg fun m => d.elim m fun d => (m.writeInt d.castInt).2

/-- The bytes `str` as `write_string`, `write_table`, `write_chunk`, `write_binary` and `write_zip`
write them: behind their number. When the bytes do not fit, the number stays. -/
def staticWriteBlock (s : InnerState) (str : List UInt8) : InnerState :=
  s.writeMsg fun m =>
    if (m.writeInt str.length).1 then ((m.writeInt str.length).2.writeString str).2 else m

/-- `msg_inner_parse::static_write_end`. -/
def staticWriteEnd (s : InnerState) : InnerState :=
  if (s.slots.hand .writer).isNone then s
  else { s with slots := s.slots.push .writer .qInnerSend }

/-- `msg = q_inner_recv.pop()` in `handle_inner`. -/
def handlePop (s : InnerState) : InnerState :=
  { s with slots := s.slots.pop .reader .qInnerRecv }

/-- `msg_inner_pool.free(msg)` in `handle_inner`, after a call of `handlerInner` with or without an
error. -/
def handleFree (s : InnerState) : InnerState := { s with slots := s.slots.free .reader }

end InnerState

/-- What can happen: the inner thread gets a connection, input, an event or a tick of its timer
while it is idle, or goes on with what it does; Lua code asks for something; or the logic thread
pops a message or has handled it. -/
inductive InnerAction where
  | accept (fd : ℤ)
  | read (be : ℕ) (bytes : List UInt8)
  | event (be : ℕ) (nEvents : ℕ)
  | tick
  | connect (created : Bool) (r : ConnectResult)
  | inner
  | setConnect
  | closeConnect
  | writeBegin (fd id : Option Double)
  | writeInt (d : Option Double)
  | writeBlock (str : List UInt8)
  | writeEnd
  | handle
  | handled
  deriving DecidableEq

namespace InnerState

/-- The inner thread goes on with what it does. -/
def innerNext (s : InnerState) : Option InnerState :=
  match s.pc with
  | .idle => none
  | .connect => none
  | .readLoop be => some (s.readLoop be)
  | .readPush be => some (s.readPush be)
  | .closeAlloc fd reset => some (s.closeAlloc fd reset)
  | .closePush reset => some (s.closePush reset)
  | .timePop => some (if s.inner.isMiddle then s.timeWorld else s.timeLogic)
  | .timeFree => some s.timeFree
  | .fault => none

/-- A step. The operating system hands out a descriptor only when it is not open, and libevent calls
a bufferevent's callbacks only while it lives and has them. -/
def step (s : InnerState) : InnerAction → Option InnerState
  | .accept fd =>
    if s.pc = .idle ∧ s.inner.isMiddle ∧ 0 ≤ fd ∧ s.inner.isOpen fd = false then
      some { s with inner := s.inner.cbListener fd }
    else none
  | .read be bytes =>
    match s.inner.bes be with
    | none => none
    | some b =>
      if s.pc = .idle ∧ b.cb then
        some { s with
          inner := s.inner.setBe be (some { b with input := b.input ++ bytes })
          pc := .readLoop be }
      else none
  | .event be nEvents =>
    match s.inner.bes be with
    | none => none
    | some b => if s.pc = .idle ∧ b.cb then some (s.cbEvent be nEvents) else none
  | .tick =>
    if s.pc = .idle then
      some (if s.inner.isMiddle then { s with pc := .timePop } else s.cbTimeLogic)
    else none
  | .connect created r => if s.pc = .connect then some (s.connect created r) else none
  | .inner => s.innerNext
  | .setConnect => some s.setConnect
  | .closeConnect => some s.staticCloseConnect
  | .writeBegin fd id => some (s.staticWriteBegin fd id)
  | .writeInt d => some (s.staticWriteInt d)
  | .writeBlock str => some (s.staticWriteBlock str)
  | .writeEnd => some s.staticWriteEnd
  | .handle => if (s.slots.hand .reader).isNone then some s.handlePop else none
  | .handled => if (s.slots.hand .reader).isSome then some s.handleFree else none

/-- A state that a run with the configuration reaches, all of whose steps satisfy `ok`. -/
abbrev Run (cfg : InnerConfig) (ok : InnerState → InnerAction → Prop) : InnerState → Prop :=
  Reach step (init cfg) ok

/-! ## Inputs for particular runs -/

/-- A server with a pool of `n` slots that connects to the middle server. -/
def normalConfig (n : ℕ) : InnerConfig := ⟨n, false, 1⟩

/-- Lua code sets the address, and the connection to the middle server is made. -/
def connects : List InnerAction :=
  [.setConnect, .tick, .tick, .connect true (.started 7), .event 0 0x80]

/-- A state that a list of actions leads to is the end of a run. -/
theorem exists_run_of_exec {cfg : InnerConfig} {β : Type} {f : InnerState → β} {v : β}
    {as : List InnerAction} (h : (exec step (init cfg) as).map f = some v) :
    ∃ s, Run cfg anyStep s ∧ f s = v := by
  obtain ⟨s, hs, hf⟩ := Option.map_eq_some_iff.mp h
  exact ⟨s, reach_of_exec .start (execOk_any _ _ as) hs, hf⟩

end InnerState

end Catse
