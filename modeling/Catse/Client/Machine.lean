import Catse.Common.Slots
import Catse.Common.MsgStruct
import Catse.Common.FdTable
import Catse.Logic.PkLimit
import Catse.Logic.Websocket
import Catse.Lib.Transition

/-!
# The client path: the io thread and the logic thread

The io thread (`thread_io.h`) accepts clients, turns the bytes that they send into `msg_recv`
packets, reports the connections that it closes, and writes out the `msg_send` messages of the logic
thread. The logic thread (`thread_logic.cpp`, `msg_ex.cpp`) handles packets and reports in
`handle_io` and sends from the Lua code that it runs. The two share the message pools and the rings
between them, and `ClientState` is both threads together with what they share.

A step is what one thread does up to and including its next operation on a pool or a ring, each of
which is atomic; everything else a thread touches in a step is its own. `IoPc` and `LogicPc` say
where in its code each thread is. What comes from outside is the action: the descriptor that the
operating system hands out, the bytes that a client sends, the flags of an event, the time, and what
the Lua code asks for. Any order of enabled actions is a run.

A bufferevent's identity is a number that is never used again, so it also stands for the connection.
The fields whose description says "record" are a history of the run that no step reads.
-/

namespace Catse

/-- The two threads. -/
inductive Thread where
  | io
  | logic
  deriving DecidableEq

instance : Fintype Thread := ⟨{.io, .logic}, fun t => by cases t <;> decide⟩

/-- The rings that `msg_recv` slots travel through. -/
inductive RecvRing where
  | qRecvIo
  | qDisconnect
  deriving DecidableEq

instance : Fintype RecvRing := ⟨{.qRecvIo, .qDisconnect}, fun t => by cases t <;> decide⟩

/-- The ring that `msg_send` slots travel through. -/
inductive SendRing where
  | qSend
  deriving DecidableEq

instance : Fintype SendRing := ⟨{.qSend}, fun t => by cases t; decide⟩

/-- The configuration: the capacities of `msg_recv_pool` and `msg_send_pool`, the id of a disconnect
report, and the answer to a handshake key. -/
structure ClientConfig where
  recvCap : ℕ
  sendCap : ℕ
  disconnect_id : ℤ
  accept : List UInt8 → List UInt8

/-- An event of a connection, as a `msg_recv` carries it. -/
structure Event where
  step : ℕ
  fd : ℤ
  id : ℤ
  conn : ℕ
  deriving DecidableEq

/-! ## Messages from clients -/

/-- `msg_recv_pool` with its rings and the static counter of `set_step`. Records: `owner`, the
connection that a slot's message came from, `pushed`, the messages that the rings have accepted, and
`handled`, those that `handlerMsg` was called for, each with its ring. -/
structure RecvChannel where
  slots : Slots RecvRing Thread
  list : ℕ → MsgRecv
  s_step : ℕ
  owner : ℕ → ℕ
  pushed : List (RecvRing × Event)
  handled : List (RecvRing × Event)

namespace RecvChannel

/-- The event that a slot carries. -/
def event (c : RecvChannel) (i : ℕ) : Event :=
  ⟨(c.list i).step, (c.list i).fd, (c.list i).id, c.owner i⟩

/-- `msg_recv_pool.alloc()`. -/
def alloc (c : RecvChannel) : RecvChannel := { c with slots := c.slots.alloc .io }

/-- The message in slot `i` becomes `m` with `set_step`. -/
def fill (c : RecvChannel) (i be : ℕ) (m : MsgRecv) : RecvChannel :=
  { c with
    list := Function.update c.list i { m with step := c.s_step + 1 }
    s_step := c.s_step + 1
    owner := Function.update c.owner i be }

/-- `q_recv_io.push(msg)` and `q_disconnect.push(msg)`. -/
def push (c : RecvChannel) (r : RecvRing) : RecvChannel :=
  { c with
    slots := c.slots.push .io r
    pushed :=
      if ((c.slots.ring r).push (c.slots.hand .io)).1 then
        c.pushed ++ (c.slots.hand .io).toList.map fun i => (r, c.event i)
      else c.pushed }

/-- `msg = q.pop()` of the logic thread, which then calls `handlerMsg`. -/
def pop (c : RecvChannel) (r : RecvRing) : RecvChannel :=
  { c with
    slots := c.slots.pop .logic r
    handled := c.handled ++ (c.slots.ring r).pop.1.toList.map fun i => (r, c.event i) }

/-- `msg_recv_pool.free(msg)`. -/
def free (c : RecvChannel) (t : Thread) : RecvChannel := { c with slots := c.slots.free t }

end RecvChannel

/-- The connection that the logic thread regards `fd` as: that of the last event handled for it. -/
def regards (handled : List (RecvRing × Event)) (fd : ℤ) : Option ℕ :=
  (handled.filter (·.2.fd = fd)).getLast?.map (·.2.conn)

/-! ## Messages to clients -/

/-- `msg_send_pool` with its ring. `addressed` is a record: for a slot with a unicast, its `fd` and
the connection that the logic thread regarded `fd` as. -/
structure SendChannel where
  slots : Slots SendRing Thread
  list : ℕ → MsgSend
  addressed : ℕ → Option (ℤ × Option ℕ)

/-- What the Lua code asks for. The recipients of `multicast` are `none` where the table has no
number. -/
inductive SendKind where
  | unicast (fd : ℤ)
  | broadcast
  | multicast (fds : List (Option ℤ))
  deriving DecidableEq

/-- The message that `msg_ex::unicast`, `broadcast` or `multicast` makes in a slot, or `none` when
it frees the slot and raises a Lua error. `written` is what `write_msg_dfs` makes of the Lua table:
the bytes and `buf_len`, or `none` when it returns an error code. -/
def SendKind.write (k : SendKind) (m : MsgSend) (proto_id : ℤ)
    (written : Option (List UInt8 × ℤ)) : Option MsgSend :=
  let fill (m : MsgSend) : Option MsgSend :=
    written.map fun w => { m with buf := w.1, buf_len := w.2, id := toShort proto_id }
  match k with
  | .unicast fd => (fill m).map fun m => { m with fds_len := 0 }.pushFd (toShort fd)
  | .broadcast => (fill m).map fun m => { m with fds_len := -1 }
  | .multicast fds =>
    (fds.foldlM (fun (m : MsgSend) (fd : Option ℤ) => fd.map m.pushFd)
      { m with fds_len := 0 }).bind fill

/-- What is recorded of a message. -/
def SendKind.address (k : SendKind) (handled : List (RecvRing × Event)) :
    Option (ℤ × Option ℕ) :=
  match k with
  | .unicast fd => some (toShort fd, regards handled (toShort fd))
  | _ => none

/-! ## The io thread -/

/-- A unicast that was written to a connection. -/
structure Delivery where
  fd : ℤ
  regarded : Option ℕ
  conn : ℕ
  deriving DecidableEq

/-- `thread_io`, and `websocket::ref`, which it alone uses. `bes` has the live bufferevents, of the
`created` that there have been. Records: `accepted` and `closed`, the connections that `fd_add`
registered and that `close_connect` removed, and `delivered`, the unicasts written. -/
structure ThreadIo where
  table : FdTable ℕ
  fd2websocket : ℤ → Bool
  bes : ℕ → Option Bufferevent
  created : ℕ
  websocket : Websocket
  accepted : List (ℕ × ℤ)
  closed : List (ℕ × ℤ)
  delivered : List Delivery

namespace ThreadIo

/-- `DISCONNECT_REASON_CLIENT`. -/
def reasonClient : ℤ := 1

/-- `DISCONNECT_REASON_TIMEOUT`. -/
def reasonTimeout : ℤ := 2

/-- `DISCONNECT_REASON_PACKET_ERR`. -/
def reasonPacketErr : ℤ := 3

/-- `DISCONNECT_REASON_FD_ERR`. -/
def reasonFdErr : ℤ := 4

/-- Is `fd` an open socket of some bufferevent? -/
def isOpen (io : ThreadIo) (fd : ℤ) : Bool :=
  (List.range io.created).any fun be => (io.bes be).any (·.fd = fd)

/-- `thread_io::cb_listener`. A connection that `fd_add` refuses keeps its bufferevent, without
callbacks. -/
def cbListener (io : ThreadIo) (fd : ℤ) : ThreadIo :=
  let be := io.created
  let add := io.table.fdAdd fd be
  { io with
    table := add.2
    fd2websocket := if add.1 then Function.update io.fd2websocket fd false else io.fd2websocket
    bes := Function.update io.bes be (some ⟨fd, [], [], add.1⟩)
    created := io.created + 1
    accepted := if add.1 then io.accepted ++ [(be, fd)] else io.accepted }

/-- `fd_del` and `bufferevent_free`, the first half of `close_connect`. -/
def remove (io : ThreadIo) (be : ℕ) (fd : ℤ) : ThreadIo :=
  let del := io.table.fdDel fd
  { io with
    table := del.2
    bes := Function.update io.bes be none
    closed := if del.1 then io.closed ++ [(be, fd)] else io.closed }

/-- `thread_io::send_msg`. -/
def sendMsg (io : ThreadIo) (m : MsgSend) (addressed : Option (ℤ × Option ℕ)) (fd : ℤ) :
    ThreadIo :=
  if ¬(0 ≤ fd ∧ fd < FdTable.fdMax) then io
  else
    match io.table.fd2be fd with
    | none => io
    | some be =>
      { io with
        bes := Function.update io.bes be ((io.bes be).map fun b =>
          { b with output := b.output ++ Websocket.sendMsg m.id m.buf m.buf_len })
        delivered := io.delivered ++ addressed.toList.map fun a => ⟨a.1, a.2, be⟩ }

/-- The recipients of a message: all connections (`fds_len < 0`) or the listed ones. -/
def recipients (io : ThreadIo) (m : MsgSend) : List ℤ :=
  if m.fds_len < 0 then io.table.fds else m.fds.take m.fds_len.toNat

end ThreadIo

/-- Where the io thread is: outside its callbacks (`idle`), in the loop of `cb_read`, in
`close_connect`, in the loop of `cb_time`, or nowhere after a crash. Each point but `idle` is right
before an operation on a pool or a ring, and carries the local variables. -/
inductive IoPc where
  | idle
  | readLoop (be : ℕ) (cur_time : ℤ)
  | readAlloc (be : ℕ) (cur_time fd id len : ℤ)
  | readFree
  | readPush (be : ℕ) (cur_time : ℤ)
  | closeAlloc (be : ℕ) (fd reason real_reason : ℤ)
  | closePush
  | timePop
  | timeSend
  | timeFree (last : Bool)
  | crashed
  deriving DecidableEq

/-! ## The logic thread -/

/-- Where the logic thread is in `handle_io`: outside the loop body or in other code that runs Lua
(`idle`), after one or both calls of `getfront`, or in `handlerMsg`. `fault` is the failed `assert`
at two fronts of equal step, behind which a null pointer is read. -/
inductive LogicPc where
  | idle
  | sampledRecv (cg : Option ℕ)
  | sampled (cg gg : Option ℕ)
  | handling
  | fault
  deriving DecidableEq

/-- Where Lua code of the logic thread is in `unicast`, `broadcast` or `multicast`. -/
inductive SendPc where
  | idle
  | push
  | free
  deriving DecidableEq

/-! ## Both threads -/

/-- The threads and what they share. -/
structure ClientState where
  recv : RecvChannel
  send : SendChannel
  pk : PkLimit
  io : ThreadIo
  ioPc : IoPc
  logicPc : LogicPc
  sendPc : SendPc

namespace ClientState

/-- `global::init`, `thread_logic::init` and `thread_io::init`: the rings of `msg_recv` have one
cell more than the pool has slots, and the ring of `msg_send` has as many. -/
def init (cfg : ClientConfig) : ClientState where
  recv :=
    { slots := Slots.init cfg.recvCap fun _ => cfg.recvCap + 1
      list := fun _ => ⟨List.replicate MsgRecv.bufSize 0, 0, 0, 0, 0, 0⟩
      s_step := 0
      owner := fun _ => 0
      pushed := []
      handled := [] }
  send :=
    { slots := Slots.init cfg.sendCap fun _ => cfg.sendCap
      list := fun _ => ⟨[], 0, 0, List.replicate MsgSend.fdsSize 0, 0⟩
      addressed := fun _ => none }
  pk := PkLimit.init
  io :=
    { table := FdTable.empty
      fd2websocket := fun _ => false
      bes := fun _ => none
      created := 0
      websocket := Websocket.init
      accepted := []
      closed := []
      delivered := [] }
  ioPc := .idle
  logicPc := .idle
  sendPc := .idle

/-- The start of `close_connect`. -/
def closeConnect (s : ClientState) (be : ℕ) (fd reason real_reason : ℤ) : ClientState :=
  { s with io := s.io.remove be fd, ioPc := .closeAlloc be fd reason real_reason }

/-- The report that `close_connect` fills in. -/
def closeMsg (cfg : ClientConfig) (m : MsgRecv) (fd reason real_reason : ℤ) : MsgRecv :=
  let m := ({ m with back := 0, front := 0 }.writeInt reason).writeInt real_reason
  { m with fd := toShort fd, id := toShort cfg.disconnect_id }

/-- The rest of `close_connect` up to `push`. -/
def closeAlloc (cfg : ClientConfig) (s : ClientState) (be : ℕ) (fd reason real_reason : ℤ) :
    ClientState :=
  let recv := s.recv.alloc
  match recv.slots.hand .io with
  | none => { s with recv := recv, ioPc := .idle }
  | some i =>
    { s with
      recv := recv.fill i be (closeMsg cfg (recv.list i) fd reason real_reason)
      ioPc := .closePush }

/-- The end of `close_connect`. -/
def closePush (s : ClientState) : ClientState :=
  { s with recv := s.recv.push .qDisconnect, ioPc := .idle }

/-- `thread_io::cb_read` up to its loop, with new bytes in the input buffer. -/
def cbRead (cfg : ClientConfig) (s : ClientState) (be : ℕ) (b : Bufferevent) (bytes : List UInt8) :
    ClientState :=
  let input := b.input ++ bytes
  if ¬(0 ≤ b.fd ∧ b.fd < FdTable.fdMax) then s.closeConnect be b.fd ThreadIo.reasonFdErr 0
  else if s.io.fd2websocket b.fd then
    { s with
      io := { s.io with bes := Function.update s.io.bes be (some { b with input := input }) }
      ioPc := .readLoop be 0 }
  else
    match s.io.websocket.handShake cfg.accept input with
    | .crash => { s with ioPc := .crashed }
    | .done e =>
      { s with
        io := { s.io with
          bes := Function.update s.io.bes be
            (some { b with input := e.rest, output := b.output ++ e.out })
          websocket := e.ws
          fd2websocket :=
            if e.ret then Function.update s.io.fd2websocket b.fd true else s.io.fd2websocket } }

/-- One iteration of the loop of `cb_read` up to `alloc`. -/
def readLoop (s : ClientState) (be : ℕ) (cur_time now : ℤ) : ClientState :=
  match s.io.bes be with
  | none => { s with ioPc := .crashed }
  | some b =>
    if b.input.length < 6 then { s with ioPc := .idle }
    else
      let e := s.io.websocket.handlePacket b.input
      let s := { s with io := { s.io with
        bes := Function.update s.io.bes be (some { b with input := e.rest })
        websocket := e.ws } }
      if e.ret = 0 then { s with ioPc := .readLoop be cur_time }
      else if e.ret = -1 then s.closeConnect be b.fd ThreadIo.reasonClient 0
      else if e.ret = -2 then { s with ioPc := .idle }
      else
        let len := toShort (ofBE (e.ws.buf.take 2))
        let id := toShort (ofBE ((e.ws.buf.drop 2).take 2))
        if ¬(0 ≤ len ∧ len ≤ MsgRecv.bufSize) then
          s.closeConnect be b.fd ThreadIo.reasonPacketErr 0
        else if e.ret ≠ len + 4 then { s with ioPc := .idle }
        else if (s.io.table.fd2be b.fd).isNone then { s with ioPc := .idle }
        else
          let cur_time := if cur_time = 0 then now else cur_time
          let chk := s.pk.checkPkLimit cur_time b.fd id
          { s with
            pk := chk.2
            ioPc := if chk.1 ≠ .ok then .readLoop be cur_time
              else .readAlloc be cur_time b.fd id len }

/-- The rest of an iteration up to `push`, or to the `free` of a message of a bad length. -/
def readAlloc (s : ClientState) (be : ℕ) (cur_time fd id len : ℤ) : ClientState :=
  let recv := s.recv.alloc
  match recv.slots.hand .io with
  | none => { s with recv := recv, ioPc := .idle }
  | some i =>
    if sizeLt MsgRecv.bufSize len ∨ len < 0 then { s with recv := recv, ioPc := .readFree }
    else
      let m := recv.list i
      let payload := (s.io.websocket.buf.drop 4).take len.toNat
      { s with
        recv := recv.fill i be { m with
          buf := overwrite m.buf 0 payload, back := len, front := 0, fd := toShort fd, id := id }
        ioPc := .readPush be cur_time }

/-- The `free` of a message of a bad length. -/
def readFree (s : ClientState) : ClientState := { s with recv := s.recv.free .io, ioPc := .idle }

/-- The end of an iteration. -/
def readPush (s : ClientState) (be : ℕ) (cur_time : ℤ) : ClientState :=
  { s with recv := s.recv.push .qRecvIo, ioPc := .readLoop be cur_time }

/-- `q_send.pop()` in `cb_time`. -/
def timePop (s : ClientState) : ClientState :=
  let slots := s.send.slots.pop .io .qSend
  { s with
    send := { s.send with slots := slots }
    ioPc := if (slots.hand .io).isSome then .timeSend else .idle }

/-- The body of the loop of `cb_time`: a message without recipients ends the loop. -/
def timeSend (s : ClientState) : ClientState :=
  match s.send.slots.hand .io with
  | none => { s with ioPc := .crashed }
  | some i =>
    let m := s.send.list i
    if m.fds_len = 0 then { s with ioPc := .timeFree true }
    else
      { s with
        io := (s.io.recipients m).foldl (fun io fd => io.sendMsg m (s.send.addressed i) fd) s.io
        ioPc := .timeFree false }

/-- `msg_send_pool.free(msg)` in `cb_time`. -/
def timeFree (s : ClientState) (last : Bool) : ClientState :=
  { s with
    send := { s.send with slots := s.send.slots.free .io }
    ioPc := if last then .idle else .timePop }

/-- The first `getfront` of an iteration of `handle_io`. -/
def sampleRecv (s : ClientState) : ClientState :=
  { s with logicPc := .sampledRecv (s.recv.slots.ring .qRecvIo).getfront }

/-- The second `getfront`. -/
def sampleDisconnect (s : ClientState) (cg : Option ℕ) : ClientState :=
  { s with logicPc := .sampled cg (s.recv.slots.ring .qDisconnect).getfront }

/-- The choice between the fronts, and the `pop`. -/
def take (s : ClientState) (cg gg : Option ℕ) : ClientState :=
  let pop (r : RecvRing) : ClientState := { s with recv := s.recv.pop r, logicPc := .handling }
  match cg, gg with
  | none, none => { s with logicPc := .idle }
  | some _, none => pop .qRecvIo
  | none, some _ => pop .qDisconnect
  | some c, some g =>
    if (s.recv.list c).step < (s.recv.list g).step then pop .qRecvIo
    else if (s.recv.list g).step < (s.recv.list c).step then pop .qDisconnect
    else { s with logicPc := .fault }

/-- The end of an iteration. An error in the Lua code is logged, and the message is freed as
otherwise. -/
def ret (s : ClientState) : ClientState := { s with recv := s.recv.free .logic, logicPc := .idle }

/-- `msg_ex::unicast`, `broadcast` and `multicast` up to `push`, or to the `free` before an error.
When no slot is free the message is logged and dropped. -/
def sendAlloc (s : ClientState) (k : SendKind) (proto_id : ℤ)
    (written : Option (List UInt8 × ℤ)) : ClientState :=
  let slots := s.send.slots.alloc .logic
  match slots.hand .logic with
  | none => { s with send := { s.send with slots := slots } }
  | some i =>
    match k.write (s.send.list i) proto_id written with
    | none => { s with send := { s.send with slots := slots }, sendPc := .free }
    | some m =>
      { s with
        send :=
          { slots := slots
            list := Function.update s.send.list i m
            addressed :=
              Function.update s.send.addressed i (k.address s.recv.handled) }
        sendPc := .push }

/-- `q_send.push(msg)`. -/
def sendPush (s : ClientState) : ClientState :=
  { s with send := { s.send with slots := s.send.slots.push .logic .qSend }, sendPc := .idle }

/-- `msg_send_pool.free(msg)` before an error. -/
def sendFree (s : ClientState) : ClientState :=
  { s with send := { s.send with slots := s.send.slots.free .logic }, sendPc := .idle }

/-- Is the logic thread in Lua code, or in code that calls it? -/
def inLua (s : ClientState) : Bool :=
  (s.logicPc = .idle ∨ s.logicPc = .handling) ∧ s.sendPc = .idle

end ClientState

/-- What can happen: the io thread gets a connection, input, an event or a tick of its timer while
it is idle, or goes on with what it does; the logic thread goes on, or its Lua code sends or sets a
limit. -/
inductive ClientAction where
  | accept (fd : ℤ)
  | read (be : ℕ) (bytes : List UInt8)
  | event (be : ℕ) (nEvents : ℕ)
  | tick
  | io (now : ℤ)
  | logic
  | send (k : SendKind) (proto_id : ℤ) (written : Option (List UInt8 × ℤ))
  | setLimit (key second cnt : Double)
  deriving DecidableEq

namespace ClientState

/-- The io thread goes on with what it does. -/
def ioNext (cfg : ClientConfig) (s : ClientState) (now : ℤ) : Option ClientState :=
  match s.ioPc with
  | .idle => none
  | .readLoop be cur_time => some (s.readLoop be cur_time now)
  | .readAlloc be cur_time fd id len => some (s.readAlloc be cur_time fd id len)
  | .readFree => some s.readFree
  | .readPush be cur_time => some (s.readPush be cur_time)
  | .closeAlloc be fd reason real_reason => some (s.closeAlloc cfg be fd reason real_reason)
  | .closePush => some s.closePush
  | .timePop => some s.timePop
  | .timeSend => some s.timeSend
  | .timeFree last => some (s.timeFree last)
  | .crashed => none

/-- The logic thread goes on: first with a message that its Lua code sends. -/
def logicNext (s : ClientState) : Option ClientState :=
  match s.sendPc, s.logicPc with
  | .push, _ => some s.sendPush
  | .free, _ => some s.sendFree
  | .idle, .idle => some s.sampleRecv
  | .idle, .sampledRecv cg => some (s.sampleDisconnect cg)
  | .idle, .sampled cg gg => some (s.take cg gg)
  | .idle, .handling => some s.ret
  | .idle, .fault => none

/-- A step. The operating system hands out a descriptor only when it is not open. libevent calls
`cb_read` when there is new input of at least the low watermark, `sizeof(msg_head)`, and calls a
bufferevent's callbacks only while it lives and has them. -/
def step (cfg : ClientConfig) (s : ClientState) : ClientAction → Option ClientState
  | .accept fd =>
    if s.ioPc = .idle ∧ 0 ≤ fd ∧ s.io.isOpen fd = false then
      some { s with io := s.io.cbListener fd }
    else none
  | .read be bytes =>
    match s.io.bes be with
    | none => none
    | some b =>
      if s.ioPc = .idle ∧ b.cb ∧ bytes ≠ [] then
        if b.input.length + bytes.length < 4 then
          some { s with io := { s.io with
            bes := Function.update s.io.bes be (some { b with input := b.input ++ bytes }) } }
        else some (s.cbRead cfg be b bytes)
      else none
  | .event be nEvents =>
    match s.io.bes be with
    | none => none
    | some b =>
      if s.ioPc = .idle ∧ b.cb then
        some (s.closeConnect be b.fd
          (if nEvents.testBit 6 then ThreadIo.reasonTimeout else ThreadIo.reasonClient) nEvents)
      else none
  | .tick => if s.ioPc = .idle then some { s with ioPc := .timePop } else none
  | .io now => s.ioNext cfg now
  | .logic => s.logicNext
  | .send k proto_id written =>
    if s.inLua then some (s.sendAlloc k proto_id written) else none
  | .setLimit key second cnt =>
    if s.inLua then (s.pk.setLimit key second cnt).map fun pk => { s with pk := pk } else none

/-- A state that a run with the configuration reaches, all of whose steps satisfy `ok`. -/
abbrev Run (cfg : ClientConfig) (ok : ClientState → ClientAction → Prop) : ClientState → Prop :=
  Reach (step cfg) (init cfg) ok

/-! ## Inputs for particular runs -/

/-- A configuration with pools of `n` slots, whose disconnect reports have the id `9`. -/
def smallConfig (n : ℕ) : ClientConfig := ⟨n, n, 9, id⟩

/-- `"Sec-WebSocket-Key: x\r\n\r\n"`, a request that `hand_shake` answers. -/
def upgradeRequest : List UInt8 := Websocket.keyStrBegin ++ [120] ++ Websocket.retStr2

/-- A masked binary frame with a packet of id `1` and no data. -/
def emptyPacket : List UInt8 := [0x82, 0x84, 0, 0, 0, 0, 0, 0, 0, 1]

/-- Packets of id `1` are allowed, and a client on descriptor `5` has shaken hands. -/
def greeted : List ClientAction :=
  [.setLimit 0x3FF0000000000000 0 0x3FF0000000000000, .accept 5, .read 0 upgradeRequest]

/-- The client sends a packet, and `cb_read` pushes it. -/
def sendsPacket : List ClientAction := [.read 0 emptyPacket, .io 1, .io 1, .io 1, .io 1]

/-- The connection ends, and `close_connect` pushes the report. -/
def hangsUp : List ClientAction := [.event 0 0x11, .io 1, .io 1]

/-- A state that a list of actions leads to is the end of a run. -/
theorem exists_run_of_exec {cfg : ClientConfig} {β : Type} {f : ClientState → β} {v : β}
    {as : List ClientAction} (h : (exec (step cfg) (init cfg) as).map f = some v) :
    ∃ s, Run cfg anyStep s ∧ f s = v := by
  obtain ⟨s, hs, hf⟩ := Option.map_eq_some_iff.mp h
  exact ⟨s, reach_of_exec .start (execOk_any _ _ as) hs, hf⟩

end ClientState

end Catse
