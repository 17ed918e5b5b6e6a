import Catse.Common.FdTable
import Catse.Common.Mailbox
import Catse.Lib.Bytes
import Catse.Lib.Memory
import Catse.Lib.Transition

/-!
# The administration path: the admin thread and the logic thread

A request of an administrator is a number of bytes and that many bytes. `thread_admin.h` takes
requests off its connections and passes them to the logic thread through `q_recv_admin`, and
`handle_admin` of `thread_logic.cpp` calls Lua code with each of them and passes what that returns
back through `q_send_admin`, for `cb_time` to write to the connection that then has the descriptor.

As in `Catse/Client/Machine.lean`, a step is what one thread does up to and including its next
operation on a pool or on a ring, and what comes from outside is the action. `AdminHistory` is a
record of the run that no function reads.

To use a bufferevent that has been freed is undefined behaviour, and the admin thread is at `fault`
then.
-/

namespace Catse

/-- `msg_admin`. The array is memory from its start on. -/
structure MsgAdmin where
  buf : ℕ → UInt8
  buf_len : ℤ
  fd : ℤ

namespace MsgAdmin

/-- `sizeof(buf)`. -/
def bufSize : ℕ := 65536 * 8

/-- `write_string`, with the length that the call passes as an `int`. -/
def writeString (m : MsgAdmin) (str : List UInt8) : MsgAdmin :=
  let len := toInt32 str.length
  if sizeLt bufSize (toInt32 (m.buf_len + len)) then m
  else { m with
    buf := storeAt m.buf m.buf_len.toNat (str.take len.toNat)
    buf_len := toInt32 (m.buf_len + len) }

/-- The bytes of a message. -/
def body (m : MsgAdmin) : List UInt8 := prefixOf m.buf m.buf_len.toNat

/-- What `cb_time` writes for a message. -/
def wire (m : MsgAdmin) : List UInt8 :=
  leBytes 4 (m.buf_len % 2^32).toNat ++ if m.buf_len ≠ 0 then m.body else []

end MsgAdmin

/-- Where the admin thread is: outside its callbacks, in the loop of `cb_read`, there with a message
that it has allocated, in the loop of `cb_time`, there with a message that it has popped, or nowhere
after undefined behaviour. -/
inductive AdminPc where
  | idle
  | readLoop (be : ℕ)
  | readMsg (be : ℕ)
  | timePop
  | timeMsg
  | fault
  deriving DecidableEq

/-- Where the logic thread is in `handle_admin`: before `pop` or outside of it, with a message, or
with what Lua code has returned before and after `alloc`. -/
inductive AdminLogicPc where
  | idle
  | handle
  | reply (fd : ℤ) (str : List UInt8)
  | fill (fd : ℤ) (str : List UInt8)
  deriving DecidableEq

/-- What has arrived on each bufferevent, the descriptor that it began with, the bufferevent of each
request that has been pushed, the request that each pushed reply answers with the string for it, and
the replies that have been written to each bufferevent. Requests and replies are numbered as they
are pushed. -/
structure AdminHistory where
  arrived : ℕ → List UInt8
  born : ℕ → ℤ
  askers : List ℕ
  answers : List (ℕ × List UInt8)
  delivered : ℕ → List ℕ

/-- The admin thread, the logic thread, and what they share. -/
structure AdminState where
  recv : Mailbox MsgAdmin
  send : Mailbox MsgAdmin
  table : FdTable ℕ
  bes : ℕ → Option Bufferevent
  created : ℕ
  pc : AdminPc
  logicPc : AdminLogicPc
  history : AdminHistory

namespace AdminState

/-- `global::init`, `thread_logic::init` and `thread_admin::init`, with `list` and `list'` for what
`malloc` gives. -/
def init (n : ℕ) (list list' : ℕ → MsgAdmin) : AdminState where
  recv := .init n list
  send := .init n list'
  table := FdTable.empty
  bes := fun _ => none
  created := 0
  pc := .idle
  logicPc := .idle
  history := ⟨fun _ => [], fun _ => 0, [], [], fun _ => []⟩

/-- Is `fd` an open socket of some bufferevent? -/
def isOpen (s : AdminState) (fd : ℤ) : Bool :=
  (List.range s.created).any fun be => (s.bes be).any (·.fd = fd)

/-- A live bufferevent is changed or, with `none`, freed. -/
def setBe (s : AdminState) (k : ℕ) (b : Option Bufferevent) : AdminState :=
  { s with bes := Function.update s.bes k b }

/-- What a call with the bufferevent `be` does, when it is live. -/
def useBe (s : AdminState) (be : ℕ) (f : Bufferevent → AdminState) : AdminState :=
  match s.bes be with
  | none => { s with pc := .fault }
  | some b => f b

/-! ## The admin thread -/

/-- `cb_listener`. A connection that `fd_add` refuses keeps its bufferevent, without callbacks. -/
def cbListener (s : AdminState) (fd : ℤ) : AdminState :=
  let add := s.table.fdAdd fd s.created
  { s with
    table := add.2
    bes := Function.update s.bes s.created (some ⟨fd, [], [], add.1⟩)
    created := s.created + 1
    history := { s.history with born := Function.update s.history.born s.created fd } }

/-- `close_connect` of a live bufferevent, after which the thread is idle. -/
def closeConnect (s : AdminState) (k : ℕ) (b : Bufferevent) : AdminState :=
  { s.setBe k none with table := (s.table.fdDel b.fd).2, pc := .idle }

/-- The loop of `cb_read` up to `alloc`. -/
def readLoop (s : AdminState) (be : ℕ) : AdminState :=
  s.useBe be fun b =>
    if b.input.length < 4 then { s with pc := .idle }
    else
      let recv := s.recv.alloc
      { s with
        recv := recv
        pc := if (recv.held .producer).isSome then .readMsg be else .idle }

/-- `evbuffer_copyout` of the length. -/
def readLen (b : Bufferevent) : ℤ := toInt32 (ofLE (b.input.take 4))

/-- The rest of a round of the loop of `cb_read`. -/
def readMsg (s : AdminState) (be : ℕ) : AdminState :=
  s.useBe be fun b =>
    let buf_len := readLen b
    let recv := s.recv.edit fun m => { m with buf_len := buf_len }
    if ¬(0 ≤ buf_len ∧ buf_len ≤ MsgAdmin.bufSize) then
      { s with recv := recv.free .producer }.closeConnect be b
    else if (b.input.length : ℤ) < buf_len + 4 then
      { s with recv := recv.free .producer, pc := .idle }
    else
      let recv := recv.edit fun m =>
        { m with
          buf := storeAt m.buf 0 ((b.input.drop 4).take buf_len.toNat)
          fd := toShort b.fd }
      { s.setBe be (some { b with input := b.input.drop (4 + buf_len.toNat) }) with
        recv := recv.push
        pc := .readLoop be
        history := { s.history with askers := s.history.askers ++ [be] } }

/-- The loop of `cb_time` up to `pop`. -/
def timePop (s : AdminState) : AdminState :=
  let send := s.send.pop
  { s with send := send, pc := if (send.held .consumer).isSome then .timeMsg else .idle }

/-- The rest of a round of the loop of `cb_time`. A message whose descriptor has no connection ends
the callback. -/
def timeMsg (s : AdminState) : AdminState :=
  match s.send.held .consumer with
  | none => { s with pc := .fault }
  | some m =>
    let send := s.send.free .consumer
    if ¬(0 ≤ m.fd ∧ m.fd < FdTable.fdMax) then { s with send := send, pc := .idle }
    else
      match s.table.fd2be m.fd with
      | none => { s with send := send, pc := .idle }
      | some k =>
        s.useBe k fun b =>
          { s.setBe k (some { b with output := b.output ++ m.wire }) with
            send := send
            pc := .timePop
            history := { s.history with
              delivered := Function.update s.history.delivered k
                (s.history.delivered k ++ [s.send.got.length - 1]) } }

/-- The admin thread goes on with what it does. -/
def adminNext (s : AdminState) : Option AdminState :=
  match s.pc with
  | .idle => none
  | .readLoop be => some (s.readLoop be)
  | .readMsg be => some (s.readMsg be)
  | .timePop => some s.timePop
  | .timeMsg => some s.timeMsg
  | .fault => none

/-! ## `handle_admin` -/

/-- `msg = q_recv_admin.pop()`. -/
def handlePop (s : AdminState) : AdminState :=
  let recv := s.recv.pop
  { s with
    recv := recv
    logicPc := if (recv.held .consumer).isSome then .handle else .idle }

/-- The call of `handlerAdmin`, which returns a string or not, and `free`. -/
def handled (s : AdminState) (reply : Option (List UInt8)) : AdminState :=
  match s.recv.held .consumer with
  | none => s
  | some m =>
    { s with
      recv := s.recv.free .consumer
      logicPc := reply.elim .idle fun str => .reply m.fd str }

/-- `msgSend = admin_send_pool.alloc()`. -/
def replyAlloc (s : AdminState) (fd : ℤ) (str : List UInt8) : AdminState :=
  let send := s.send.alloc
  { s with
    send := send
    logicPc := if (send.held .producer).isSome then .fill fd str else .idle }

/-- The reply is written and pushed. -/
def replyPush (s : AdminState) (fd : ℤ) (str : List UInt8) : AdminState :=
  let send := s.send.edit fun m => ({ m with buf_len := 0, fd := fd }).writeString str
  { s with
    send := send.push
    logicPc := .idle
    history := { s.history with
      answers := s.history.answers ++ [(s.recv.got.length - 1, str)] } }

/-- The logic thread goes on with a reply. -/
def logicNext (s : AdminState) : Option AdminState :=
  match s.logicPc with
  | .idle => none
  | .handle => none
  | .reply fd str => some (s.replyAlloc fd str)
  | .fill fd str => some (s.replyPush fd str)

end AdminState

/-- What can happen: the admin thread gets a connection, input, an event or a tick of its timer
while it is idle, or goes on with what it does; and the logic thread pops a request, has called Lua
code with it, or goes on with the reply. -/
inductive AdminAction where
  | accept (fd : ℤ)
  | read (be : ℕ) (bytes : List UInt8)
  | event (be : ℕ)
  | tick
  | admin
  | handle
  | handled (reply : Option (List UInt8))
  | logic
  deriving DecidableEq

namespace AdminState

/-- A step. The operating system hands out a descriptor only when it is not open, and libevent calls
a bufferevent's callbacks only while it lives and has them. -/
def step (s : AdminState) : AdminAction → Option AdminState
  | .accept fd =>
    if s.pc = .idle ∧ 0 ≤ fd ∧ s.isOpen fd = false then some (s.cbListener fd) else none
  | .read be bytes =>
    match s.bes be with
    | none => none
    | some b =>
      if s.pc = .idle ∧ b.cb then
        some { s.setBe be (some { b with input := b.input ++ bytes }) with
          pc := .readLoop be
          history := { s.history with
            arrived := Function.update s.history.arrived be (s.history.arrived be ++ bytes) } }
      else none
  | .event be =>
    match s.bes be with
    | none => none
    | some b => if s.pc = .idle ∧ b.cb then some (s.closeConnect be b) else none
  | .tick => if s.pc = .idle then some { s with pc := .timePop } else none
  | .admin => s.adminNext
  | .handle => if s.logicPc = .idle then some s.handlePop else none
  | .handled reply => if s.logicPc = .handle then some (s.handled reply) else none
  | .logic => s.logicNext

/-- A state that a run reaches. -/
abbrev Run (n : ℕ) (list list' : ℕ → MsgAdmin) : AdminState → Prop :=
  Reach step (init n list list') anyStep

end AdminState

end Catse
