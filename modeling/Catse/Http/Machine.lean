import Catse.Common.Mailbox
import Catse.Common.ThreadHttp
import Catse.Lib.Bytes
import Catse.Lib.Transition

/-!
# The http path: the logic thread and the http thread

Lua code of the logic thread calls `send` of `thread_http.h`, which passes a message to the http
thread through `q_http_send`. The http thread has one connection to the server, which `cb_time`
opens when there is a message, and writes the messages to it as requests; when the connection ends,
`cb_event` frees it and what is in the ring.

A step is what one thread does up to and including its next operation on the pool or on the ring,
and what comes from outside is the action. `HttpHistory` is a record of the run that no function
reads. To use the null pointer `be` is undefined behaviour, and so is to use a null message, and the
http thread is at `fault` then.
-/

namespace Catse

namespace MsgHttp

/-- `sizeof(urlBuf)`. -/
def urlSize : ℕ := 65536

/-- `memcpy` of the first `len` bytes of a string to the start of `buf`, unless it is too long. -/
def putString (m : MsgHttp) (tooLong : Bool) (len : ℤ) (str : List UInt8) : MsgHttp :=
  if tooLong then { m with buf_len := 0 }
  else { m with buf := storeAt m.buf 0 (str.take len.toNat), buf_len := len.toNat }

/-- `m->buf_len = 0; m->write_string(p, len)`. -/
def writeString (m : MsgHttp) (str : List UInt8) : MsgHttp :=
  m.putString (sizeLt ThreadHttp.bufSize (toInt32 str.length)) (toInt32 str.length) str

/-- The same with `urlBuf`. -/
def putUrl (m : MsgHttp) (tooLong : Bool) (len : ℤ) (str : List UInt8) : MsgHttp :=
  if tooLong then { m with url_buf_len := 0 }
  else { m with urlBuf := storeAt m.urlBuf 0 (str.take len.toNat), url_buf_len := len.toNat }

/-- `m->url_buf_len = 0; m->write_url_string(urlp, urllen)`. -/
def writeUrlString (m : MsgHttp) (str : List UInt8) : MsgHttp :=
  m.putUrl (sizeLt urlSize (toInt32 str.length)) (toInt32 str.length) str

end MsgHttp

/-- Where the http thread is: outside its callbacks, in `cb_time` before `pop` and with the message,
in the loop of `cb_event` before `getfront`, before `pop` and with the message, or nowhere after
undefined behaviour. -/
inductive HttpPc where
  | idle
  | timePop
  | timeMsg
  | eventFront
  | eventPop
  | eventMsg
  | fault
  deriving DecidableEq

/-- Where the logic thread is: outside `send`, or there with a message for an address and a
string. -/
inductive HttpLogicPc where
  | idle
  | fill (url str : List UInt8)
  deriving DecidableEq

/-- What becomes of a message: a request that is written to the connection `k`, nothing, or the end
of the connection before. -/
inductive HttpFate where
  | sent (k : ℕ) (request : List UInt8)
  | refused
  | ended

/-- What has been written to each connection, what has become of each message that the http thread
is done with, and the addresses and strings of the messages that have been pushed. -/
structure HttpHistory where
  output : ℕ → List UInt8
  fates : List HttpFate
  asked : List (List UInt8 × List UInt8)

/-- `thread_http`, the logic thread in `send`, and what they share. Of the `created` connections
only the one that `be` points to is live. -/
structure HttpState where
  mail : Mailbox MsgHttp
  be : Option ℕ
  created : ℕ
  connect_state : ℕ
  ip : List UInt8
  pc : HttpPc
  logicPc : HttpLogicPc
  history : HttpHistory

namespace HttpState

/-- `global::init` and `thread_http::init`, with `list` for what `malloc` gives. -/
def init (n : ℕ) (ip : List UInt8) (list : ℕ → MsgHttp) : HttpState where
  mail := .init n list
  be := none
  created := 0
  connect_state := 0
  ip := ip
  pc := .idle
  logicPc := .idle
  history := ⟨fun _ => [], [], []⟩

/-! ## The http thread -/

/-- Is `q_http_send.getfront()` a message? -/
def hasFront (s : HttpState) : Bool := (s.mail.slots.ring ()).getfront.isSome

/-- `bufferevent_socket_new` where `be` is null. -/
def newBe (s : HttpState) : HttpState :=
  match s.be with
  | some _ => s
  | none => { s with be := some s.created, created := s.created + 1, connect_state := 0 }

/-- `cb_time` up to `pop`. -/
def cbTime (s : HttpState) (created connects : Bool) : HttpState :=
  if !s.hasFront then s
  else if s.be = none ∧ !created then s
  else
    let s := s.newBe
    if s.connect_state = 0 then if connects then { s with connect_state := 1 } else s
    else if s.connect_state = 1 then s
    else { s with pc := .timePop }

/-- `m = q_http_send.pop()`. -/
def timePop (s : HttpState) : HttpState :=
  let mail := s.mail.pop
  { s with mail := mail, pc := if (mail.held .consumer).isSome then .timeMsg else .fault }

/-- The rest of `cb_time`, with `buf` for what is on the stack. What it leaves in the message is not
kept, since `send` writes all that is read of a slot. -/
def timeMsg (s : HttpState) (buf : ℕ → UInt8) : HttpState :=
  match s.mail.held .consumer with
  | none => { s with pc := .fault }
  | some m =>
    let s' := { s with mail := s.mail.free .consumer, pc := .idle }
    match (ThreadHttp.Call.run ⟨buf, 0, m, [], 0, none⟩ s.ip).request with
    | none => { s' with history := { s.history with fates := s.history.fates ++ [.refused] } }
    | some request =>
      match s.be with
      | none => { s with pc := .fault }
      | some k =>
        { s' with history := { s.history with
          output := Function.update s.history.output k (s.history.output k ++ request)
          fates := s.history.fates ++ [.sent k request] } }

/-- `cb_event` of the connection, where `connected` says whether `what` has
`BEV_EVENT_CONNECTED`. -/
def cbEvent (s : HttpState) (connected : Bool) : HttpState :=
  if connected then { s with connect_state := 2 } else { s with be := none, pc := .eventFront }

/-- `getfront` in the loop of `cb_event`. -/
def eventFront (s : HttpState) : HttpState :=
  { s with pc := if s.hasFront then .eventPop else .idle }

/-- `pop` in the loop of `cb_event`. -/
def eventPop (s : HttpState) : HttpState :=
  let mail := s.mail.pop
  { s with mail := mail, pc := if (mail.held .consumer).isSome then .eventMsg else .fault }

/-- `free` in the loop of `cb_event`. -/
def eventMsg (s : HttpState) : HttpState :=
  { s with
    mail := s.mail.free .consumer
    pc := .eventFront
    history := { s.history with fates := s.history.fates ++ [.ended] } }

/-- The http thread goes on with what it does, with `buf` for what is on the stack. -/
def httpNext (s : HttpState) (buf : ℕ → UInt8) : Option HttpState :=
  match s.pc with
  | .idle => none
  | .timePop => some s.timePop
  | .timeMsg => some (s.timeMsg buf)
  | .eventFront => some s.eventFront
  | .eventPop => some s.eventPop
  | .eventMsg => some s.eventMsg
  | .fault => none

/-! ## `send` -/

/-- `send` up to `alloc`. -/
def send (s : HttpState) (url str : List UInt8) : HttpState :=
  let mail := s.mail.alloc
  { s with
    mail := mail
    logicPc := if (mail.held .producer).isSome then .fill url str else .idle }

/-- The rest of `send`. -/
def fill (s : HttpState) (url str : List UInt8) : HttpState :=
  let mail := s.mail.edit fun m => (m.writeString str).writeUrlString url
  { s with
    mail := mail.push
    logicPc := .idle
    history := { s.history with asked := s.history.asked ++ [(url, str)] } }

end HttpState

/-- What can happen: a tick of the timer, an event of the connection or the next step of the http
thread, and a call of `send` or its end. -/
inductive HttpAction where
  | tick (created connects : Bool)
  | event (connected : Bool)
  | http (buf : ℕ → UInt8)
  | send (url str : List UInt8)
  | fill

namespace HttpState

/-- A step. libevent calls the callbacks of the connection only while it lives, and LuaJIT has no
strings of `2^31` bytes. -/
def step (s : HttpState) : HttpAction → Option HttpState
  | .tick created connects => if s.pc = .idle then some (s.cbTime created connects) else none
  | .event connected => if s.pc = .idle ∧ s.be.isSome then some (s.cbEvent connected) else none
  | .http buf => s.httpNext buf
  | .send url str =>
    if s.logicPc = .idle ∧ url.length < 2^31 ∧ str.length < 2^31 then some (s.send url str)
    else none
  | .fill =>
    match s.logicPc with
    | .idle => none
    | .fill url str => some (s.fill url str)

/-- A state that a run reaches. -/
abbrev Run (n : ℕ) (ip : List UInt8) (list : ℕ → MsgHttp) : HttpState → Prop :=
  Reach step (init n ip list) anyStep

end HttpState

end Catse
