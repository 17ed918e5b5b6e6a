import Catse.Common.LogNames
import Catse.Common.Spsc
import Catse.Common.ThreadLog

/-!
# The log path: the logic thread and the log thread

The logic thread logs a line by a call of `write` or of `write_c_log`, which fills the cell at the
end of `q_list` and passes it on with `push`. The log thread takes the cells off in `do_queue` and
writes each to the file of its entry in `li`. `q_list` is a `message_queue`, whose cells both
threads use in place, so its part of the state is `MessageQueueThreads`, and a step is one statement
of a thread on the ring with what the thread does to the cell.

What comes from outside is the action: the calls, the lines of `q_io`, what the clock shows, and
whether a file exists and can be opened. `LogHistory` is a record of the run that no function reads.
A call whose `table_concat` writes behind its buffer is not followed further.
-/

namespace Catse

open ThreadLog

/-- What a call puts in its cell: the number of an entry, and `buf[0, buf_len)`. -/
structure LogLine where
  id : ℤ
  bytes : List UInt8

/-- The line in a `log_node`. -/
def LogLine.ofNode (n : LogNode) : LogLine := ⟨n.id, prefixOf n.buf n.buf_len.toNat⟩

/-- A call that logs a line: `write_c_log`, or `write` with Lua's conversion of strings to numbers,
what is in the cell, and its arguments. -/
inductive LogCall where
  | c (logid : ℤ) (msg : List UInt8)
  | lua (tonumber : List UInt8 → Option Double) (buf : ℕ → UInt8) (stack : List LogArg)

/-- What a call does with its cell: it passes on a line, it gives the cell up for a line that is too
long or by a Lua error, or it writes behind the buffer. -/
inductive LogCall.Result where
  | line (l : LogLine)
  | refused
  | overrun

namespace LogCall

/-- `sizeof(plog->buf)`. -/
def bufSize : ℕ := 8192

/-- A call that has got a cell. -/
def result : LogCall → Result
  | .c logid msg => if bufSize < msg.length + 1 then .refused else .line ⟨logid, msg ++ [10]⟩
  | .lua tonumber buf stack =>
    match checknumber tonumber stack[0]? with
    | none => .refused
    | some id =>
      match tableConcat buf 8191 true 2 stack with
      | (.returned n, l) => if n < 0 then .refused else .line (.ofNode ⟨id, l.buf, n⟩)
      | (.raised _, _) => .refused
      | (.overrun, _) => .overrun

/-- A call that finds the ring full, and calls `urgent_write`. `write` has a buffer of its own
then. -/
def full : LogCall → Result
  | .c _ _ => .refused
  | .lua tonumber _ stack => (LogCall.lua tonumber (fun _ => 0) stack).result

/-- The line that a call passes on, if it gets a cell. -/
def line (c : LogCall) : Option LogLine :=
  match c.result with
  | .line l => some l
  | _ => none

end LogCall

/-- What comes from outside in `log_info::write`: the clock, the texts that `strftime` and `sprintf`
make of it, whether the file exists and can be opened, and `head[1]`, of which `LogInfo` does not
keep what an earlier head has left. -/
structure LogClock where
  curTime : ℤ
  bufTime : List UInt8
  str_time : List UInt8
  time_cur : List UInt8
  existed : Bool
  opens : Bool
  head1 : Bool

/-- What `fwrite` puts in a file: what comes before a line, and the line, if it comes to that. -/
structure LogRecord where
  name : List UInt8
  before : List UInt8
  line : Option (List UInt8)

namespace LogInfo

/-- `filename` as a C string. -/
def cname (t : LogInfo) : List UInt8 := t.filename.takeWhile (· ≠ 0)

/-- `"mdate,mtime,"`, the head and a newline. -/
def header (t : LogInfo) : List UInt8 := Printf.literal "mdate,mtime," ++ t.head ++ [10]

/-- What `log_info::write` puts in the open file `name`, which is new or not. -/
def record (t : LogInfo) (name : List UInt8) (isNew : Bool) (w : LogClock) (buf : List UInt8) :
    LogRecord :=
  let head := if isNew && w.head1 then t.header else []
  if w.str_time = [] then ⟨name, head, none⟩
  else
    let str_time := w.str_time ++ if w.head1 then w.time_cur else []
    ⟨name, head ++ (if t.is_json then [] else str_time), some buf⟩

/-- `log_info::write`, where `opened` is the name of the file if it is open. -/
def write (t : LogInfo) (opened : List UInt8) (w : LogClock) (buf : List UInt8) :
    LogInfo × List UInt8 × Option LogRecord :=
  let t := LogTable.updateFile w.curTime w.bufTime t
  let name := if t.file then opened else t.cname
  let isNew := !t.file && !w.existed
  let t := LogTable.openFile w.opens t
  (t, name, if t.file then some (t.record name isNew w buf) else none)

end LogInfo

/-- Where the log thread is: outside `do_queue(q_list)`, or there before the first `getfront` of a
round, before the second, before `log_info::write`, before `pop` and in it. -/
inductive LogPc where
  | idle
  | test
  | again
  | write
  | pop
  | popNext
  deriving DecidableEq

/-- The calls that are over and had a cell, those that found the ring full, and the lines that
`log_info::write` has been called with, each with what it put in a file. -/
structure LogHistory where
  kept : List LogCall
  full : List LogCall
  written : List (LogLine × Option LogRecord)

/-- The ring and its threads, the call that the logic thread is in, and the entries with the names
of the files that they have open. -/
structure LogState where
  queue : MessageQueueThreads LogLine
  call : Option LogCall
  logPc : LogPc
  table : LogTable
  opened : ℕ → List UInt8
  history : LogHistory

/-- What can happen: a call, and its next steps; the steps of `do_queue`, with `hot` for
`need_hot_log` at the start of a round of `run`; a line of `q_io`; and a call of `reg`. -/
inductive LogAction where
  | call (c : LogCall)
  | fill
  | push
  | pushNext
  | round (hot : Bool)
  | test
  | again
  | write (w : LogClock)
  | pop
  | popNext
  | io (w : LogClock) (x : LogLine)
  | reg (filename head : List UInt8) (divTime : ℤ) (isJson : Bool)

namespace LogState

/-- `thread_log::init`. -/
def init (cap : ℕ) : LogState where
  queue := .init cap
  call := none
  logPc := .idle
  table := LogTable.init
  opened := fun _ => []
  history := ⟨[], [], []⟩

/-- Is `id` an index of `li`? -/
def inLi (x : LogLine) : Bool := decide (0 ≤ x.id ∧ x.id < 256)

/-- `li[plog->id].write(curTime, plog->buf, plog->buf_len)`. -/
def writeInfo (s : LogState) (w : LogClock) (x : LogLine) : LogState × Option LogRecord :=
  let i := x.id.toNat
  let out := (s.table.li i).write (s.opened i) w x.bytes
  ({ s with
      table := { s.table with li := Function.update s.table.li i out.1 }
      opened := Function.update s.opened i out.2.1 }, out.2.2)

/-- The same if there is such an entry, for a line of `q_list`. -/
def writeLine (s : LogState) (w : LogClock) (x : LogLine) : LogState :=
  if inLi x then
    let out := s.writeInfo w x
    { out.1 with history := { s.history with written := s.history.written ++ [(x, out.2)] } }
  else s

/-! ## The logic thread -/

/-- A call that had a cell is over. -/
def finish (s : LogState) (c : LogCall) : LogState :=
  { s with call := none, history := { s.history with kept := s.history.kept ++ [c] } }

/-- `getback` of a call. -/
def start (s : LogState) (c : LogCall) : Option LogState :=
  match s.call with
  | some _ => none
  | none =>
    (s.queue.step .getback).bind fun queue =>
      match queue.put with
      | .slot _ => some { s with queue := queue, call := some c }
      | _ =>
        match c.full with
        | .overrun => none
        | _ => some { s with
            queue := queue
            history := { s.history with full := s.history.full ++ [c] } }

/-- The cell is filled, or given up. -/
def fill (s : LogState) : Option LogState :=
  match s.call with
  | none => none
  | some c =>
    match c.result with
    | .line l => (s.queue.step (.store l)).map fun queue => { s with queue := queue }
    | .refused => (s.queue.step .giveUp).map fun queue => { s with queue := queue }.finish c
    | .overrun => none

/-- The next statement of `push`. With `back` the line is passed on. -/
def pushNext (s : LogState) : Option LogState :=
  (s.queue.step .pushNext).map fun queue =>
    match s.call with
    | none => { s with queue := queue }
    | some c => { s with queue := queue }.finish c

/-! ## The log thread -/

/-- A round of `run` up to `do_queue(q_list)`. -/
def round (s : LogState) (hot : Bool) : Option LogState :=
  if s.logPc = .idle then
    some { s with logPc := .test, table := if hot then s.table.step .hot else s.table }
  else none

/-- `getfront` in the test of the loop. -/
def test (s : LogState) : Option LogState :=
  if s.logPc = .test then
    (s.queue.step .getfront).map fun queue =>
      match queue.take with
      | .slot => { s with queue := queue, logPc := .again }
      | _ => { s with queue := queue, logPc := .idle }
  else none

/-- `plog = q.getfront()`. -/
def again (s : LogState) : Option LogState :=
  if s.logPc = .again then
    (s.queue.step .getfront).map fun queue => { s with queue := queue, logPc := .write }
  else none

/-- `log_info::write` with the cell at the front. -/
def write (s : LogState) (w : LogClock) : Option LogState :=
  if s.logPc = .write then
    (s.queue.step .load).bind fun queue =>
      match queue.take with
      | .loaded (some x) => some ({ s with queue := queue, logPc := .pop }.writeLine w x)
      | _ => none
  else none

/-- `pop` up to and including its test. -/
def pop (s : LogState) : Option LogState :=
  if s.logPc = .pop then
    (s.queue.step .pop).map fun queue => { s with queue := queue, logPc := .popNext }
  else none

/-- The rest of `pop`. -/
def popNext (s : LogState) : Option LogState :=
  if s.logPc = .popNext then
    (s.queue.step .popNext).map fun queue => { s with queue := queue, logPc := .test }
  else none

/-- A line of `q_io` is written. -/
def io (s : LogState) (w : LogClock) (x : LogLine) : Option LogState :=
  if s.logPc = .idle then some (if inLi x then (s.writeInfo w x).1 else s) else none

/-- A statement of one of the threads. -/
def step (s : LogState) : LogAction → Option LogState
  | .call c => s.start c
  | .fill => s.fill
  | .push => (s.queue.step .push).map fun queue => { s with queue := queue }
  | .pushNext => s.pushNext
  | .round hot => s.round hot
  | .test => s.test
  | .again => s.again
  | .write w => s.write w
  | .pop => s.pop
  | .popNext => s.popNext
  | .io w x => s.io w x
  | .reg filename head divTime isJson =>
    some { s with table := (s.table.reg filename head divTime isJson).2 }

/-- A state that a run reaches. -/
abbrev Run (cap : ℕ) : LogState → Prop := Reach step (init cap) anyStep

end LogState

end Catse
