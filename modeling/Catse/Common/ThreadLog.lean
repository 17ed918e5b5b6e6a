import Catse.Lib.Printf
import Catse.Lib.Memory

/-!
# The log lines of `thread_log.h`

`table_concat` puts the arguments of a Lua call into a buffer, with commas between them and a
newline behind the last one. `ThreadLog.Line` is the state of its loop: the memory from `buf` on,
how far the line goes, and where bytes have been written so far. The callers pass one byte less than
the buffer has.

A string is stored if its length, cut to an `int`, fits. The length is not cut for the copy, so a
string of `2^31` bytes or more can pass and be copied over all that is behind the buffer. Nothing is
said about a run from there on.
-/

namespace Catse

open Printf

/-- An argument of a Lua call. `other` has a type that is none of `lua.h`. -/
inductive LogArg where
  | nil
  | number (d : Double)
  | boolean (b : Bool)
  | string (s : List UInt8)
  | table
  | function
  | userdata
  | thread
  | lightuserdata
  | other (type : ℕ)

namespace ThreadLog

/-- `1e-8` and `1e-2`, scaled. -/
def wholeBounds : ℤ × ℤ := (Double.scaled 0x3E45798EE2308C3A, Double.scaled 0x3F847AE147AE147B)

/-- The test `-1e-8 < tmp && tmp < 1e-2` of `tmp = d - (long long)d`, which is exact where it is
small. -/
def isWhole (d : Double) : Bool :=
  d.expo != 2047 && (decide (-wholeBounds.1 < d.scaled - d.cvttsd2si 64 * 2^1075) &&
    decide (d.scaled - d.cvttsd2si 64 * 2^1075 < wholeBounds.2))

/-- The text of a number. -/
def numberText (d : Double) : List UInt8 := if isWhole d then lld (d.cvttsd2si 64) else lf d

/-- The line as far as it has been written. A write is its offset and its number of bytes. -/
structure Line where
  buf : ℕ → UInt8
  bufLen : ℕ
  writes : List (ℕ × ℕ)

/-- Why a line ends. -/
inductive Outcome where
  | returned (n : ℤ)
  | raised (type : ℕ)
  | overrun
  deriving DecidableEq

/-- What a statement does to the line. -/
abbrev Step := Except (Outcome × Line) Line

/-- `bs` is stored at the end of the line, which goes on by `len`. -/
def Line.store (l : Line) (bs : List UInt8) (len : ℕ) : Line where
  buf := storeAt l.buf l.bufLen bs
  bufLen := l.bufLen + len
  writes := l.writes ++ [(l.bufLen, bs.length)]

/-- `MY_MEMCPY`. -/
def memcpyText (cap : ℕ) (str : List UInt8) (l : Line) : Step :=
  if ((cap : ℤ) - l.bufLen) % 2^64 < str.length then .error (.returned (-1), l)
  else .ok (l.store str str.length)

/-- `MY_ADDCHAR`. -/
def addChar (cap : ℕ) (isLog : Bool) (c : UInt8) (l : Line) : Step :=
  if isLog then
    if cap ≤ l.bufLen then .error (.returned (-1), l) else .ok (l.store [c] 1)
  else .ok l

/-- The size that a number is given. -/
def room (cap : ℕ) (l : Line) : ℕ := (((cap : ℤ) - l.bufLen - 1) % 2^64).toNat

/-- The cases of `table_concat`. -/
def argument (cap : ℕ) (l : Line) : LogArg → Step
  | .nil => memcpyText cap (literal "(type):nil") l
  | .number d =>
    let ret := (numberText d).length
    let l' := l.store (snprintf (room cap l) (numberText d)) ret
    if ret ≤ 0 then .error (.returned (-1), l') else .ok l'
  | .boolean b => memcpyText cap (literal (if b then "true" else "false")) l
  | .string s =>
    if (cap : ℤ) - l.bufLen < toInt32 s.length then .error (.returned (-1), l)
    else if l.bufLen + s.length ≤ cap then .ok (l.store s s.length)
    else .error (.overrun, l.store s s.length)
  | .table => memcpyText cap (literal "(type):table") l
  | .function => memcpyText cap (literal "(type):function") l
  | .userdata => memcpyText cap (literal "(type):userdata") l
  | .thread => memcpyText cap (literal "(type):thread") l
  | .lightuserdata => memcpyText cap (literal "(type):lightuserdata") l
  | .other type => .error (.raised type, l)

/-- The loop of `table_concat`, `first` before its first argument. -/
def arguments (cap : ℕ) (isLog first : Bool) : List LogArg → Line → Step
  | [], l => .ok l
  | a :: args, l => do
    let l ← if first then .ok l else addChar cap isLog 44 l
    let l ← argument cap l a
    arguments cap isLog false args l

/-- `table_concat` of the arguments from `start` on, with the memory from `buf` on. -/
def tableConcat (buf : ℕ → UInt8) (cap : ℕ) (isLog : Bool) (start : ℕ) (stack : List LogArg) :
    Outcome × Line :=
  match (do
    let l ← arguments cap isLog true (stack.drop (start - 1)) ⟨buf, 0, []⟩
    addChar cap isLog 10 l) with
  | .ok l => (.returned l.bufLen, l)
  | .error e => e

/-- `log_node`, with the memory from `buf` on. -/
structure LogNode where
  id : ℤ
  buf : ℕ → UInt8
  buf_len : ℤ

/-- `q_list`: the cells of its ring, one of which stays empty, and the nodes in it. -/
structure LogQueue where
  cap : ℕ
  nodes : List LogNode

/-- What `urgent_write` is called with. -/
structure Urgent where
  reason : String
  logid : ℤ
  msg : List UInt8

/-- `luaL_checknumber` of the first argument, with Lua's conversion of strings to numbers. -/
def checknumber (tonumber : List UInt8 → Option Double) : Option LogArg → Option ℤ
  | some (.number d) => some d.castInt
  | some (.string s) => (tonumber s).map Double.castInt
  | _ => none

/-- `write`, with the memory from the `buf` of the next cell on. An error that is raised leaves the
queue as it is. -/
def write (tonumber : List UInt8 → Option Double) (q : LogQueue) (buf : ℕ → UInt8)
    (stack : List LogArg) : Option (LogQueue × Option Urgent) :=
  match checknumber tonumber stack[0]? with
  | none => some (q, none)
  | some id =>
    if q.cap ≤ q.nodes.length + 1 then
      match tableConcat (fun _ => 0) 8191 true 2 stack with
      | (.returned n, l) =>
        some (q, some
          ⟨"write_lua_log log null", id, prefixOf l.buf (if n < 0 then 8192 else n.toNat)⟩)
      | (.raised _, _) => some (q, none)
      | (.overrun, _) => none
    else
      match tableConcat buf 8191 true 2 stack with
      | (.returned n, l) =>
        if n < 0 then some (q, some ⟨"write_lua_log buf_len exceed", id, prefixOf l.buf 8192⟩)
        else some ({ q with nodes := q.nodes ++ [⟨id, l.buf, n⟩] }, none)
      | (.raised _, _) => some (q, none)
      | (.overrun, _) => none

end ThreadLog

end Catse
