import Catse.Common.MsgStruct
import Catse.Lib.Lua

/-!
# The packet parser of `proto_parser.h`

A packet is described by a template: the fields `adj[nodeid]`, each a scalar, a struct, an array of
scalars or an array of structs, where the fields of a struct are those of another node, `next`.
`read_msg_dfs` reads a packet into a Lua table that has the tables for structs and arrays already,
and `write_msg_dfs` writes the message that a Lua table describes.

Both are embedded with their use of the Lua stack, since what happens after an early return depends
on it: it leaves on the stack what the function had pushed, and the caller that goes on regardless
works on another table than it thinks, until a comparison of the heights ends in an error. The
bodies of the two loops over fields are split at their branches (`readScalar`, `readStruct`,
`readArray`, ...). `fuel` bounds the depth of the recursion along `next`.
-/

namespace Catse

/-- The types of `proto_parser`. -/
inductive ProtoType where
  | byte
  | short
  | int
  | uint
  | double
  | string
  deriving DecidableEq

/-- `proto_attr`. A field of a scalar type has `next = 0`. -/
structure ProtoAttr where
  type : ProtoType
  cnt : ℤ
  next : ℕ
  name : List UInt8
  deriving DecidableEq

/-- The errors that the parser raises, with their arguments. The texts are the name,
`"%s[%d]"`, and `"mytest proto_parser.read_msg_dfs top_old=%d,top_new=%d"` with the name of the
function. -/
inductive ProtoError where
  | notTable (name : List UInt8)
  | elemNotTable (name : List UInt8) (j : ℤ)
  | readTop (top_old top_new : ℕ)
  | writeTop (top_old top_new : ℕ)
  deriving DecidableEq

open LuaM

/-! ## Reading -/

/-- What `read_msg_dfs` has read: the bytes of the buffer at `off`, if there were enough of them,
the length of an array with `cnt`, and the length of a string. -/
inductive ReadEvent where
  | access (off size : ℤ) (ok : Bool)
  | count (len cnt : ℤ)
  | strLen (len : ℤ)
  deriving DecidableEq

/-- The packet that is read. `log` is a record of the run that no function reads but for the
length, which tells apart the uninitialised buffers. -/
structure Reading where
  msg : MsgRecv
  log : List ReadEvent
  deriving DecidableEq

/-- C code that reads a packet. -/
abbrev ReadM := LuaM ProtoError Reading

namespace ProtoParser

/-- A call of one of the functions `msg_recv::read_*`, for `size` bytes. -/
def read {α : Type} (size : ℤ) (f : MsgRecv → α × MsgRecv) : ReadM α :=
  onData fun d =>
    ((f d.msg).1, ⟨(f d.msg).2, d.log ++ [.access d.msg.front size (!d.msg.short size)]⟩)

/-- An entry of the record. -/
def note (e : ReadEvent) : ReadM Unit := onData fun d => ((), { d with log := d.log ++ [e] })

/-- `read_byte(data)`. -/
def readByte : ReadM ℤ := read 1 MsgRecv.readByte

/-- `read_short(data)`. -/
def readShort : ReadM ℤ := read 2 MsgRecv.readShort

/-- `read_int(data)`. -/
def readInt : ReadM ℤ := read 4 MsgRecv.readInt

/-- `read_double(data)`. -/
def readDouble : ReadM Double := read 8 MsgRecv.readDouble

section Read

-- The contents of the local variables `buf`, which are not initialised, by the number of events
-- before.
variable (junk : ℕ → ℕ → UInt8)

/-- `read_string(data, buf, len)`, and then the first `len` bytes of `buf`. -/
def readString (len : ℤ) : ReadM (List UInt8) :=
  onData fun d =>
    ((d.msg.readString len).1.getD ((List.range len.toNat).map (junk d.log.length)),
      ⟨(d.msg.readString len).2, d.log ++ [.access d.msg.front len (!d.msg.short len)]⟩)

/-- The rest of the branch for a string, after its length. -/
def readChars (len : ℤ) : ReadM Bool := do
  if len < 0 then return false
  else if sizeLt 65536 len then return false
  else
    let buf ← readString junk len
    pushlstring buf
    return true

/-- The branch for a string. -/
def readLstring : ReadM Bool := do
  let len ← readShort
  note (.strLen len)
  readChars junk len

/-- The branches for a scalar, up to `lua_setfield`. -/
def readScalarValue : ProtoType → ReadM Bool
  | .byte => do
    let n ← readByte
    push (.number (.ofInt n))
    return true
  | .short => do
    let n ← readShort
    push (.number (.ofInt n))
    return true
  | .int => do
    let n ← readInt
    push (.number (.ofInt n))
    return true
  | .uint => do
    let n ← readInt
    push (.number (.ofInt n))
    return true
  | .double => do
    let d ← readDouble
    push (.number d)
    return true
  | .string => readLstring junk

/-- The branches for an element of an array of scalars, up to `lua_rawseti`. -/
def readElemValue : ProtoType → ReadM Bool
  | .int => do
    let n ← readInt
    push (.number (.ofInt n))
    return true
  | .uint => do
    let n ← readInt
    push (.number (.ofInt n))
    return true
  | .short => do
    let n ← readShort
    push (.number (.ofInt n))
    return true
  | .byte => do
    let n ← readByte
    push (.number (.ofInt n))
    return true
  | .double => do
    let d ← readDouble
    push (.number d)
    return true
  | .string => readLstring junk

/-- A scalar. -/
def readScalar (name : List UInt8) (ty : ProtoType) : ReadM Bool := do
  if ← readScalarValue junk ty then
    setfield name
    return true
  else return false

/-- An element of an array of scalars. -/
def readElem (ty : ProtoType) (j : ℕ) : ReadM Bool := do
  if ← readElemValue junk ty then
    rawseti (j + 1)
    return true
  else return false

/-- A struct, where `sub` is the recursive call. -/
def readStruct (name : List UInt8) (sub : ReadM Bool) : ReadM Bool := do
  getfield name
  if ← sub then
    pop
    return true
  else return false

/-- An element of an array of structs. The result of the recursive call is dropped. -/
def readStructElem (name : List UInt8) (sub : ReadM Bool) (j : ℕ) : ReadM Bool := do
  rawgeti (j + 1)
  if ← istable then
    let _ ← sub
    pop
    return true
  else raise (.elemNotTable name (j + 1))

/-- The loop over the elements of an array, of which `n` are left. -/
def readElems (elem : ℕ → ReadM Bool) : ℕ → ℕ → ReadM Bool
  | 0, _ => return true
  | n + 1, j => do
    if ← elem j then readElems elem n (j + 1)
    else return false

/-- An array. -/
def readArray (name : List UInt8) (cnt : ℤ) (elem : ℕ → ReadM Bool) : ReadM Bool := do
  let len ← readShort
  note (.count len cnt)
  if ¬(0 ≤ len ∧ len ≤ cnt) then return false
  else
    getfield name
    if ← istable then
      push (.number (.ofInt len))
      rawseti 0
      if ← readElems elem len.toNat 0 then
        pop
        return true
      else return false
    else raise (.notTable name)

/-- One iteration of the loop over the fields. -/
def readField (sub : ℕ → ReadM Bool) (pa : ProtoAttr) : ReadM Bool :=
  if pa.cnt < 2 then
    if pa.next ≠ 0 then readStruct pa.name (sub pa.next) else readScalar junk pa.name pa.type
  else
    readArray pa.name pa.cnt
      (if pa.next ≠ 0 then readStructElem pa.name (sub pa.next) else readElem junk pa.type)

/-- The loop over the fields. -/
def readFields (sub : ℕ → ReadM Bool) : List ProtoAttr → ReadM Bool
  | [] => return true
  | pa :: pas => do
    if ← readField junk sub pa then readFields sub pas
    else return false

/-- The loop with the comparison of the heights of the stack. -/
def readBody (fields : ReadM Bool) : ReadM Bool := do
  let top_old ← gettop
  if ← fields then
    let top_new ← gettop
    if top_old ≠ top_new then raise (.readTop top_old top_new) else return true
  else return false

/-- `proto_parser::read_msg_dfs`. -/
def readMsgDfs (adj : ℕ → List ProtoAttr) : ℕ → ℕ → ReadM Bool
  | 0, _ => throw .outOfFuel
  | fuel + 1, nodeid => readBody (readFields junk (readMsgDfs adj fuel) (adj nodeid))

/-- `has_read_all(data)`. -/
def hasReadAll : ReadM Bool := fun s => .ok s.data.msg.hasReadAll s

/-- `msg_ex::read`, and the number of its results: it reports success with none. -/
def msgExRead (adj : ℕ → List ProtoAttr) (fuel proto_id : ℕ) : ReadM ℕ := do
  if ← readMsgDfs junk adj fuel proto_id then
    if ← hasReadAll then return 0
    else
      push (.boolean true)
      return 1
  else
    push (.boolean true)
    return 1

/-- Success is reported exactly when `read_msg_dfs` returns true with all bytes read. -/
theorem msgExRead_success_iff {adj : ℕ → List ProtoAttr} {fuel proto_id : ℕ}
    {s s' : LuaState Reading} :
    (msgExRead junk adj fuel proto_id).run s = .ok 0 s' ↔
      (readMsgDfs junk adj fuel proto_id).run s = .ok true s' ∧
        s'.data.msg.back = s'.data.msg.front := by
  constructor
  · intro h
    obtain ⟨b, t, hdfs, hrest⟩ := bind_inv h
    cases b with
    | false => cases hrest
    | true =>
      obtain ⟨all, u, hall, hrest⟩ := bind_inv hrest
      cases hall
      cases hdec : t.data.msg.hasReadAll with
      | false =>
        rw [hdec] at hrest
        cases hrest
      | true =>
        rw [hdec] at hrest
        cases hrest
        exact ⟨hdfs, eq_of_beq hdec⟩
  · rintro ⟨hdfs, hall⟩
    have hdec : s'.data.msg.hasReadAll = true := beq_iff_eq.mpr hall
    have hrun : (hasReadAll : ReadM Bool).run s' = .ok true s' := by
      show EStateM.Result.ok s'.data.msg.hasReadAll s' = _
      rw [hdec]
    unfold msgExRead
    rw [run_bind hdfs]
    exact run_bind hrun

end Read

end ProtoParser

/-! ## Writing -/

/-- The message that is written, and the name of the field that was wrong. -/
structure Writing where
  msg : MsgSend
  err_name : List UInt8
  deriving DecidableEq

/-- C code that writes a message. -/
abbrev WriteM := LuaM ProtoError Writing

namespace ProtoParser

/-- A call of one of the functions `msg_send::write_*`. -/
def write (f : MsgSend → MsgSend) : WriteM Unit := onData fun d => ((), { d with msg := f d.msg })

/-- `strncpy(err_name, pa.name, 128)`. -/
def setErrName (name : List UInt8) :
    WriteM Unit := onData fun d => ((), { d with err_name := name })

/-- `MY_CHECK_TYPE(t, ret)`, and what follows it. -/
def checkType (name : List UInt8) (t ret : ℤ) (m : WriteM ℤ) : WriteM ℤ := do
  let v ← type
  if v ≠ t then
    setErrName name
    return ret * 100 + v
  else m

/-- `write_byte(data, (char)luaL_checknumber(pl, -1))`. -/
def writeByte : WriteM ℤ := do
  let d ← checknumber
  write (·.writeByte d.castChar)
  return 0

/-- `write_short(data, (short)luaL_checknumber(pl, -1))`. -/
def writeShort : WriteM ℤ := do
  let d ← checknumber
  write (·.writeShort d.castShort)
  return 0

/-- `write_double(data, luaL_checknumber(pl, -1))`. -/
def writeDouble : WriteM ℤ := do
  let d ← checknumber
  write (·.writeDouble d)
  return 0

/-- `write_int(data, (unsigned)luaL_checknumber(pl, -1))`. -/
def writeInt : WriteM ℤ := do
  let d ← checknumber
  write (·.writeInt d.castUnsigned)
  return 0

/-- `write_short(data, len)` and `write_string(data, str, len)` of the string on the stack. -/
def writeLstring : WriteM ℤ := do
  let str ← checklstring
  write (·.writeShort (toShort str.bytes.length))
  write (·.writeString str.bytes (toInt32 str.bytes.length))
  return 0

/-- The branches for a scalar. -/
def writeScalar (name : List UInt8) : ProtoType → WriteM ℤ
  | .byte => checkType name LuaVal.tNumber 1 writeByte
  | .short => checkType name LuaVal.tNumber 2 writeShort
  | .double => checkType name LuaVal.tNumber 3 writeDouble
  | .int => checkType name LuaVal.tNumber 4 writeInt
  | .uint => checkType name LuaVal.tNumber 5 writeInt
  | .string => checkType name LuaVal.tString 6 writeLstring

/-- The branches for an element of an array of scalars. -/
def writeElem (name : List UInt8) : ProtoType → WriteM ℤ
  | .byte => checkType name LuaVal.tNumber 8 writeByte
  | .short => checkType name LuaVal.tNumber 9 writeShort
  | .double => checkType name LuaVal.tNumber 10 writeDouble
  | .int => checkType name LuaVal.tNumber 11 writeInt
  | .uint => checkType name LuaVal.tNumber 11 writeInt
  | .string => checkType name LuaVal.tString 12 writeLstring

/-- The loop over the elements of an array, of which `n` are left. -/
def writeElems (elem : WriteM ℤ) : ℕ → ℕ → WriteM ℤ
  | 0, _ => return 0
  | n + 1, j => do
    rawgeti (j + 1)
    let ret ← elem
    if ret ≠ 0 then return ret
    else
      pop
      writeElems elem n (j + 1)

/-- An array. -/
def writeArray (name : List UInt8) (elem : WriteM ℤ) : WriteM ℤ := do
  if ← istable then
    rawgeti 0
    checkType name LuaVal.tNumber 7 do
      let d ← checknumber
      pop
      write (·.writeShort d.castShort)
      writeElems elem d.castShort.toNat 0
  else
    setErrName name
    return 14

/-- One iteration of the loop over the fields. -/
def writeField (sub : ℕ → WriteM ℤ) (pa : ProtoAttr) : WriteM ℤ := do
  getfield pa.name
  let ret ←
    (if pa.cnt < 2 then
      (if pa.next ≠ 0 then sub pa.next else writeScalar pa.name pa.type)
    else
      writeArray pa.name (if pa.next ≠ 0 then sub pa.next else writeElem pa.name pa.type))
  if ret ≠ 0 then return ret
  else
    pop
    return 0

/-- The loop over the fields. -/
def writeFields (sub : ℕ → WriteM ℤ) : List ProtoAttr → WriteM ℤ
  | [] => return 0
  | pa :: pas => do
    let ret ← writeField sub pa
    if ret ≠ 0 then return ret else writeFields sub pas

/-- The check of the argument, the loop, and the comparison of the heights of the stack. -/
def writeBody (fields : WriteM ℤ) : WriteM ℤ := do
  let top_old ← gettop
  if ← istable then
    let ret ← fields
    if ret ≠ 0 then return ret
    else
      let top_new ← gettop
      if top_old ≠ top_new then raise (.writeTop top_old top_new) else return 0
  else return 15

/-- `proto_parser::write_msg_dfs`. -/
def writeMsgDfs (adj : ℕ → List ProtoAttr) : ℕ → ℕ → WriteM ℤ
  | 0, _ => throw .outOfFuel
  | fuel + 1, nodeid => writeBody (writeFields (writeMsgDfs adj fuel) (adj nodeid))

end ProtoParser

end Catse
