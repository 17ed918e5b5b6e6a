import Catse.Mongo.Bson

/-!
# The bytes of a document

What the driver has in `bson::data`: a document is its size, its elements and a zero, and an element
is the code of its type, its name with a zero, and its value. Numbers are little-endian, and a size
is that of all of the document, itself included.
-/

namespace Catse

namespace BsonValue

/-- `bson_type`. -/
def type : BsonValue → ℕ
  | .double _ => 1
  | .string _ => 2
  | .object _ => 3
  | .array _ => 4
  | .bindata _ _ => 5
  | .oid _ => 7
  | .bool _ => 8
  | .int _ => 16
  | .long _ => 18
  | .other t => t

/-- The size in front of some elements, and the zero behind them. -/
def enclose (elements : List UInt8) : List UInt8 :=
  leBytes 4 (4 + elements.length + 1) ++ elements ++ [0]

mutual

/-- The bytes of a value. Those of the types that `lua_mongo` does not write are left out. -/
def bytes : BsonValue → List UInt8
  | .double d => leBytes 8 d.toNat
  | .string s => leBytes 4 (s.length + 1) ++ s ++ [0]
  | .object doc => enclose (elementsBytes doc)
  | .array doc => enclose (elementsBytes doc)
  | .bindata type s =>
    if type = 2 then leBytes 4 (s.length + 4) ++ [type] ++ leBytes 4 s.length ++ s
    else leBytes 4 s.length ++ [type] ++ s
  | .oid bytes => bytes
  | .bool b => [if b then 1 else 0]
  | .int n => leBytes 4 (n % 2^32).toNat
  | .long n => leBytes 8 (n % 2^64).toNat
  | .other _ => []

/-- The bytes of some elements. -/
def elementsBytes : List (List UInt8 × BsonValue) → List UInt8
  | [] => []
  | (name, x) :: doc => [UInt8.ofNat x.type] ++ name ++ [0] ++ x.bytes ++ elementsBytes doc

end

end BsonValue

/-- `bson_data` of a finished document. -/
def BsonDoc.bytes (doc : BsonDoc) : List UInt8 := BsonValue.enclose (BsonValue.elementsBytes doc)

/-- `bson_finish` with its test of the size: what it leaves in `data`, if it succeeds. -/
def Bson.finishBytes (b : Bson) : Option (List UInt8) :=
  b.finish.bind fun doc =>
    if 2^31 - 1 ≤ (BsonDoc.bytes doc).length then none else some (BsonDoc.bytes doc)

theorem Bson.length_finishBytes {b : Bson} {bytes : List UInt8} (h : b.finishBytes = some bytes) :
    bytes.length < 2^31 - 1 := by
  obtain ⟨doc, -, hbytes⟩ := Option.bind_eq_some_iff.mp h
  obtain ⟨hlt, heq⟩ := Option.ite_none_left_eq_some.mp hbytes
  rw [← Option.some.inj heq]
  exact not_le.mp hlt

/-- An empty document has five bytes, and one with a boolean under `"a"` four more. -/
example : BsonDoc.bytes [] = [5, 0, 0, 0, 0] ∧
    BsonDoc.bytes [([97], .bool true)] = [9, 0, 0, 0, 8, 97, 0, 1, 0] := by decide

end Catse
