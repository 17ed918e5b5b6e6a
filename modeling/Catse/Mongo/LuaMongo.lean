import Catse.Mongo.Bson

/-!
# `lua_mongo`: tables to documents and back

`table2bson` and `bson2table` on tables that are read through: a `LuaTree` is a Lua value with the
values of its tables inside, and a table is the list of its entries in the order in which `lua_next`
enumerates it, which is any order. A number as a key is an integer, or else the double that it is.
`lua_rawset` of a new key adds the entry at the end of the list, which as a table is the same as
anywhere. Strings are their bytes, and what a function takes as a C string is the part before the
first NUL. An error of `luaL_error` is its text.
-/

namespace Catse

/-- A number that is no integer. -/
structure Fraction where
  d : Double
  isFraction : d.IsFraction
  deriving DecidableEq

/-- A key of a table. `other` has the type of a key that is neither a number nor a string. -/
inductive LuaTreeKey where
  | number (n : ℤ)
  | fraction (x : Fraction)
  | string (s : List UInt8)
  | other (type : ℕ)
  deriving DecidableEq

/-- A value with what is inside of it. `other` has the type of a value that `table2bson` does not
take. -/
inductive LuaTree where
  | boolean (b : Bool)
  | number (d : Double)
  | string (s : List UInt8)
  | table (entries : List (LuaTreeKey × LuaTree))
  | other (type : ℕ)

/-- The entries of a table. -/
abbrev LuaEntries := List (LuaTreeKey × LuaTree)

/-- `lua_rawget`. -/
def rawget (t : LuaEntries) (k : LuaTreeKey) : Option LuaTree := t.lookup k

/-- `lua_rawset`. -/
def rawset (t : LuaEntries) (k : LuaTreeKey) (v : LuaTree) : LuaEntries :=
  match t with
  | [] => [(k, v)]
  | x :: t => if x.1 = k then (k, v) :: t else x :: rawset t k v

namespace LuaMongo

/-! ## Keys -/

/-- The digits of a number. -/
def decimal (n : ℕ) : List UInt8 :=
  if n < 10 then [48 + UInt8.ofNat n] else decimal (n / 10) ++ [48 + UInt8.ofNat (n % 10)]

/-- `int2string`, which keeps the texts of small numbers. -/
def int2string (n : ℤ) : List UInt8 := if n < 0 then 45 :: decimal n.natAbs else decimal n.natAbs

/-- `1e-8`, scaled. -/
def nearBound : ℤ := Double.scaled 0x3E45798EE2308C3A

/-- The test `-1e-8 < d && d < 1e-8` of the difference `d` of a double and an integer, which is
exact where it is small. -/
def isNear (d : Double) (n : ℤ) : Bool :=
  d.expo != 2047 && (decide (-nearBound < d.scaled - n * 2^1075) &&
    decide (d.scaled - n * 2^1075 < nearBound))

/-- `is_array`, with the counter. -/
def isArray (cnt : ℤ) : LuaEntries → Bool
  | [] => true
  | (.number n, _) :: t => decide (n - (cnt + 1) = 0) && isArray (cnt + 1) t
  | (.fraction x, _) :: t => isNear x.d (cnt + 1) && isArray (cnt + 1) t
  | _ :: _ => false

/-- The test `47 < c && c < 58`. -/
def isDigit (c : UInt8) : Bool := 47 < c && c < 58

/-- `is_unsigned_int`. -/
def isUnsignedInt (s : List UInt8) : Bool := !s.isEmpty && (!decide (9 < s.length) && s.all isDigit)

/-- `atoi` on digits. -/
def atoi (s : List UInt8) : ℕ := s.foldl (fun n c => 10 * n + (c.toNat - 48)) 0

/-- `(int)d` of an integral `d`. -/
def toInt (n : ℤ) : ℤ := if -2^31 ≤ n ∧ n < 2^31 then n else -2^31

/-- The key of an element for a key of a table. -/
def elementKey (arrayFlag : Bool) : LuaTreeKey → Except String (List UInt8)
  | .number n => .ok (int2string (toInt n - arrayFlag.toNat))
  | .fraction x => .ok (int2string (x.d.castInt - arrayFlag.toNat))
  | .string s => .ok (Bson.cname s)
  | .other type => .error ("table2bson type_key=" ++ toString type)

/-- The key of a table for a key of an element. -/
def tableKey (arrayFlag : Bool) (key : List UInt8) : LuaTreeKey :=
  if isUnsignedInt key then .number (atoi key + arrayFlag.toNat) else .string key

/-! ## Object identifiers -/

/-- The text of `hash_little_to_big`, `%02x`. -/
def hashLittleToBig (c : UInt8) : List UInt8 := [hexDigit (c / 16), hexDigit (c % 16)]
where
  /-- A digit of `%x`. -/
  hexDigit (d : UInt8) : UInt8 := if d < 10 then 48 + d else 87 + d

/-- `hash_big_to_little`, which is zero where no text has been entered. -/
def hashBigToLittle (a b : UInt8) : UInt8 :=
  (((List.range 256).map UInt8.ofNat).find? fun c => hashLittleToBig c = [a, b]).getD 0

/-- `little_to_big`. -/
def littleToBig (p : List UInt8) : List UInt8 := p.flatMap hashLittleToBig

/-- `big_to_little`. -/
def bigToLittle : List UInt8 → List UInt8
  | a :: b :: s => hashBigToLittle a b :: bigToLittle s
  | _ => []

/-- `"_id"`. -/
def idName : List UInt8 := [95, 105, 100]

/-! ## From tables to documents -/

/-- The value of `_id`. -/
def appendId (b : Bson) : LuaTree → Except String Bson
  | .string s => .ok (b.append idName
      (.oid (if s.length = 24 then bigToLittle s else List.replicate 12 0))).2
  | _ => .error "table2bson _id not string"

/-- A string, or a binary where it is not accepted as a string. -/
def appendString (b : Bson) (key s : List UInt8) : Bson :=
  if (b.appendStringN key s).1 then (b.appendStringN key s).2
  else { ((b.appendStringN key s).2.append key (.bindata 0 s)).2 with notUtf8 := b.notUtf8 }

mutual

/-- `table2bson`. -/
def table2bson (b : Bson) (arrayFlag : Bool) : LuaEntries → Except String Bson
  | [] => .ok b
  | (k, v) :: t => do
    let key ← elementKey arrayFlag k
    let b' ← (if key = idName then appendId b v else appendValue b key v)
    table2bson b' arrayFlag t

/-- The value under a key other than `_id`. -/
def appendValue (b : Bson) (key : List UInt8) : LuaTree → Except String Bson
  | .boolean x => .ok (b.append key (.bool x)).2
  | .number d => .ok (b.append key (.double d)).2
  | .string s => .ok (appendString b key s)
  | .table t => do
    let b' ← table2bson (b.appendStart key (isArray 0 t)) (isArray 0 t) t
    .ok b'.appendFinish
  | .other type => .error ("table2bson value_type=" ++ toString type)

end

/-! ## From documents to tables -/

/-- `(double)n` of an integer of 64 bits: above `2^53` it is rounded to the nearest double, and to
the even one of two. -/
def toDouble (n : ℤ) : Double :=
  if n.natAbs < 2^53 then Double.ofInt n
  else
    let u := 2^(Nat.log 2 n.natAbs - 52)
    let q := n.natAbs / u
    let up := decide (u < 2 * (n.natAbs % u)) ||
      (decide (2 * (n.natAbs % u) = u) && decide (q % 2 = 1))
    Double.pack (n < 0) (Nat.log 2 n.natAbs + 1023) (q + up.toNat - 2^52)

/-- The table that a subdocument is read into: the one that is there, or a new one. -/
def subtable : Option LuaTree → LuaEntries
  | some (.table t) => t
  | _ => []

mutual

/-- `bson2table`. -/
def bson2table (arrayFlag : Bool) : BsonDoc → LuaEntries → Except String LuaEntries
  | [], t => .ok t
  | (key, x) :: doc, t => do
    let v ← elementValue (rawget t (tableKey arrayFlag key)) x
    bson2table arrayFlag doc (rawset t (tableKey arrayFlag key) v)

/-- The value for an element, given what is in the table under its key. -/
def elementValue (old : Option LuaTree) : BsonValue → Except String LuaTree
  | .double d => .ok (.number d)
  | .int n => .ok (.number (toDouble n))
  | .long n => .ok (.number (toDouble n))
  | .string s => .ok (.string s)
  | .object doc => do
    let t ← bson2table false doc (subtable old)
    .ok (.table t)
  | .array doc => do
    let t ← bson2table true doc (subtable old)
    .ok (.table t)
  | .bindata _ s => .ok (.string s)
  | .oid bytes => .ok (.string (littleToBig bytes))
  | .bool b => .ok (.boolean b)
  | .other t => .error ("bson2table t=" ++ toString t)

end

end LuaMongo

end Catse
