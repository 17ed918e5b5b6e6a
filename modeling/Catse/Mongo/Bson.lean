import Catse.Lib.Double
import Catse.Lib.Bytes

/-!
# BSON documents and their builder

What `lua_mongo` uses of the driver in `mongo_c_driver`: a document is the list of its elements,
each with its name, and a `Bson` is a document under construction. The driver stores and iterates
elements as they are; what it rejects are names and strings that are not valid UTF-8, by
`bson_validate_string`. Names are C strings. Of the error flags only `BSON_NOT_UTF8` is kept, which
`bson_finish` looks at, and the limit of 2 GiB for a document is left out.
-/

namespace Catse

/-- The value of an element. `other` has the types that `lua_mongo` neither writes nor reads. -/
inductive BsonValue where
  | double (d : Double)
  | string (s : List UInt8)
  | object (doc : List (List UInt8 × BsonValue))
  | array (doc : List (List UInt8 × BsonValue))
  | bindata (type : UInt8) (s : List UInt8)
  | oid (bytes : List UInt8)
  | bool (b : Bool)
  | int (n : ℤ)
  | long (n : ℤ)
  | other (t : ℕ)

/-- The elements of a document. -/
abbrev BsonDoc := List (List UInt8 × BsonValue)

/-! ## UTF-8 -/

/-- `trailingBytesForUTF8`. -/
def trailingBytesForUTF8 (c : UInt8) : ℕ :=
  if c < 0xC0 then 0
  else if c < 0xE0 then 1
  else if c < 0xF0 then 2
  else if c < 0xF8 then 3
  else if c < 0xFC then 4
  else 5

/-- Is it a byte of the kind that follows the first two? -/
def isTrail (c : UInt8) : Bool := 0x80 ≤ c && c ≤ 0xBF

/-- The test of the second byte `b` of a sequence that starts with `a`. -/
def isSecond (a b : UInt8) : Bool :=
  b ≤ 0xBF &&
    if a = 0xE0 then 0xA0 ≤ b
    else if a = 0xF0 then 0x90 ≤ b
    else if a = 0xF4 then b ≤ 0x8F
    else 0x80 ≤ b

/-- The test of the first byte. -/
def isFirst (a : UInt8) : Bool := !(0x80 ≤ a && a < 0xC2) && a ≤ 0xF4

/-- `isLegalUTF8` on a sequence. -/
def isLegalUTF8 : List UInt8 → Bool
  | [a] => isFirst a
  | [a, b] => isSecond a b && isFirst a
  | [a, b, c] => isTrail c && (isSecond a b && isFirst a)
  | [a, b, c, d] => isTrail d && (isTrail c && (isSecond a b && isFirst a))
  | _ => false

/-- `bson_check_string`, and `bson_check_field_name` up to the flags that nothing reads: is it valid
UTF-8? -/
def bsonCheckString : List UInt8 → Bool
  | [] => true
  | c :: s =>
    trailingBytesForUTF8 c ≤ s.length &&
      (isLegalUTF8 (c :: s.take (trailingBytesForUTF8 c)) &&
        bsonCheckString (s.drop (trailingBytesForUTF8 c)))
termination_by s => s.length
decreasing_by
  rw [List.length_drop, List.length_cons]
  omega

/-- A sequence is accepted when its first character is and what follows it is. -/
theorem bsonCheckString_cons {c : UInt8} {s t : List UInt8}
    (hlen : s.length = trailingBytesForUTF8 c) (hlegal : isLegalUTF8 (c :: s) = true) :
    bsonCheckString (c :: (s ++ t)) = bsonCheckString t := by
  have hle : trailingBytesForUTF8 c ≤ (s ++ t).length := by
    rw [List.length_append]
    omega
  rw [bsonCheckString, ← hlen, List.take_left', List.drop_left', hlegal, hlen, decide_eq_true hle]
  · rfl
  · rfl
  · rfl

theorem isTrail_ofNat {n : ℕ} (h : 0x80 ≤ n ∧ n ≤ 0xBF) : isTrail (UInt8.ofNat n) = true := by
  have hn : n % 2^8 = n := Nat.mod_eq_of_lt (by omega)
  simp only [isTrail, UInt8.le_iff_toNat_le, UInt8.toNat_ofNat', hn, Bool.and_eq_true,
    decide_eq_true_eq]
  exact h

theorem isFirst_ofNat {n : ℕ} (h : n < 0x80 ∨ 0xC2 ≤ n ∧ n ≤ 0xF4) :
    isFirst (UInt8.ofNat n) = true := by
  have hn : n % 2^8 = n := Nat.mod_eq_of_lt (by omega)
  simp only [isFirst, UInt8.le_iff_toNat_le, UInt8.lt_iff_toNat_lt, UInt8.toNat_ofNat', hn,
    Bool.and_eq_true,
    Bool.not_eq_true', Bool.and_eq_false_iff, decide_eq_true_eq, decide_eq_false_iff_not]
  change (¬0x80 ≤ n ∨ ¬n < 0xC2) ∧ n ≤ 0xF4
  omega

/-- The second byte of a character, after a first byte with which it stands for no overlong form and
no number above the last character. -/
theorem isSecond_ofNat {m n : ℕ} (hm : m < 2^8) (h : 0x80 ≤ n ∧ n ≤ 0xBF)
    (hE0 : m = 0xE0 → 0xA0 ≤ n) (hF0 : m = 0xF0 → 0x90 ≤ n) (hF4 : m = 0xF4 → n ≤ 0x8F) :
    isSecond (UInt8.ofNat m) (UInt8.ofNat n) = true := by
  have hn : n % 2^8 = n := Nat.mod_eq_of_lt (by omega)
  have hm' : m % 2^8 = m := Nat.mod_eq_of_lt hm
  simp only [isSecond, UInt8.le_iff_toNat_le, ← UInt8.toNat_inj, UInt8.toNat_ofNat', hn, hm',
    Bool.and_eq_true,
    decide_eq_true_eq]
  constructor
  · exact h.2
  · change (if m = 0xE0 then decide (0xA0 ≤ n) else if m = 0xF0 then decide (0x90 ≤ n)
      else if m = 0xF4 then decide (n ≤ 0x8F) else decide (0x80 ≤ n)) = true
    split_ifs with h1 h2 h3
    · exact decide_eq_true (hE0 h1)
    · exact decide_eq_true (hF0 h2)
    · exact decide_eq_true (hF4 h3)
    · exact decide_eq_true h.1

/-- The length that the first byte of a character announces. -/
theorem trailingBytesForUTF8_ofNat {n : ℕ} (h : n < 2^8) : trailingBytesForUTF8 (UInt8.ofNat n) =
    if n < 0xC0 then 0 else if n < 0xE0 then 1 else if n < 0xF0 then 2 else if n < 0xF8 then 3
      else if n < 0xFC then 4 else 5 := by
  have hn : n % 2^8 = n := Nat.mod_eq_of_lt h
  simp only [trailingBytesForUTF8, UInt8.lt_iff_toNat_lt, UInt8.toNat_ofNat', hn]
  rfl

/-- Is it UTF-8, the encoding of a list of characters? -/
def IsUTF8 (s : List UInt8) : Prop := ∃ cs : List Char, s = cs.flatMap String.utf8EncodeChar

/-- The bytes of a character are accepted in front of any text. -/
theorem bsonCheckString_encodeChar (c : Char) (t : List UInt8) :
    bsonCheckString (String.utf8EncodeChar c ++ t) = bsonCheckString t := by
  have hmax : c.val.toNat < 0x110000 := by
    rcases c.valid with h | ⟨-, h⟩
    · exact Nat.lt_trans h (by decide)
    · exact h
  unfold String.utf8EncodeChar
  generalize c.val.toNat = v at hmax ⊢
  dsimp only
  -- The number of bytes that a character takes is the one that its first byte announces.
  split_ifs with h1 h2 h3
  · apply bsonCheckString_cons
    · rw [trailingBytesForUTF8_ofNat (by omega), if_pos (by omega)]
      rfl
    · exact isFirst_ofNat (by omega)
  · apply bsonCheckString_cons
    · rw [trailingBytesForUTF8_ofNat (by omega), if_neg (by omega), if_pos (by omega)]
      rfl
    · rw [isLegalUTF8, isSecond_ofNat (by omega) (by omega) (by omega) (by omega) (by omega),
        isFirst_ofNat (by omega)]
      rfl
  · apply bsonCheckString_cons
    · rw [trailingBytesForUTF8_ofNat (by omega), if_neg (by omega), if_neg (by omega),
        if_pos (by omega)]
      rfl
    · rw [isLegalUTF8, isTrail_ofNat (by omega),
        isSecond_ofNat (by omega) (by omega) (by omega) (by omega) (by omega),
        isFirst_ofNat (by omega)]
      rfl
  · apply bsonCheckString_cons
    · rw [trailingBytesForUTF8_ofNat (by omega), if_neg (by omega), if_neg (by omega),
        if_neg (by omega),
        if_pos (by omega)]
      rfl
    · rw [isLegalUTF8, isTrail_ofNat (by omega), isTrail_ofNat (by omega),
        isSecond_ofNat (by omega) (by omega) (by omega) (by omega) (by omega),
        isFirst_ofNat (by omega)]
      rfl

/-- All of UTF-8 is accepted. -/
theorem bsonCheckString_utf8 {s : List UInt8} (h : IsUTF8 s) : bsonCheckString s = true := by
  obtain ⟨cs, rfl⟩ := h
  induction cs with
  | nil => rw [List.flatMap_nil, bsonCheckString]
  | cons c cs ih => rw [List.flatMap_cons, bsonCheckString_encodeChar, ih]

/-- Text in ASCII is accepted. -/
theorem bsonCheckString_ascii {s : List UInt8} (h : ∀ c ∈ s, c < 0x80) :
    bsonCheckString s = true := by
  induction s with
  | nil => rw [bsonCheckString]
  | cons c s ih =>
    have hc : c.toNat < 0x80 := UInt8.lt_iff_toNat_lt.mp (h c List.mem_cons_self)
    have hcast : UInt8.ofNat c.toNat = c := UInt8.ofNat_toNat
    have hlead : trailingBytesForUTF8 c = 0 := by
      rw [← hcast, trailingBytesForUTF8_ofNat (by omega), if_pos (by omega)]
    have hlegal : isLegalUTF8 [c] = true := by
      rw [← hcast]
      exact isFirst_ofNat (by omega)
    calc bsonCheckString (c :: s) = bsonCheckString s :=
      bsonCheckString_cons (s := []) hlead.symm hlegal
      _ = true := ih fun c' hc' => h c' (List.mem_cons_of_mem c hc')

/-! ## The builder -/

/-- An open subobject: the elements before it in the document around it, its name, and whether it is
an array. -/
structure BsonFrame where
  before : BsonDoc
  name : List UInt8
  isArray : Bool

/-- `bson`: the open subobjects, the innermost first, the elements of the innermost document, and
the flag `BSON_NOT_UTF8`. -/
structure Bson where
  frames : List BsonFrame
  doc : BsonDoc
  notUtf8 : Bool

namespace Bson

/-- `bson_init`. -/
def init : Bson := ⟨[], [], false⟩

/-- A name that is passed as a C string. -/
def cname (name : List UInt8) : List UInt8 := name.takeWhile (· ≠ 0)

/-- `bson_append_*`, with whether it succeeds. -/
def append (b : Bson) (name : List UInt8) (v : BsonValue) : Bool × Bson :=
  if bsonCheckString (cname name) then (true, { b with doc := b.doc ++ [(cname name, v)] })
  else (false, { b with notUtf8 := true })

/-- `bson_append_string_n`. -/
def appendStringN (b : Bson) (name s : List UInt8) : Bool × Bson :=
  if 2^31 - 1 < s.length + 1 then (false, { b with notUtf8 := false })
  else if bsonCheckString s then b.append name (.string s)
  else (false, { b with notUtf8 := true })

/-- `bson_append_start_object` and `bson_append_start_array`. -/
def appendStart (b : Bson) (name : List UInt8) (isArray : Bool) : Bson :=
  if bsonCheckString (cname name) then
    { b with frames := ⟨b.doc, cname name, isArray⟩ :: b.frames, doc := [] }
  else { b with notUtf8 := true }

/-- `bson_append_finish_object` and `bson_append_finish_array`. -/
def appendFinish (b : Bson) : Bson :=
  match b.frames with
  | [] => { b with notUtf8 := false }
  | f :: frames =>
    { b with
      frames := frames
      doc := f.before ++ [(f.name, if f.isArray then .array b.doc else .object b.doc)] }

/-- `bson_finish`: the document, unless there is an error. -/
def finish (b : Bson) : Option BsonDoc :=
  if b.notUtf8 then none
  else
    match b.frames with
    | [] => some b.doc
    | _ :: _ => none

/-- A subdocument is opened. -/
def openFrame (b : Bson) (key : List UInt8) (isArray : Bool) : Bson :=
  { b with frames := ⟨b.doc, key, isArray⟩ :: b.frames, doc := [] }

end Bson

end Catse
