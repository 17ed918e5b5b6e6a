import Catse.Common.MsgInnerFields
import Catse.Mongo.BsonBytes
import Catse.Mongo.Appends
import Catse.Logic.Zip

/-!
# The writers of `msg_inner_parse.h`

`writestring`, `writetable`, `writechunk`, `writezip` and `writebinary` append a field to the
message that a script is writing: the length of a block, with `write_int`, and then the block, with
`write_string`. Both can find too little room, and the first has been made when the second fails.

The arguments of a call are Lua values, the first one at the bottom of the stack. `tostring` and
`tonumber` are Lua's conversions between numbers and strings, which `luaL_checkstring` and
`luaL_checkint` apply. A pointer stands for the bytes that can be read from it on: a copy of more is
undefined, and so is what follows from the size of a document that has not been finished, which is
whatever was in the memory before.
-/

namespace Catse

/-- `msg_inner::write_string` of `len` bytes of what is behind a pointer. -/
def MsgInner.writeStringN (m : MsgInner) (mem : List UInt8) (len : ℤ) : Option (Bool × MsgInner) :=
  if bufSize < ((m.buf_len + len) % 2^32).toNat then some (false, m)
  else if 0 ≤ len ∧ len ≤ mem.length then some (m.writeString (mem.take len.toNat))
  else none

/-- What a call comes to. -/
inductive WriteOutcome where
  | returned (m : MsgInner)
  | raised (msg_send : Option MsgInner)
  | undefined

/-- The message after a call. -/
def WriteOutcome.msg : WriteOutcome → Option MsgInner
  | .returned m => some m
  | .raised msg_send => msg_send
  | .undefined => none

/-- The calls of a script. -/
inductive WriteCall where
  | writestring
  | writetable
  | writechunk
  | writezip
  | writebinary
deriving DecidableEq

namespace MsgInnerParse

variable (tostring : Double → List UInt8) (tonumber : List UInt8 → Option Double)

/-- `luaL_checkstring`, unless it raises an error. -/
def checkstring : Option LuaTree → Option (List UInt8)
  | some (.string s) => some s
  | some (.number d) => some (tostring d)
  | _ => none

/-- `luaL_checkint`, unless it raises an error. -/
def checkint : Option LuaTree → Option ℤ
  | some (.number d) => some (toInt32 (d.cvttsd2si 64))
  | some (.string s) => (tonumber s).map fun d => toInt32 (d.cvttsd2si 64)
  | _ => none

/-- The end of all the writers: the length and the block. -/
def writeField (m : MsgInner) (len : ℤ) (mem : List UInt8) : WriteOutcome :=
  match m.writeInt len with
  | (false, m) => .raised (some m)
  | (true, m) =>
    match m.writeStringN mem len with
    | some (false, m) => .raised (some m)
    | some (true, m) => .returned m
    | none => .undefined

/-- `bson_init` and `table2bson` of the value on top of the stack. -/
def tableBson (args : List LuaTree) : Except String Bson :=
  match args.getLast? with
  | some (.table t) => LuaMongo.table2bson Bson.init false t
  | _ => .ok Bson.init

/-- `msg_inner_parse::write_string`. -/
def writeString (m : MsgInner) (args : List LuaTree) : WriteOutcome :=
  match checkstring tostring args[0]? with
  | none => .raised (some m)
  | some p => writeField m (toInt32 (Bson.cname p).length) (p ++ [0])

/-- `msg_inner_parse::write_table`. Without room for the size it does not matter what it is. -/
def writeTable (m : MsgInner) (args : List LuaTree) : WriteOutcome :=
  match tableBson args with
  | .error _ => .raised (some m)
  | .ok b =>
    match b.finishBytes with
    | some bytes => writeField m bytes.length bytes
    | none => if (m.writeInt 0).1 then .undefined else .raised (some m)

/-- The size of `zipBuf`. -/
def zipBufSize : ℕ := 524288

/-- The common body of `write_chunk` and `write_zip`, whose `assert` is compiled out. -/
def writeZipped (m : MsgInner) (args : List LuaTree) : WriteOutcome :=
  match tableBson args with
  | .error _ => .raised (some m)
  | .ok b =>
    match b.finishBytes with
    | none => .undefined
    | some bytes =>
      match Lz77.zip zipBufSize bytes with
      | (false, _) => .returned m
      | (true, out) => writeField m out.length out

/-- `msg_inner_parse::write_chunk`. -/
def writeChunk (m : MsgInner) (args : List LuaTree) : WriteOutcome := writeZipped m args

/-- `msg_inner_parse::write_zip`. -/
def writeZip (m : MsgInner) (args : List LuaTree) : WriteOutcome := writeZipped m args

/-- `msg_inner_parse::write_binary`. -/
def writeBinary (m : MsgInner) (args : List LuaTree) : WriteOutcome :=
  match checkstring tostring args[0]? with
  | none => .raised (some m)
  | some p =>
    match checkint tonumber args[1]? with
    | none => .raised (some m)
    | some len => if len = 0 then .returned m else writeField m len (p ++ [0])

/-- `static_write_string` and the others: without a message they raise an error. -/
def writeCall (msg_send : Option MsgInner) (c : WriteCall) (args : List LuaTree) : WriteOutcome :=
  match msg_send with
  | none => .raised none
  | some m =>
    match c with
    | .writestring => writeString tostring m args
    | .writetable => writeTable m args
    | .writechunk => writeChunk m args
    | .writezip => writeZip m args
    | .writebinary => writeBinary tostring tonumber m args

/-! ## Complete fields -/

/-- What the block of a field is to be: the string that is the argument, the bytes of the document,
or what is decompressed to these. -/
def IsBlock (c : WriteCall) (args : List LuaTree) (block : List UInt8) : Prop :=
  match c with
  | .writestring => checkstring tostring args[0]? = some block
  | .writebinary => checkstring tostring args[0]? = some block
  | .writetable => ∃ b, tableBson args = .ok b ∧ b.finishBytes = some block
  | .writechunk | .writezip => ∃ b bytes, tableBson args = .ok b ∧ b.finishBytes = some bytes ∧
    Lz77.unzip bufReadSize block = (true, bytes)

/-- The call has appended one field with its block to the bytes before it, or it has raised an error
and left the length of the message alone. -/
def Complete (c : WriteCall) (args : List LuaTree) (bs : List UInt8) : WriteOutcome → Prop
  | .returned m => ∃ block, IsBlock tostring c args block ∧
    m.Carries (bs ++ (InnerField.block block).bytes)
  | .raised msg_send => ∀ m, msg_send = some m → m.buf_len = bs.length
  | .undefined => False

/-- When a call is complete. -/
def WritesInFull (m : MsgInner) (c : WriteCall) (args : List LuaTree) : Prop :=
  match c with
  | .writestring => ∀ p, checkstring tostring args[0]? = some p →
    MsgInner.bufSize < m.buf_len + 4 ∨ 0 ∉ p ∧ m.buf_len + 4 + p.length ≤ MsgInner.bufSize
  | .writebinary => ∀ p len, checkstring tostring args[0]? = some p →
    checkint tonumber args[1]? = some len → len ≠ 0 ∧
      (MsgInner.bufSize < m.buf_len + 4 ∨
        len = p.length ∧ m.buf_len + 4 + p.length ≤ MsgInner.bufSize)
  | .writetable => ∀ b, tableBson args = .ok b → MsgInner.bufSize < m.buf_len + 4 ∨
    ∃ bytes, b.finishBytes = some bytes ∧ m.buf_len + 4 + bytes.length ≤ MsgInner.bufSize
  | .writechunk | .writezip => ∀ b, tableBson args = .ok b →
    ∃ bytes out, b.finishBytes = some bytes ∧ Lz77.zip zipBufSize bytes = (true, out) ∧
      (MsgInner.bufSize < m.buf_len + 4 ∨
        bytes.length ≤ bufReadSize ∧ m.buf_len + 4 + out.length ≤ MsgInner.bufSize)

/-! ## One field -/

variable {tostring tonumber} {m : MsgInner} {bs : List UInt8}

/-- What the two writes of a field come to. -/
theorem writeField_cases (h : m.Carries bs) {len : ℤ} (hlen : -2^31 ≤ len ∧ len < 2^31)
    (mem : List UInt8) :
    (MsgInner.bufSize < bs.length + 4 ∧ writeField m len mem = .raised (some m)) ∨
    (bs.length + 4 ≤ MsgInner.bufSize ∧
      ((∃ m', writeField m len mem = .raised (some m') ∧
          m'.Carries (bs ++ leBytes 4 (len % 2^32).toNat) ∧
          MsgInner.bufSize < ((bs.length + 4 + len) % 2^32).toNat) ∨
        (writeField m len mem = .undefined ∧ ¬(0 ≤ len ∧ len ≤ mem.length)) ∨
        ∃ m', writeField m len mem = .returned m' ∧ (0 ≤ len ∧ len ≤ mem.length) ∧
          m'.Carries (bs ++ leBytes 4 (len % 2^32).toNat ++ mem.take len.toNat))) := by
  rw [writeField]
  -- First the length, which needs four bytes, then the bytes, with a check that wraps.
  rcases h.writeInt len with ⟨hint, hfull⟩ | ⟨hroom, hint, hcarries⟩
  · left
    rw [hint]
    exact ⟨hfull, rfl⟩
  · right
    refine ⟨hroom, ?_⟩
    cases hm : m.writeInt len with
    | mk ok m₁ =>
    rw [hm] at hint hcarries
    obtain rfl : ok = true := hint
    have hbuf_len := hcarries.buf_len_eq
    rw [List.length_append, length_leBytes] at hbuf_len
    dsimp only at hbuf_len ⊢
    rw [MsgInner.writeStringN, hbuf_len]
    push_cast
    split_ifs with hfull hmem
    · exact .inl ⟨m₁, rfl, hcarries, hfull⟩
    · right
      right
      have hsize : MsgInner.bufSize = 204800 := rfl
      have htake : (mem.take len.toNat).length = len.toNat := by
        rw [List.length_take]
        omega
      -- The check has been passed, so the second write is not refused.
      rcases hcarries.writeString (a := mem.take len.toNat) (by omega) with
        ⟨-, hfull'⟩ | ⟨-, hok, hcarries'⟩
      · rw [List.length_append, length_leBytes, htake] at hfull'
        omega
      · cases hm' : m₁.writeString (mem.take len.toNat) with
        | mk ok' m₂ =>
        rw [hm'] at hok hcarries'
        obtain rfl : ok' = true := hok
        exact ⟨m₂, rfl, hmem, hcarries'⟩
    · exact .inr (.inl ⟨rfl, hmem⟩)

/-- The bytes that a message carries are determined by it. -/
theorem carries_unique {as : List UInt8} (h : m.Carries bs) (h' : m.Carries as) : bs = as := by
  rw [← h.bytes, ← h'.bytes, ← h.buf_len_eq, ← h'.buf_len_eq]

/-- A message with four bytes more is longer. -/
theorem not_carries_length {n : ℕ} (h : m.Carries (bs ++ leBytes 4 n)) :
    m.buf_len ≠ bs.length := by
  have hlength := h.buf_len_eq
  rw [List.length_append, length_leBytes] at hlength
  omega

/-- A message that has not changed has no field more. -/
theorem not_carries_field {block : List UInt8} (h : m.Carries bs) :
    ¬m.Carries (bs ++ (InnerField.block block).bytes) := by
  intro h'
  have hlength := congrArg List.length (carries_unique h h')
  simp only [InnerField.bytes, List.length_append, length_leBytes] at hlength
  omega

/-- The last field of a message has one block only. -/
theorem carries_field_unique {block block' : List UInt8}
    (h : m.Carries (bs ++ (InnerField.block block).bytes))
    (h' : m.Carries (bs ++ (InnerField.block block').bytes)) : block = block' := by
  have hsame := List.append_cancel_left (carries_unique h h')
  rw [InnerField.bytes, InnerField.bytes] at hsame
  exact (List.append_inj hsame (by rw [length_leBytes, length_leBytes])).2

/-- An error that is raised before anything is written leaves the message alone. -/
theorem complete_raised (h : m.Carries bs) (c : WriteCall) (args : List LuaTree) :
    Complete tostring c args bs (.raised (some m)) := by
  intro m' hm'
  rw [← Option.some.inj hm', h.buf_len_eq]

/-- A call that ends in a field is complete if there is room for no length, or for the length and
the bytes, and these are what the block is to be. -/
theorem complete_writeField_iff (h : m.Carries bs) (c : WriteCall) (args : List LuaTree) {len : ℤ}
    (hlen : -2^31 ≤ len ∧ len < 2^31) (mem : List UInt8) :
    Complete tostring c args bs (writeField m len mem) ↔ MsgInner.bufSize < m.buf_len + 4 ∨
      ((0 ≤ len ∧ len ≤ mem.length) ∧ m.buf_len + 4 + len ≤ MsgInner.bufSize) ∧
        IsBlock tostring c args (mem.take len.toNat) := by
  have hsize : MsgInner.bufSize = 204800 := rfl
  rw [h.buf_len_eq]
  rcases writeField_cases h hlen mem with ⟨hfull, heq⟩ | ⟨hroom, hcases⟩
  · rw [heq]
    exact iff_of_true (complete_raised h c args) (.inl hfull)
  rw [or_iff_right (by omega)]
  rcases hcases with ⟨m', heq, hcarries, hfull⟩ | ⟨heq, hout⟩ | ⟨m', heq, hin, hcarries⟩
  · rw [heq]
    refine iff_of_false (fun hsame => not_carries_length hcarries (hsame m' rfl)) ?_
    rintro ⟨⟨hin, hfits⟩, -⟩
    omega
  · rw [heq]
    exact iff_of_false (fun hfalse => hfalse) fun hin => hout hin.1.1
  · have htake : (mem.take len.toNat).length = (len % 2^32).toNat := by
      rw [List.length_take]
      omega
    rw [← htake, List.append_assoc] at hcarries
    have hfits := hcarries.length_le
    simp only [List.length_append, length_leBytes, htake] at hfits
    rw [heq, and_iff_right ⟨hin, by omega⟩]
    constructor
    · rintro ⟨block, hblock, hcarries'⟩
      rwa [carries_field_unique hcarries hcarries']
    · intro hblock
      exact ⟨_, hblock, hcarries⟩

/-! ## The five calls -/

theorem checkint_range {v : Option LuaTree} {len : ℤ} (h : checkint tonumber v = some len) :
    -2^31 ≤ len ∧ len < 2^31 := by
  cases v with
  | none => cases h
  | some v =>
  cases v with
  | number d =>
    rw [← Option.some.inj h]
    exact toInt32_range _
  | string s =>
    obtain ⟨d, -, rfl⟩ := Option.map_eq_some_iff.mp h
    exact toInt32_range _
  | boolean x => cases h
  | table t => cases h
  | other type => cases h

theorem length_cname_eq_iff (p : List UInt8) : (Bson.cname p).length = p.length ↔ 0 ∉ p := by
  constructor
  · intro hlen h0
    have heq : Bson.cname p = p := (List.takeWhile_sublist _).eq_of_length hlen
    rw [← heq] at h0
    have hne := List.mem_takeWhile_imp (p := fun c => decide (c ≠ 0)) h0
    exact absurd hne (by decide)
  · intro h0
    rw [LuaMongo.cname_eq h0]

/-- A field with bytes of a string: they are all of it if their number is its length. -/
theorem complete_stringField_iff (h : m.Carries bs) {c : WriteCall} {args : List LuaTree}
    {p : List UInt8} (hblock : ∀ block, IsBlock tostring c args block ↔ p = block) {len : ℤ}
    (hlen : -2^31 ≤ len ∧ len < 2^31) :
    Complete tostring c args bs (writeField m len (p ++ [0])) ↔
      MsgInner.bufSize < m.buf_len + 4 ∨
        len = p.length ∧ m.buf_len + 4 + p.length ≤ MsgInner.bufSize := by
  rw [complete_writeField_iff h c args hlen, hblock]
  apply or_congr_right
  constructor
  · rintro ⟨⟨hin, hfits⟩, htake⟩
    have hlength := congrArg List.length htake
    rw [List.length_take] at hlength
    omega
  · rintro ⟨rfl, hfits⟩
    rw [Int.toNat_natCast, List.take_left' rfl, List.length_append]
    exact ⟨by omega, rfl⟩

/-- A string that is written up to its first NUL. -/
theorem writeString_complete_iff (h : m.Carries bs) (args : List LuaTree) :
    Complete tostring .writestring args bs (writeString tostring m args) ↔
      WritesInFull tostring tonumber m .writestring args := by
  rw [writeString, WritesInFull]
  cases hp : checkstring tostring args[0]? with
  | none => exact iff_of_true (complete_raised h _ _) fun p hp => by cases hp
  | some p =>
    have hle : (Bson.cname p).length ≤ p.length := (List.takeWhile_sublist _).length_le
    have hblock : ∀ block, IsBlock tostring .writestring args block ↔ p = block := by
      intro block
      rw [IsBlock, hp, Option.some_inj]
    have hsize : MsgInner.bufSize = 204800 := rfl
    simp only [Option.some_inj, forall_eq']
    rw [complete_stringField_iff h hblock (toInt32_range _)]
    apply or_congr_right
    apply and_congr_left
    intro hfits
    rw [toInt32_of_range (by omega), Nat.cast_inj, length_cname_eq_iff]

/-- A string of the length that the script passes with it. -/
theorem writeBinary_complete_iff (h : m.Carries bs) (args : List LuaTree) :
    Complete tostring .writebinary args bs (writeBinary tostring tonumber m args) ↔
      WritesInFull tostring tonumber m .writebinary args := by
  rw [writeBinary, WritesInFull]
  cases hp : checkstring tostring args[0]? with
  | none => exact iff_of_true (complete_raised h _ _) fun p len hp => by cases hp
  | some p =>
  cases hlen : checkint tonumber args[1]? with
  | none => exact iff_of_true (complete_raised h _ _) fun p len hp hlen => by cases hlen
  | some len =>
    have hblock : ∀ block, IsBlock tostring .writebinary args block ↔ p = block := by
      intro block
      rw [IsBlock, hp, Option.some_inj]
    have hfull_iff : (∀ p' len', some p = some p' → some len = some len' → len' ≠ 0 ∧
        (MsgInner.bufSize < m.buf_len + 4 ∨
          len' = p'.length ∧ m.buf_len + 4 + p'.length ≤ MsgInner.bufSize)) ↔
        len ≠ 0 ∧ (MsgInner.bufSize < m.buf_len + 4 ∨
          len = p.length ∧ m.buf_len + 4 + p.length ≤ MsgInner.bufSize) := by
      constructor
      · exact fun hfull => hfull p len rfl rfl
      · rintro hfull p' len' ⟨⟩ ⟨⟩
        exact hfull
    dsimp only
    rw [hfull_iff]
    by_cases hzero : len = 0
    · rw [if_pos hzero]
      refine iff_of_false ?_ fun hfull => hfull.1 hzero
      rintro ⟨block, -, hcarries⟩
      -- Nothing has been appended.
      exact not_carries_field h hcarries
    · rw [if_neg hzero, complete_stringField_iff h hblock (checkint_range hlen),
        and_iff_right hzero]

/-- A table as the bytes of its document. -/
theorem writeTable_complete_iff (h : m.Carries bs) (args : List LuaTree) :
    Complete tostring .writetable args bs (writeTable m args) ↔
      WritesInFull tostring tonumber m .writetable args := by
  rw [writeTable, WritesInFull]
  cases hb : tableBson args with
  | error e => exact iff_of_true (complete_raised h _ _) fun b hb => by cases hb
  | ok b =>
  simp only [Except.ok.injEq, forall_eq']
  cases hbytes : b.finishBytes with
  | some bytes =>
    have hlen := Bson.length_finishBytes hbytes
    have hblock : IsBlock tostring .writetable args bytes := ⟨b, hb, hbytes⟩
    simp only [Option.some_inj, exists_eq_left']
    rw [complete_writeField_iff h _ _ (by omega), Int.toNat_natCast, List.take_length,
      and_iff_left hblock]
    apply or_congr_right
    omega
  | none =>
    have hfull_iff : (m.writeInt 0).1 = true ↔ ¬MsgInner.bufSize < m.buf_len + 4 := by
      rw [MsgInner.writeInt]
      by_cases hfull : MsgInner.bufSize < m.buf_len + 4
      · rw [if_pos hfull]
        exact iff_of_false Bool.false_ne_true (not_not.mpr hfull)
      · rw [if_neg hfull]
        exact iff_of_true rfl hfull
    dsimp only
    split_ifs with hok
    · refine iff_of_false (fun hfalse => hfalse) ?_
      rintro (hfull | ⟨bytes, hbytes', -⟩)
      · exact hfull_iff.mp hok hfull
      · cases hbytes'
    · refine iff_of_true (complete_raised h _ _) (.inl ?_)
      rwa [hfull_iff, not_not] at hok

theorem length_zip_le {bytes out : List UInt8} (h : Lz77.zip zipBufSize bytes = (true, out)) :
    out.length ≤ zipBufSize := by
  have hle : (Lz77.put zipBufSize [] (Lz77.zipped bytes)).2.length ≤ zipBufSize :=
    Lz77.length_put_le (Nat.zero_le _)
  rwa [← Lz77.zip_eq_put, h] at hle

/-- A table compressed. -/
theorem writeZipped_complete_iff (h : m.Carries bs) (args : List LuaTree) {c : WriteCall}
    (hc : c = .writechunk ∨ c = .writezip) :
    Complete tostring c args bs (writeZipped m args) ↔
      WritesInFull tostring tonumber m c args := by
  have hfull_iff : WritesInFull tostring tonumber m c args ↔ ∀ b, tableBson args = .ok b →
      ∃ bytes out, b.finishBytes = some bytes ∧ Lz77.zip zipBufSize bytes = (true, out) ∧
        (MsgInner.bufSize < m.buf_len + 4 ∨
          bytes.length ≤ bufReadSize ∧ m.buf_len + 4 + out.length ≤ MsgInner.bufSize) := by
    rcases hc with rfl | rfl <;> rfl
  have hblock_iff : ∀ block, IsBlock tostring c args block ↔ ∃ b bytes, tableBson args = .ok b ∧
      b.finishBytes = some bytes ∧ Lz77.unzip bufReadSize block = (true, bytes) := by
    rcases hc with rfl | rfl <;> exact fun block => Iff.rfl
  rw [writeZipped, hfull_iff]
  cases hb : tableBson args with
  | error e => exact iff_of_true (complete_raised h _ _) fun b hb => by cases hb
  | ok b =>
  simp only [Except.ok.injEq, forall_eq']
  cases hbytes : b.finishBytes with
  | none =>
    refine iff_of_false (fun hfalse => hfalse) ?_
    rintro ⟨bytes, out, hbytes', -⟩
    cases hbytes'
  | some bytes =>
  simp only [Option.some_inj, exists_and_left, exists_eq_left']
  cases hzip : Lz77.zip zipBufSize bytes with
  | mk ok out =>
  cases ok with
  | false =>
    refine iff_of_false ?_ ?_
    · rintro ⟨block, -, hcarries⟩
      -- Nothing has been appended.
      exact not_carries_field h hcarries
    · rintro ⟨out', hzip', -⟩
      cases hzip'
  | true =>
    have hout : out.length ≤ zipBufSize := length_zip_le hzip
    have hzipBuf : zipBufSize = 524288 := rfl
    have hblock : IsBlock tostring c args out ↔ bytes.length ≤ bufReadSize := by
      simp only [hblock_iff, hb, Except.ok.injEq, exists_and_left, exists_eq_left', hbytes,
        Option.some_inj, Lz77.unzip_eq_iff hzip]
    simp only [Prod.mk.injEq, true_and, exists_eq_left']
    rw [complete_writeField_iff h _ _ (by omega), Int.toNat_natCast, List.take_length, hblock,
      and_comm (a := bytes.length ≤ bufReadSize)]
    apply or_congr_right
    apply and_congr_left'
    omega

/-! ## Any call -/

/-- What a field leaves is a message again. -/
theorem carries_writeField (h : m.Carries bs) {len : ℤ} (hlen : -2^31 ≤ len ∧ len < 2^31)
    (mem : List UInt8) : ∀ m', (writeField m len mem).msg = some m' → ∃ bs', m'.Carries bs' := by
  intro m' hm'
  rcases writeField_cases h hlen mem with ⟨-, heq⟩ |
    ⟨-, ⟨m'', heq, hcarries, -⟩ | ⟨heq, -⟩ | ⟨m'', heq, -, hcarries⟩⟩
  · rw [heq] at hm'
    exact ⟨bs, Option.some.inj hm' ▸ h⟩
  · rw [heq] at hm'
    exact ⟨_, Option.some.inj hm' ▸ hcarries⟩
  · rw [heq] at hm'
    cases hm'
  · rw [heq] at hm'
    exact ⟨_, Option.some.inj hm' ▸ hcarries⟩

/-- A call leaves a message as the writers need it, whatever it comes to. -/
theorem carries_writeCall {msg_send : Option MsgInner}
    (h : ∀ m, msg_send = some m → ∃ bs, m.Carries bs) (c : WriteCall) (args : List LuaTree) :
    ∀ m', (writeCall tostring tonumber msg_send c args).msg = some m' → ∃ bs, m'.Carries bs := by
  intro m' hm'
  cases msg_send with
  | none => cases hm'
  | some m =>
  obtain ⟨bs, hbs⟩ := h m rfl
  -- Without a field the message is the one that it was.
  have hsame : ∀ m', some m = some m' → ∃ bs, m'.Carries bs :=
    fun m' hm' => ⟨bs, Option.some.inj hm' ▸ hbs⟩
  -- Two of the writers differ only in what they compress.
  have hzipped : (writeZipped m args).msg = some m' → ∃ bs, m'.Carries bs := by
    intro hm'
    rw [writeZipped] at hm'
    split at hm'
    · exact hsame m' hm'
    · split at hm'
      · cases hm'
      · split at hm'
        · exact hsame m' hm'
        · rename_i b bytes hbytes out hzip
          have hout : out.length ≤ zipBufSize := length_zip_le hzip
          have hzipBuf : zipBufSize = 524288 := rfl
          exact carries_writeField hbs (by omega) out m' hm'
  cases c with
  | writestring =>
    change (writeString tostring m args).msg = some m' at hm'
    rw [writeString] at hm'
    split at hm'
    · exact hsame m' hm'
    · exact carries_writeField hbs (toInt32_range _) _ m' hm'
  | writetable =>
    change (writeTable m args).msg = some m' at hm'
    rw [writeTable] at hm'
    split at hm'
    · exact hsame m' hm'
    · split at hm'
      · rename_i b bytes hbytes
        have hlen := Bson.length_finishBytes hbytes
        exact carries_writeField hbs (by omega) bytes m' hm'
      · split_ifs at hm'
        · cases hm'
        · exact hsame m' hm'
  | writechunk => exact hzipped hm'
  | writezip => exact hzipped hm'
  | writebinary =>
    change (writeBinary tostring tonumber m args).msg = some m' at hm'
    rw [writeBinary] at hm'
    split at hm'
    · exact hsame m' hm'
    · split at hm'
      · exact hsame m' hm'
      · rename_i len hlen
        split_ifs at hm'
        · exact hsame m' hm'
        · exact carries_writeField hbs (checkint_range hlen) _ m' hm'

/-- A call is complete exactly where `WritesInFull` says so, and where it returns with a complete
field, a reader that is at this field gets its block and is at the end of the message. -/
theorem write_complete_iff {msg_send : Option MsgInner} {bs : List UInt8}
    (h : ∀ m, msg_send = some m → m.Carries bs) (c : WriteCall) (args : List LuaTree) :
    (Complete tostring c args bs (writeCall tostring tonumber msg_send c args) ↔
      ∀ m, msg_send = some m → WritesInFull tostring tonumber m c args) ∧
    ∀ m', Complete tostring c args bs (.returned m') → ∀ p : MsgInnerParse,
      p.msg_read = some m' → p.offset_read = bs.length →
      ∃ block, IsBlock tostring c args block ∧ p.readBlock.result = some block ∧
        p.readBlock.parse.offset_read = m'.buf_len := by
  constructor
  · cases msg_send with
    | none => exact iff_of_true (fun m hm => by cases hm) fun m hm => by cases hm
    | some m =>
      have hbs := h m rfl
      have hm : (∀ m', some m = some m' → WritesInFull tostring tonumber m' c args) ↔
          WritesInFull tostring tonumber m c args :=
        ⟨fun hfull => hfull m rfl, fun hfull m' hm' => Option.some.inj hm' ▸ hfull⟩
      rw [hm]
      cases c with
      | writestring => exact writeString_complete_iff hbs args
      | writetable => exact writeTable_complete_iff hbs args
      | writechunk => exact writeZipped_complete_iff hbs args (.inl rfl)
      | writezip => exact writeZipped_complete_iff hbs args (.inr rfl)
      | writebinary => exact writeBinary_complete_iff hbs args
  · rintro m' ⟨block, hblock, hcarries⟩ p hmsg hoffset
    have hahead : Ahead m' p ((InnerField.block block).bytes ++ []) := by
      refine ⟨hmsg, bs, ?_, hoffset⟩
      rwa [List.append_nil]
    obtain ⟨hresult, hend⟩ := hahead.readBlock
    exact ⟨block, hblock, hresult, hend.at_end.1⟩

/-- A message of a number of zeros. -/
theorem carries_zeros {n : ℕ} (h : n ≤ MsgInner.bufSize) :
    MsgInner.Carries ⟨List.replicate MsgInner.bufSize 0, n, 0⟩ (List.replicate n 0) := by
  constructor
  · exact List.length_replicate
  · exact List.length_replicate.symm
  · rw [List.length_replicate, List.take_replicate, min_eq_left h]

/-- A string into an empty message. -/
theorem write_complete_iff_string :
    Complete (fun _ => []) .writestring [.string [97]] []
      (writeCall (fun _ => []) (fun _ => none)
        (some ⟨List.replicate MsgInner.bufSize 0, 0, 0⟩) .writestring [.string [97]]) := by
  have hcarries : ∀ m, some ⟨List.replicate MsgInner.bufSize 0, 0, 0⟩ = some m →
      MsgInner.Carries m [] := by
    intro m hm
    rw [← Option.some.inj hm]
    exact carries_zeros (Nat.zero_le _)
  refine (write_complete_iff hcarries .writestring [.string [97]]).1.mpr ?_
  intro m hm p hp
  obtain rfl := Option.some.inj hp
  rw [← Option.some.inj hm]
  right
  decide

/-- Where there is room for the length only, it has been written when the error is raised. -/
theorem write_halfway :
    ∃ (m : MsgInner) (bs : List UInt8), m.Carries bs ∧ ∀ tostring tonumber,
      ¬Complete tostring .writestring [.string [97]] bs
        (writeCall tostring tonumber (some m) .writestring [.string [97]]) := by
  have hcarries := carries_zeros (n := MsgInner.bufSize - 4) (Nat.sub_le _ _)
  refine ⟨_, _, hcarries, fun tostring tonumber hcomplete => ?_⟩
  have hfull : WritesInFull tostring tonumber _ .writestring [.string [97]] :=
    (writeString_complete_iff hcarries _).mp hcomplete
  have hsize : MsgInner.bufSize = 204800 := rfl
  rcases hfull [97] rfl with hlt | ⟨-, hle⟩
  · dsimp only at hlt
    omega
  · dsimp only [List.length_singleton] at hle
    omega

end MsgInnerParse

end Catse
