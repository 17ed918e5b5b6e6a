import Catse.Common.MsgStruct
import Catse.Lib.Transition
import Catse.Logic.Lz77

/-!
# The reads of `msg_inner_parse.h`

A script reads a message from another server value by value. All the reads begin with the `int` at
`offset_read`. That of `readint` is the value, and those of the others are the size of a block,
which they copy to `bufRead` and go on from there: as a string, as a table in BSON, or as a
compressed table.

The calls of this model come with the copies that they make from the message. The sums and the tests
are those of C: the first test is one of `size_t`, the sum of an offset and a size is an `int` which
wraps, and its test against `buf_len` is one of `unsigned int`. A negative size is refused because
of its sign only, after its sum with the offset has been tested. What `bson2table` makes of a block
is left open.

The offset stays within the message, whatever sizes it holds (`call_spec`), and so do the copies,
over all the calls that a script can make (`reads_in_message`).
-/

namespace Catse

/-- What `msg_inner_parse` keeps between two reads. -/
structure MsgInnerParse where
  msg_read : Option MsgInner
  offset_read : ℤ
  bufRead : List UInt8
  unzipBuf : List UInt8

/-- Where a copy from the message goes to. -/
inductive CopyDest where
  | n
  | bufRead
deriving DecidableEq

/-- A `memcpy` from `msg_read->buf`: the offset that it begins at, and its size as a `size_t`. -/
structure Memcpy where
  dest : CopyDest
  offset : ℤ
  size : ℤ

/-- What a call comes to: what it returns besides `true`, if this is what it returns; what is kept;
and the copies that it makes. -/
structure ReadOutcome (α : Type*) where
  result : Option α
  parse : MsgInnerParse
  copies : List Memcpy

/-- What a script gets from a read. -/
inductive ReadValue (τ : Type*) where
  | int (n : ℤ)
  | bytes (bs : List UInt8)
  | table (t : τ)

/-- The test `size < n` of an `int` `n` against an `unsigned int`. -/
def uintLt (size : ℕ) (n : ℤ) : Bool := decide ((size : ℤ) < n % 2^32)

namespace MsgInnerParse

/-- `sizeof(bufRead)`, which is that of `unzipBuf` too. -/
def bufReadSize : ℕ := 524288

/-- `msg_inner_parse::resetRead`. -/
def resetRead (p : MsgInnerParse) (msgInput : Option MsgInner) : MsgInnerParse :=
  { p with msg_read := msgInput, offset_read := 0 }

/-- The beginning of all the reads: the `int` at `offset_read`. -/
def readHead (p : MsgInnerParse) : ReadOutcome (MsgInner × ℤ) :=
  match p.msg_read with
  | none => ⟨none, p, []⟩
  | some m =>
    if sizeLt m.buf_len (p.offset_read + 4) then ⟨none, p, []⟩
    else
      let n := toInt32 (ofLE ((m.buf.drop p.offset_read.toNat).take 4))
      ⟨some (m, n), { p with offset_read := toInt32 (p.offset_read + 4) },
        [⟨.n, p.offset_read, 4⟩]⟩

/-- The block behind its size, which all the reads but `readint` go on with. -/
def readBlock (p : MsgInnerParse) : ReadOutcome (List UInt8) :=
  match p.readHead with
  | ⟨none, p, copies⟩ => ⟨none, p, copies⟩
  | ⟨some (m, n), p, copies⟩ =>
    if uintLt m.buf_len (toInt32 (p.offset_read + n)) then ⟨none, p, copies⟩
    else if n < 0 || sizeLt bufReadSize n then ⟨none, p, copies⟩
    else
      let block := (m.buf.drop p.offset_read.toNat).take n.toNat
      let bufRead := overwrite (List.replicate bufReadSize 0) 0 block
      ⟨some (bufRead.take n.toNat),
        { p with offset_read := toInt32 (p.offset_read + n), bufRead },
        copies ++ [⟨.bufRead, p.offset_read, n % 2^64⟩]⟩

/-- The block decompressed into `unzipBuf`. -/
def readUnzipped (p : MsgInnerParse) : ReadOutcome (List UInt8) :=
  match p.readBlock with
  | ⟨none, p, copies⟩ => ⟨none, p, copies⟩
  | ⟨some block, p, copies⟩ =>
    match Lz77.unzip bufReadSize block with
    | (false, out) => ⟨none, { p with unzipBuf := overwrite p.unzipBuf 0 out }, copies⟩
    | (true, out) =>
      let unzipBuf := overwrite p.unzipBuf 0 out
      ⟨some unzipBuf, { p with unzipBuf }, copies⟩

variable {τ : Type*} (bson2table : List UInt8 → τ)

/-- `msg_inner_parse::read_int`. -/
def readInt (p : MsgInnerParse) : ReadOutcome (ReadValue τ) :=
  let r := p.readHead
  ⟨r.result.map fun x => .int x.2, r.parse, r.copies⟩

/-- `msg_inner_parse::read_string`. -/
def readString (p : MsgInnerParse) : ReadOutcome (ReadValue τ) :=
  let r := p.readBlock
  ⟨r.result.map .bytes, r.parse, r.copies⟩

/-- `msg_inner_parse::read_table`. -/
def readTable (p : MsgInnerParse) : ReadOutcome (ReadValue τ) :=
  let r := p.readBlock
  ⟨r.result.map fun _ => .table (bson2table r.parse.bufRead), r.parse, r.copies⟩

/-- `msg_inner_parse::read_chunk`. -/
def readChunk (p : MsgInnerParse) : ReadOutcome (ReadValue τ) :=
  let r := p.readBlock
  ⟨r.result.map .bytes, r.parse, r.copies⟩

/-- `msg_inner_parse::read_binary`. -/
def readBinary (p : MsgInnerParse) : ReadOutcome (ReadValue τ) :=
  let r := p.readUnzipped
  ⟨r.result.map fun unzipBuf => .table (bson2table unzipBuf), r.parse, r.copies⟩

/-- `msg_inner_parse::read_zip`. -/
def readZip (p : MsgInnerParse) : ReadOutcome (ReadValue τ) :=
  let r := p.readUnzipped
  ⟨r.result.map fun unzipBuf => .table (bson2table unzipBuf), r.parse, r.copies⟩

end MsgInnerParse

/-- The calls of a script. -/
inductive ReadCall where
  | readint
  | readstring
  | readtable
  | readchunk
  | readbinary
  | readzip
deriving DecidableEq

namespace MsgInnerParse

variable {τ : Type*} (bson2table : List UInt8 → τ)

/-- A call of a script. -/
def call (p : MsgInnerParse) : ReadCall → ReadOutcome (ReadValue τ)
  | .readint => p.readInt
  | .readstring => p.readString
  | .readtable => p.readTable bson2table
  | .readchunk => p.readChunk
  | .readbinary => p.readBinary bson2table
  | .readzip => p.readZip bson2table

/-- A call as a step. -/
def callStep (p : MsgInnerParse) (c : ReadCall) : Option MsgInnerParse :=
  some (p.call bson2table c).parse

/-- The message being read, with the offset in it. -/
structure InMessage (m : MsgInner) (p : MsgInnerParse) : Prop where
  msg_eq : p.msg_read = some m
  offset_nonneg : 0 ≤ p.offset_read
  offset_le : p.offset_read ≤ m.buf_len

end MsgInnerParse

/-- The copy is from the message, and to the `int` of the call or within `bufRead`. -/
structure Memcpy.InBounds (m : MsgInner) (k : Memcpy) : Prop where
  size_nonneg : 0 ≤ k.size
  offset_nonneg : 0 ≤ k.offset
  end_le : k.offset + k.size ≤ m.buf_len
  fits : match k.dest with
    | .n => k.size = 4
    | .bufRead => k.size ≤ MsgInnerParse.bufReadSize

/-- What a read does when it keeps to the message. -/
structure ReadOutcome.Keeps {α : Type*} (m : MsgInner) (r : ReadOutcome α) : Prop where
  parse : r.parse.InMessage m
  copies : ∀ k ∈ r.copies, k.InBounds m

namespace MsgInnerParse

variable {m : MsgInner} {p : MsgInnerParse}

/-- The `int` that the reads begin with is within the message, and so is the offset behind it. -/
theorem InMessage.readHead (h : p.InMessage m) (hlen : m.buf_len ≤ MsgInner.bufSize) :
    p.readHead.Keeps m ∧ ∀ m' n, p.readHead.result = some (m', n) →
      m' = m ∧ -2^31 ≤ n ∧ n < 2^31 := by
  obtain ⟨hmsg, hpos, hle⟩ := h
  have hsize : MsgInner.bufSize = 204800 := rfl
  have htest : sizeLt m.buf_len (p.offset_read + 4) =
      decide ((m.buf_len : ℤ) < p.offset_read + 4) := sizeLt_of_nonneg (by omega) (by omega)
  rw [MsgInnerParse.readHead, hmsg]
  dsimp only
  rw [htest]
  by_cases hshort : (m.buf_len : ℤ) < p.offset_read + 4
  · -- Less than an `int` is left.
    rw [if_pos (decide_eq_true hshort)]
    refine ⟨⟨⟨hmsg, hpos, hle⟩, ?_⟩, ?_⟩
    · intro k hk
      exact absurd hk List.not_mem_nil
    · intro m' n hresult
      cases hresult
  · -- `buf_len` is far below the range of an `int`, so the sum does not wrap.
    have hoffset : toInt32 (p.offset_read + 4) = p.offset_read + 4 := toInt32_of_range (by omega)
    rw [if_neg (by rwa [decide_eq_true_iff]), hoffset]
    refine ⟨⟨⟨rfl, ?_, ?_⟩, ?_⟩, ?_⟩
    · show 0 ≤ p.offset_read + 4
      omega
    · show p.offset_read + 4 ≤ m.buf_len
      omega
    · intro k hk
      rw [List.mem_singleton.mp hk]
      refine ⟨by norm_num, hpos, ?_, rfl⟩
      show p.offset_read + 4 ≤ m.buf_len
      omega
    · intro m' n hresult
      cases hresult
      exact ⟨rfl, toInt32_range _⟩

/-- A size that passes both tests is that of a block within the message. -/
theorem block_fits {offset n : ℤ} {len : ℕ} (hpos : 0 ≤ offset) (hle : offset ≤ len)
    (hlen : len ≤ MsgInner.bufSize) (hn : -2^31 ≤ n ∧ n < 2^31)
    (hsum : uintLt len (toInt32 (offset + n)) = false) (hsign : 0 ≤ n) :
    toInt32 (offset + n) = offset + n ∧ offset + n ≤ len := by
  have hsize : MsgInner.bufSize = 204800 := rfl
  have htest : toInt32 (offset + n) % 2^32 ≤ len := not_lt.mp (of_decide_eq_false hsum)
  by_cases hwrap : offset + n < 2^31
  · -- Then the test is the one that it looks like.
    have hid : toInt32 (offset + n) = offset + n := toInt32_of_range (by omega)
    rw [hid] at htest ⊢
    exact ⟨rfl, by omega⟩
  · -- A sum that wraps is more than `buf_len` as an `unsigned int`.
    have hmod : toInt32 (offset + n) % 2^32 = (offset + n) % 2^32 := Int.bmod_emod ..
    omega

/-- The block behind its size is within the message, and it fits into `bufRead`. -/
theorem InMessage.readBlock (h : p.InMessage m) (hlen : m.buf_len ≤ MsgInner.bufSize) :
    p.readBlock.Keeps m := by
  obtain ⟨hkeeps, hhead⟩ := h.readHead hlen
  rw [MsgInnerParse.readBlock]
  cases hr : p.readHead with
  | mk result p' copies =>
  rw [hr] at hkeeps hhead
  obtain ⟨⟨hmsg, hpos, hle⟩, hcopies⟩ := hkeeps
  dsimp only at hmsg hpos hle hcopies hhead ⊢
  cases result with
  | none => exact ⟨⟨hmsg, hpos, hle⟩, hcopies⟩
  | some x =>
    obtain ⟨m', n⟩ := x
    obtain ⟨rfl, hn⟩ := hhead m' n rfl
    dsimp only
    by_cases hsum : uintLt m'.buf_len (toInt32 (p'.offset_read + n)) = true
    · rw [if_pos hsum]
      exact ⟨⟨hmsg, hpos, hle⟩, hcopies⟩
    rw [if_neg hsum]
    by_cases hbad : (n < 0 || sizeLt bufReadSize n) = true
    · rw [if_pos hbad]
      exact ⟨⟨hmsg, hpos, hle⟩, hcopies⟩
    rw [if_neg hbad]
    -- A negative size is let through by the sum, but not by its sign.
    have hsign : 0 ≤ n := by
      by_contra hneg
      rw [decide_eq_true (not_le.mp hneg), Bool.true_or] at hbad
      exact hbad rfl
    obtain ⟨hid, hend⟩ := block_fits hpos hle hlen hn (Bool.eq_false_iff.mpr hsum) hsign
    have hsize : MsgInner.bufSize = 204800 := rfl
    have hread : bufReadSize = 524288 := rfl
    -- As a `size_t` the size is what it was as an `int`.
    have hmod : n % 2^64 = n := Int.emod_eq_of_lt hsign (by omega)
    rw [hid, hmod]
    refine ⟨⟨hmsg, ?_, hend⟩, ?_⟩
    · show 0 ≤ p'.offset_read + n
      omega
    · intro k hk
      rcases List.mem_append.mp hk with hk | hk
      · exact hcopies k hk
      · rw [List.mem_singleton.mp hk]
        refine ⟨hsign, hpos, hend, ?_⟩
        show n ≤ bufReadSize
        omega

/-- The decompression makes no copies from the message. -/
theorem InMessage.readUnzipped (h : p.InMessage m) (hlen : m.buf_len ≤ MsgInner.bufSize) :
    p.readUnzipped.Keeps m := by
  have hkeeps := h.readBlock hlen
  rw [MsgInnerParse.readUnzipped]
  cases hr : p.readBlock with
  | mk result p' copies =>
  rw [hr] at hkeeps
  obtain ⟨⟨hmsg, hpos, hle⟩, hcopies⟩ := hkeeps
  cases result with
  | none => exact ⟨⟨hmsg, hpos, hle⟩, hcopies⟩
  | some block =>
    dsimp only
    cases Lz77.unzip bufReadSize block with
    | mk all out =>
    cases all with
    | false => exact ⟨⟨hmsg, hpos, hle⟩, hcopies⟩
    | true => exact ⟨⟨hmsg, hpos, hle⟩, hcopies⟩

variable {τ : Type*} (bson2table : List UInt8 → τ)

/-- A call keeps to the message. -/
theorem call_spec (h : p.InMessage m) (hlen : m.buf_len ≤ MsgInner.bufSize) (c : ReadCall) :
    (p.call bson2table c).Keeps m := by
  have hhead := (h.readHead hlen).1
  have hblock := h.readBlock hlen
  have hunzipped := h.readUnzipped hlen
  cases c with
  | readint => exact ⟨hhead.parse, hhead.copies⟩
  | readstring => exact ⟨hblock.parse, hblock.copies⟩
  | readtable => exact ⟨hblock.parse, hblock.copies⟩
  | readchunk => exact ⟨hblock.parse, hblock.copies⟩
  | readbinary => exact ⟨hunzipped.parse, hunzipped.copies⟩
  | readzip => exact ⟨hunzipped.parse, hunzipped.copies⟩

/-- After any calls the offset is within the message, and a further call copies from the message
only, to the `int` that it begins with or to `bufRead`. -/
theorem reads_in_message {p₀ p : MsgInnerParse} (hlen : m.buf_len ≤ MsgInner.bufSize)
    (run : Reach (callStep bson2table) (p₀.resetRead (some m)) anyStep p) :
    (0 ≤ p.offset_read ∧ p.offset_read ≤ m.buf_len) ∧
      ∀ c, ∀ k ∈ (p.call bson2table c).copies, k.InBounds m := by
  have hmessage : p.InMessage m := by
    -- The message is the invariant: every call keeps the offset within it.
    refine run.invariant ⟨rfl, le_rfl, Int.natCast_nonneg _⟩ ?_
    intro p c p' _ hp _ hstep
    cases hstep
    exact (call_spec bson2table hp hlen c).parse
  exact ⟨⟨hmessage.offset_nonneg, hmessage.offset_le⟩, fun c =>
    (call_spec bson2table hmessage hlen c).copies⟩

/-- A message of a number and a block of the largest size that an `int` is, which makes the sum with
the offset wrap. -/
theorem reads_in_message_wrapped :
    let m : MsgInner := ⟨[7, 0, 0, 0, 255, 255, 255, 127, 97, 97], 10, 1⟩
    let p : MsgInnerParse := ⟨none, 0, [], []⟩
    let p' := ((p.resetRead (some m)).call (fun bs => bs) .readint).parse
    (0 ≤ p'.offset_read ∧ p'.offset_read ≤ m.buf_len) ∧
      ∀ c, ∀ k ∈ (p'.call (fun bs => bs) c).copies, k.InBounds m := by
  intro m p p'
  have run : Reach (callStep fun bs => bs) (p.resetRead (some m)) anyStep p' :=
    Reach.start.next (a := ReadCall.readint) trivial rfl
  exact reads_in_message (fun bs => bs) (by decide) run

end MsgInnerParse

end Catse
