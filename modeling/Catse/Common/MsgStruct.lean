import Catse.Lib.Double

/-!
# The messages of `msg_struct.h`

`MsgRecv` is a packet from a client: the bytes `buf[0, 512)` with the read cursor `front` and the
end `back`. A read that finds too few bytes sets `back` to `-1` and returns zero, and the code goes
on. `MsgRecv.Holds m bs` says that `bs` are the bytes between the cursor and the end.

`MsgSend` is a message to clients: the bytes `buf[0, 16384)`, of which `buf[0, buf_len)` are
written. A write that does not fit is skipped, since the `assert` that reports it is compiled out of
the release build. `MsgSend.Wrote m bs` says that `bs` are the bytes written so far.

`MsgInner` is a message between two servers: the bytes `buf[0, buf_len)` of `buf[0, 204800)`, in the
byte order of the machine. Its writes say whether they fit.

The members of each family of accessors differ in the width of the field alone, so each is
`readBytes` or `writeBytes` at its own width. Loading a field and passing it through `ntohs`,
`ntohl` or `ntohll` reads its bytes in network order, which is `ofBE`.
-/

namespace Catse

/-- `msg_recv`. -/
structure MsgRecv where
  buf : List UInt8
  back : ℤ
  front : ℤ
  id : ℤ
  fd : ℤ
  step : ℕ
  deriving DecidableEq

namespace MsgRecv

/-- `sizeof(msg_recv::buf)`. -/
def bufSize : ℕ := 512

/-- `msg_recv::has_read_all`. -/
def hasReadAll (m : MsgRecv) : Bool := m.back == m.front

/-- Are there too few bytes left for a read of `k`? -/
def short (m : MsgRecv) (k : ℤ) : Bool := m.back < m.front + k

/-- A read of `k` bytes at the cursor. -/
def readBytes (m : MsgRecv) (k : ℤ) : Option (List UInt8) × MsgRecv :=
  if m.short k then (none, { m with back := -1 })
  else (some ((m.buf.drop m.front.toNat).take k.toNat), { m with front := toShort (m.front + k) })

/-- `msg_recv::read_byte`. -/
def readByte (m : MsgRecv) : ℤ × MsgRecv :=
  ((m.readBytes 1).1.elim 0 fun bs => toChar (ofBE bs), (m.readBytes 1).2)

/-- `msg_recv::read_short`. -/
def readShort (m : MsgRecv) : ℤ × MsgRecv :=
  ((m.readBytes 2).1.elim 0 fun bs => toShort (ofBE bs), (m.readBytes 2).2)

/-- `msg_recv::read_int`. -/
def readInt (m : MsgRecv) : ℤ × MsgRecv :=
  ((m.readBytes 4).1.elim 0 fun bs => toInt32 (ofBE bs), (m.readBytes 4).2)

/-- `msg_recv::read_double`. -/
def readDouble (m : MsgRecv) : Double × MsgRecv :=
  ((m.readBytes 8).1.elim 0 fun bs => BitVec.ofNat 64 (ofBE bs), (m.readBytes 8).2)

/-- `msg_recv::read_string`, with the bytes that it copies to `str`, or `none` when it copies
nothing. -/
def readString (m : MsgRecv) (len : ℤ) : Option (List UInt8) × MsgRecv :=
  if len < 0 then (none, { m with back := -1 }) else m.readBytes len

/-- `msg_recv::write_int`. -/
def writeInt (m : MsgRecv) (n : ℤ) : MsgRecv :=
  if sizeLt bufSize (m.back + 4) then m
  else { m with buf := overwrite m.buf m.back.toNat (beInt 4 n), back := toShort (m.back + 4) }

/-- The bytes between the cursor and the end are `bs`. -/
structure Holds (m : MsgRecv) (bs : List UInt8) : Prop where
  front_nonneg : 0 ≤ m.front
  back_eq : m.back = m.front + bs.length
  back_le : m.back ≤ bufSize
  bytes : (m.buf.drop m.front.toNat).take bs.length = bs

/-- A new packet: the cursor at `0` and the end after its last byte. -/
theorem holds_new {m : MsgRecv} {bs : List UInt8} (hf : m.front = 0) (hb : m.back = bs.length)
    (hle : bs.length ≤ bufSize) (hbuf : m.buf.take bs.length = bs) : m.Holds bs where
  front_nonneg := hf.ge
  back_eq := by rw [hf, hb, zero_add]
  back_le := by rw [hb]; exact_mod_cast hle
  bytes := by rw [hf]; exact hbuf

/-- The same of a buffer of any size that the cursor can count. -/
structure Carries (m : MsgRecv) (bs : List UInt8) : Prop where
  front_nonneg : 0 ≤ m.front
  back_eq : m.back = m.front + bs.length
  back_lt : m.back < 2^15
  bytes : (m.buf.drop m.front.toNat).take bs.length = bs

/-- A new packet in a buffer of any size. -/
theorem carries_new {m : MsgRecv} {bs : List UInt8} (hf : m.front = 0) (hb : m.back = bs.length)
    (hlt : bs.length < 2^15) (hbuf : m.buf.take bs.length = bs) : m.Carries bs where
  front_nonneg := hf.ge
  back_eq := by rw [hf, hb, zero_add]
  back_lt := by rw [hb]; exact_mod_cast hlt
  bytes := by rw [hf]; exact hbuf

theorem Holds.carries {m : MsgRecv} {bs : List UInt8} (h : m.Holds bs) : m.Carries bs where
  front_nonneg := h.front_nonneg
  back_eq := h.back_eq
  back_lt := h.back_le.trans_lt (by norm_num [bufSize])
  bytes := h.bytes

/-- A read of bytes that are there returns them and moves the cursor past them. -/
theorem Carries.readBytes {m : MsgRecv} {a b : List UInt8} (h : m.Carries (a ++ b)) {k : ℤ}
    (hk : k = a.length) :
    m.short k = false ∧ ∃ m', m.readBytes k = (some a, m') ∧ m'.Carries b ∧
      m' = { m with front := m.front + k } := by
  obtain ⟨hf, hb, hlt, hbytes⟩ := h
  rw [List.length_append] at hb hbytes
  push_cast at hb
  have hshort : m.short k = false := decide_eq_false (by omega)
  have hfront : toShort (m.front + k) = m.front + k := toShort_of_range (by omega)
  refine ⟨hshort, { m with front := m.front + k }, ?_, ⟨?_, ?_, hlt, ?_⟩, rfl⟩
  · unfold MsgRecv.readBytes
    rw [hshort, if_neg (by simp), hfront]
    have ha : (m.buf.drop m.front.toNat).take k.toNat = a := by
      have := congrArg (List.take a.length) hbytes
      rw [List.take_take, min_eq_left (by omega), List.take_left' rfl] at this
      rw [hk, Int.toNat_natCast, this]
    rw [ha]
  · show 0 ≤ m.front + k
    omega
  · show m.back = m.front + k + b.length
    omega
  · show (m.buf.drop (m.front + k).toNat).take b.length = b
    have := congrArg (List.drop a.length) hbytes
    rw [List.drop_take, List.drop_drop, List.drop_left' rfl, Nat.add_sub_cancel_left] at this
    rw [show (m.front + k).toNat = m.front.toNat + a.length by omega, this]

theorem Holds.readBytes {m : MsgRecv} {a b : List UInt8} (h : m.Holds (a ++ b)) {k : ℤ}
    (hk : k = a.length) :
    m.short k = false ∧ ∃ m', m.readBytes k = (some a, m') ∧ m'.Holds b ∧
      m' = { m with front := m.front + k } := by
  obtain ⟨hshort, m', hread, hm', rfl⟩ := h.carries.readBytes hk
  -- The end stays where it is.
  exact ⟨hshort, _, hread, ⟨hm'.front_nonneg, hm'.back_eq, h.back_le, hm'.bytes⟩, rfl⟩

/-- A read past the end sets `back` to `-1`. -/
theorem Holds.readBytes_short {m : MsgRecv} {bs : List UInt8} (h : m.Holds bs) {k : ℤ}
    (hk : bs.length < k) :
    m.short k = true ∧ m.readBytes k = (none, { m with back := -1 }) := by
  have hshort : m.short k = true := decide_eq_true (by have := h.back_eq; omega)
  refine ⟨hshort, ?_⟩
  unfold MsgRecv.readBytes
  rw [hshort, if_pos rfl]

/-- A read finds its bytes, or there are too few of them. -/
theorem Holds.readBytes_cases {m : MsgRecv} {bs : List UInt8} (h : m.Holds bs) (k : ℕ) :
    (k ≤ bs.length ∧
      ∃ m', m.readBytes k = (some (bs.take k), m') ∧ m'.Holds (bs.drop k)) ∨
    (bs.length < k ∧ ∃ m', m.readBytes k = (none, m') ∧ 0 ≤ m'.front ∧ m'.back = -1) := by
  rcases Nat.lt_or_ge bs.length k with hlt | hle
  · right
    obtain ⟨-, hread⟩ := h.readBytes_short (k := k) (by exact_mod_cast hlt)
    exact ⟨hlt, _, hread, h.front_nonneg, rfl⟩
  · left
    have hsplit : m.Holds (bs.take k ++ bs.drop k) := by rwa [List.take_append_drop]
    have hlen : (k : ℤ) = (bs.take k).length := by
      rw [List.length_take, min_eq_left hle]
    obtain ⟨-, m', hread, hm', -⟩ := hsplit.readBytes hlen
    exact ⟨hle, m', hread, hm'⟩

end MsgRecv

/-- `msg_send`. -/
structure MsgSend where
  buf : List UInt8
  buf_len : ℤ
  id : ℤ
  fds : List ℤ
  fds_len : ℤ
  deriving DecidableEq

namespace MsgSend

/-- `sizeof(msg_send::buf)`. -/
def bufSize : ℕ := 16384

/-- The number of entries of `msg_send::fds`. -/
def fdsSize : ℕ := 2048

/-- `msg_send::push_fd`: a full array takes no more. -/
def pushFd (m : MsgSend) (fd : ℤ) : MsgSend :=
  if sizeLe fdsSize m.fds_len then m
  else { m with fds := m.fds.set m.fds_len.toNat (toShort fd), fds_len := toShort (m.fds_len + 1) }

/-- A write of the bytes `bs`, `k` of them, after those already written. -/
def writeBytes (m : MsgSend) (bs : List UInt8) (k : ℤ) : MsgSend :=
  if sizeLt bufSize (toInt32 (m.buf_len + k)) then m
  else { m with buf := overwrite m.buf m.buf_len.toNat bs, buf_len := toShort (m.buf_len + k) }

/-- `msg_send::write_byte`. -/
def writeByte (m : MsgSend) (n : ℤ) : MsgSend := m.writeBytes (beInt 1 n) 1

/-- `msg_send::write_short`. -/
def writeShort (m : MsgSend) (n : ℤ) : MsgSend := m.writeBytes (beInt 2 n) 2

/-- `msg_send::write_int`. -/
def writeInt (m : MsgSend) (n : ℤ) : MsgSend := m.writeBytes (beInt 4 n) 4

/-- `msg_send::write_double`. -/
def writeDouble (m : MsgSend) (d : Double) : MsgSend := m.writeBytes (beBytes 8 d.toNat) 8

/-- `msg_send::write_string`. -/
def writeString (m : MsgSend) (str : List UInt8) (len : ℤ) : MsgSend :=
  m.writeBytes (str.take len.toNat) len

/-- The bytes written so far are `bs`. -/
structure Wrote (m : MsgSend) (bs : List UInt8) : Prop where
  buf_len_eq : m.buf_len = bs.length
  length_buf : m.buf.length = bufSize
  le : bs.length ≤ bufSize
  bytes : m.buf.take bs.length = bs

/-- A message of which nothing is written yet. -/
theorem wrote_nil {m : MsgSend} (hl : m.buf_len = 0) (hbuf : m.buf.length = bufSize) :
    m.Wrote [] where
  buf_len_eq := hl
  length_buf := hbuf
  le := Nat.zero_le _
  bytes := rfl

/-- A write that fits appends its bytes. -/
theorem Wrote.writeBytes {m : MsgSend} {w a : List UInt8} (h : m.Wrote w) {k : ℤ}
    (hk : k = a.length) (hfit : w.length + a.length ≤ bufSize) :
    (m.writeBytes a k).Wrote (w ++ a) := by
  obtain ⟨hl, hbuf, hle, hbytes⟩ := h
  have hbufSize : bufSize = 16384 := rfl
  have hlt : sizeLt bufSize (toInt32 (m.buf_len + k)) = false := by
    rw [sizeLt_toInt32 (by omega) (by omega) (by omega)]
    exact decide_eq_false (by omega)
  have hoff : m.buf_len.toNat = w.length := by omega
  have hroom : w.length + a.length ≤ m.buf.length := by omega
  unfold MsgSend.writeBytes
  rw [hlt, if_neg (by simp), hoff, toShort_of_range (by omega)]
  refine ⟨?_, ?_, ?_, ?_⟩
  · show m.buf_len + k = ((w ++ a).length : ℤ)
    rw [List.length_append]
    push_cast
    omega
  · show (overwrite m.buf w.length a).length = bufSize
    rw [length_overwrite hroom, hbuf]
  · rw [List.length_append]
    exact hfit
  · show (overwrite m.buf w.length a).take (w ++ a).length = w ++ a
    rw [List.length_append, take_overwrite hroom, hbytes]

/-- A write that does not fit is skipped. -/
theorem Wrote.writeBytes_skip {m : MsgSend} {w a : List UInt8} (h : m.Wrote w) {k : ℤ}
    (hk : k = a.length) (ha : a.length < 2^31) (hfull : bufSize < w.length + a.length) :
    m.writeBytes a k = m := by
  have hle := h.le
  have hl := h.buf_len_eq
  have hbufSize : bufSize = 16384 := rfl
  have hlt : sizeLt bufSize (toInt32 (m.buf_len + k)) = true := by
    rw [sizeLt_toInt32 (by omega) (by omega) (by omega)]
    exact decide_eq_true (by omega)
  unfold MsgSend.writeBytes
  rw [hlt, if_pos rfl]

end MsgSend

/-- `msg_inner`. -/
structure MsgInner where
  buf : List UInt8
  buf_len : ℕ
  fd : ℕ
  deriving DecidableEq

namespace MsgInner

/-- `sizeof(msg_inner::buf)`. -/
def bufSize : ℕ := 204800

/-- `msg_inner::write_string` of the bytes `str`. The length is checked as an unsigned int. -/
def writeString (m : MsgInner) (str : List UInt8) : Bool × MsgInner :=
  if bufSize < (m.buf_len + str.length) % 2^32 then (false, m)
  else
    (true, { m with
      buf := overwrite m.buf m.buf_len str
      buf_len := (m.buf_len + str.length) % 2^32 })

/-- `msg_inner::write_int`. The length is checked as a `size_t`. -/
def writeInt (m : MsgInner) (d : ℤ) : Bool × MsgInner :=
  if bufSize < m.buf_len + 4 then (false, m)
  else
    (true, { m with
      buf := overwrite m.buf m.buf_len (leBytes 4 (d % 2^32).toNat)
      buf_len := m.buf_len + 4 })

/-- What is written to a socket: `buf_len`, and then that many bytes. -/
def wire (m : MsgInner) : List UInt8 := leBytes 4 m.buf_len ++ m.buf.take m.buf_len

end MsgInner

end Catse
