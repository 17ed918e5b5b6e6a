import Catse.Common.MsgInnerParse

/-!
# Writing a message to another server and reading it back

A script begins a message with `writebegin` and writes its fields one after the other: an `int` with
`write_int`, and a block of bytes as its length and then the bytes, with `write_int` and
`write_string`. The script at the other end reads them in the same order, an `int` with `readint`
and a block with `readstring` or `readchunk`.

`MsgInner.Carries` says what has been written so far, and `MsgInnerParse.Ahead` what is still to be
read. Each write appends the bytes of its field to the one, and each read takes them from the front
of the other, so that the fields come back, up to the end of the buffer (`fields_round_trip`).
-/

namespace Catse

namespace MsgInner

/-- `bs` are the bytes written so far. -/
structure Carries (m : MsgInner) (bs : List UInt8) : Prop where
  length_buf : m.buf.length = bufSize
  buf_len_eq : m.buf_len = bs.length
  bytes : m.buf.take bs.length = bs

variable {m m' : MsgInner} {bs a : List UInt8}

theorem Carries.length_le (h : m.Carries bs) : bs.length ≤ bufSize := by
  have hlen := congrArg List.length h.bytes
  rw [List.length_take, h.length_buf] at hlen
  omega

/-- Bytes that fit are appended. -/
theorem Carries.append (h : m.Carries bs) (hfit : bs.length + a.length ≤ bufSize) :
    { m with buf := overwrite m.buf m.buf_len a, buf_len := m.buf_len + a.length }.Carries
      (bs ++ a) := by
  have hroom : bs.length + a.length ≤ m.buf.length := by
    rw [h.length_buf]
    exact hfit
  refine ⟨?_, ?_, ?_⟩
  · show (overwrite m.buf m.buf_len a).length = bufSize
    rw [h.buf_len_eq, length_overwrite hroom, h.length_buf]
  · show m.buf_len + a.length = (bs ++ a).length
    rw [h.buf_len_eq, List.length_append]
  · show (overwrite m.buf m.buf_len a).take (bs ++ a).length = bs ++ a
    rw [h.buf_len_eq, List.length_append, take_overwrite hroom, h.bytes]

/-- `write_int` appends four bytes, or there is no room for them. -/
theorem Carries.writeInt (h : m.Carries bs) (d : ℤ) :
    (m.writeInt d = (false, m) ∧ bufSize < bs.length + 4) ∨
      (bs.length + 4 ≤ bufSize ∧ (m.writeInt d).1 = true ∧
        (m.writeInt d).2.Carries (bs ++ leBytes 4 (d % 2^32).toNat)) := by
  unfold MsgInner.writeInt
  rw [h.buf_len_eq]
  by_cases hfull : bufSize < bs.length + 4
  · rw [if_pos hfull]
    exact .inl ⟨rfl, hfull⟩
  · rw [if_neg hfull]
    have happend := h.append (a := leBytes 4 (d % 2^32).toNat)
      (by rw [length_leBytes]; exact not_lt.mp hfull)
    rw [h.buf_len_eq, length_leBytes] at happend
    exact .inr ⟨not_lt.mp hfull, rfl, happend⟩

/-- `write_string` appends the bytes, or there is no room for them. -/
theorem Carries.writeString (h : m.Carries bs) (ha : a.length < 2^31) :
    (m.writeString a = (false, m) ∧ bufSize < bs.length + a.length) ∨
      (bs.length + a.length ≤ bufSize ∧ (m.writeString a).1 = true ∧
        (m.writeString a).2.Carries (bs ++ a)) := by
  have hle := h.length_le
  have hsize : bufSize = 204800 := rfl
  have hmod : (bs.length + a.length) % 2^32 = bs.length + a.length := Nat.mod_eq_of_lt (by omega)
  unfold MsgInner.writeString
  rw [h.buf_len_eq, hmod]
  by_cases hfull : bufSize < bs.length + a.length
  · rw [if_pos hfull]
    exact .inl ⟨rfl, hfull⟩
  · rw [if_neg hfull]
    have happend := h.append (a := a) (not_lt.mp hfull)
    rw [h.buf_len_eq] at happend
    exact .inr ⟨not_lt.mp hfull, rfl, happend⟩

/-- `msg_inner_parse::static_write_begin`, on the message that it has taken. -/
def writeBegin (m : MsgInner) (fd : ℕ) (id : ℤ) : Bool × MsgInner :=
  { m with fd := fd, buf_len := 0 }.writeInt id

end MsgInner

/-- A field: an `int`, or a block of bytes. -/
inductive InnerField where
  | int (n : ℤ)
  | block (bs : List UInt8)

namespace InnerField

/-- The number, or the length of the block, is that of an `int`. -/
def InRange : InnerField → Prop
  | .int n => -2^31 ≤ n ∧ n < 2^31
  | .block bs => bs.length < 2^31

/-- The writes of the field, if they succeed. -/
def write (m : MsgInner) : InnerField → Option MsgInner
  | .int n => if (m.writeInt n).1 then some (m.writeInt n).2 else none
  | .block bs =>
    if (m.writeInt bs.length).1 then
      if ((m.writeInt bs.length).2.writeString bs).1 then
        some ((m.writeInt bs.length).2.writeString bs).2
      else none
    else none

/-- What the field is in the message. -/
def bytes : InnerField → List UInt8
  | .int n => leBytes 4 (n % 2^32).toNat
  | .block bs => leBytes 4 bs.length ++ bs

/-- What a script gets from the field. -/
def value {τ : Type*} : InnerField → ReadValue τ
  | .int n => .int n
  | .block bs => .bytes bs

/-- The reads that are meant for the field. -/
def ReadBy : InnerField → ReadCall → Prop
  | .int _, c => c = .readint
  | .block _, c => c = .readstring ∨ c = .readchunk

/-- The writes of some fields. -/
def writeAll (m : MsgInner) (fs : List InnerField) : Option MsgInner := fs.foldlM write m

variable {m m' : MsgInner} {bs : List UInt8} {f : InnerField} {fs : List InnerField}

/-- A field that is written is appended to what was written before. -/
theorem carries_write (h : m.Carries bs) (hf : f.InRange) (hw : f.write m = some m') :
    m'.Carries (bs ++ f.bytes) := by
  cases f with
  | int n =>
    obtain ⟨hok, hm'⟩ := Option.ite_none_right_eq_some.mp hw
    rw [← Option.some.inj hm']
    rcases h.writeInt n with ⟨heq, -⟩ | ⟨-, -, hcarries⟩
    · rw [heq] at hok
      cases hok
    · exact hcarries
  | block a =>
    obtain ⟨hok, hw⟩ := Option.ite_none_right_eq_some.mp hw
    obtain ⟨hok', hm'⟩ := Option.ite_none_right_eq_some.mp hw
    rw [← Option.some.inj hm']
    have hf : a.length < 2^31 := hf
    have hlen : ((a.length : ℤ) % 2^32).toNat = a.length := by omega
    rcases h.writeInt a.length with ⟨heq, -⟩ | ⟨-, -, hcarries⟩
    · rw [heq] at hok
      cases hok
    rw [hlen] at hcarries
    rcases hcarries.writeString hf with ⟨heq, -⟩ | ⟨-, -, hcarries'⟩
    · rw [heq] at hok'
      cases hok'
    · rw [bytes, ← List.append_assoc]
      exact hcarries'

theorem carries_writeAll (h : m.Carries bs) (hfs : ∀ f ∈ fs, f.InRange)
    (hw : writeAll m fs = some m') : m'.Carries (bs ++ fs.flatMap bytes) := by
  induction fs generalizing m bs with
  | nil =>
    rw [List.flatMap_nil, List.append_nil, ← Option.some.inj hw]
    exact h
  | cons f fs ih =>
    obtain ⟨m₁, hf, hrest⟩ := Option.bind_eq_some_iff.mp ((List.foldlM_cons ..).symm.trans hw)
    have hone := carries_write h (hfs f List.mem_cons_self) hf
    rw [List.flatMap_cons, ← List.append_assoc]
    exact ih hone (fun f hf => hfs f (List.mem_cons_of_mem _ hf)) hrest

end InnerField

namespace MsgInnerParse

variable {m : MsgInner} {p : MsgInnerParse} {bs rest : List UInt8}

/-- The message `m` is being read, and `bs` are the bytes of it that are still to be read. -/
structure Ahead (m : MsgInner) (p : MsgInnerParse) (bs : List UInt8) : Prop where
  msg_eq : p.msg_read = some m
  split : ∃ before, m.Carries (before ++ bs) ∧ p.offset_read = before.length

/-- What is ahead of a read is in the buffer at its offset. -/
theorem Ahead.at_offset (h : Ahead m p (bs ++ rest)) :
    (m.buf.drop p.offset_read.toNat).take bs.length = bs ∧ 0 ≤ p.offset_read ∧
      p.offset_read + bs.length + rest.length = m.buf_len ∧ m.buf_len ≤ MsgInner.bufSize := by
  obtain ⟨before, hcarries, hoffset⟩ := h.split
  have hlen := hcarries.buf_len_eq
  have hle := hcarries.length_le
  rw [List.length_append, List.length_append] at hlen hle
  refine ⟨?_, by omega, by omega, by omega⟩
  have hbytes := congrArg (List.drop before.length) hcarries.bytes
  rw [List.length_append, List.drop_take, Nat.add_sub_cancel_left, List.drop_left' rfl] at hbytes
  rw [hoffset, Int.toNat_natCast]
  have htake := congrArg (List.take bs.length) hbytes
  rw [List.take_take, List.length_append, min_eq_left (by omega), List.take_left' rfl] at htake
  exact htake

/-- The offset moves on. -/
theorem Ahead.advance (h : Ahead m p (bs ++ rest)) {p' : MsgInnerParse}
    (hmsg : p'.msg_read = p.msg_read) (hoffset : p'.offset_read = p.offset_read + bs.length) :
    Ahead m p' rest := by
  obtain ⟨before, hcarries, hbefore⟩ := h.split
  refine ⟨hmsg.trans h.msg_eq, before ++ bs, ?_, ?_⟩
  · rw [List.append_assoc]
    exact hcarries
  · rw [hoffset, hbefore, List.length_append]
    push_cast
    rfl

/-- The `int` that all reads begin with. -/
theorem Ahead.readHead {n : ℤ} (h : Ahead m p (leBytes 4 (n % 2^32).toNat ++ rest))
    (hn : -2^31 ≤ n ∧ n < 2^31) :
    p.readHead.result = some (m, n) ∧ Ahead m p.readHead.parse rest := by
  obtain ⟨hbytes, hpos, hend, hle⟩ := h.at_offset
  rw [length_leBytes] at hbytes hend
  have hsize : MsgInner.bufSize = 204800 := rfl
  have htest : sizeLt m.buf_len (p.offset_read + 4) = false := by
    rw [sizeLt_of_nonneg (by omega) (by omega)]
    exact decide_eq_false (by omega)
  have hread : toInt32 (ofLE (leBytes 4 (n % 2^32).toNat)) = n := by
    have hmod : (ofLE (leBytes 4 (n % 2^32).toNat) : ℤ) = n % 2^32 := by
      rw [ofLE_leBytes]
      omega
    rw [hmod, toInt32_emod, toInt32_of_range hn]
  rw [MsgInnerParse.readHead, h.msg_eq]
  dsimp only
  rw [htest, if_neg Bool.false_ne_true, hbytes, hread]
  refine ⟨rfl, h.advance (by rw [h.msg_eq]) ?_⟩
  show toInt32 (p.offset_read + 4) = _
  rw [length_leBytes]
  exact toInt32_of_range (by omega)

/-- A block. -/
theorem Ahead.readBlock {a : List UInt8} (h : Ahead m p (leBytes 4 a.length ++ a ++ rest)) :
    p.readBlock.result = some a ∧ Ahead m p.readBlock.parse rest := by
  rw [List.append_assoc] at h
  obtain ⟨-, hpos, hend, hle⟩ := h.at_offset
  rw [length_leBytes, List.length_append] at hend
  have hsize : MsgInner.bufSize = 204800 := rfl
  have hread : bufReadSize = 524288 := rfl
  have hlen : ((a.length : ℤ) % 2^32).toNat = a.length := by omega
  rw [← hlen] at h
  -- First the head with the length, then the bytes behind it.
  obtain ⟨hresult, hahead⟩ := h.readHead (n := a.length) (by omega)
  rw [MsgInnerParse.readBlock]
  cases hr : p.readHead with
  | mk result p' copies =>
  rw [hr] at hresult hahead
  dsimp only at hresult hahead ⊢
  subst hresult
  dsimp only
  obtain ⟨hbytes, hpos', hend', -⟩ := hahead.at_offset
  have hsum : toInt32 (p'.offset_read + a.length) = p'.offset_read + a.length :=
    toInt32_of_range (by omega)
  -- Neither of the checks fails.
  have htest : uintLt m.buf_len (toInt32 (p'.offset_read + a.length)) = false := by
    rw [hsum, uintLt, Int.emod_eq_of_lt (by omega) (by omega)]
    exact decide_eq_false (by omega)
  have hfits : (decide ((a.length : ℤ) < 0) || sizeLt bufReadSize a.length) = false := by
    rw [decide_eq_false (by omega), Bool.false_or, sizeLt_of_nonneg (by omega) (by omega)]
    exact decide_eq_false (by omega)
  rw [htest, if_neg Bool.false_ne_true, hfits, if_neg Bool.false_ne_true]
  dsimp only
  rw [Int.toNat_natCast, hbytes, hsum]
  refine ⟨?_, hahead.advance rfl rfl⟩
  congr 1
  have hroom : 0 + a.length ≤ (List.replicate bufReadSize (0 : UInt8)).length := by
    rw [List.length_replicate]
    omega
  have htake := take_overwrite hroom
  rwa [Nat.zero_add, List.take_zero, List.nil_append] at htake

/-- With nothing ahead, the offset is at the end of the message. -/
theorem Ahead.at_end (h : Ahead m p []) :
    p.offset_read = m.buf_len ∧ 0 ≤ p.offset_read ∧ m.buf_len ≤ MsgInner.bufSize := by
  have h' : Ahead m p ([] ++ []) := h
  obtain ⟨-, hpos, hend, hle⟩ := h'.at_offset
  rw [List.length_nil, Nat.cast_zero, add_zero, add_zero] at hend
  exact ⟨hend, hpos, hle⟩

/-- Nothing can be read there. -/
theorem Ahead.readHead_nil (h : Ahead m p []) : p.readHead.result = none := by
  obtain ⟨hend, hpos, hle⟩ := h.at_end
  have hsize : MsgInner.bufSize = 204800 := rfl
  rw [MsgInnerParse.readHead, h.msg_eq]
  dsimp only
  have htest : sizeLt m.buf_len (p.offset_read + 4) = true := by
    rw [sizeLt_of_nonneg (by omega) (by omega)]
    exact decide_eq_true (by omega)
  rw [htest, if_pos rfl]

variable {τ : Type*} (bson2table : List UInt8 → τ)

/-- Every call begins with the same read, and fails if this does. -/
theorem call_result_none (h : p.readHead.result = none) (c : ReadCall) :
    (p.call bson2table c).result = none := by
  have hblock : p.readBlock.result = none := by
    rw [MsgInnerParse.readBlock]
    cases hr : p.readHead with
    | mk result p' copies =>
    rw [hr] at h
    dsimp only at h ⊢
    rw [h]
  have hunzipped : p.readUnzipped.result = none := by
    rw [MsgInnerParse.readUnzipped]
    cases hr : p.readBlock with
    | mk result p' copies =>
    rw [hr] at hblock
    dsimp only at hblock ⊢
    rw [hblock]
  cases c with
  | readint => exact Option.map_eq_none_iff.mpr h
  | readstring => exact Option.map_eq_none_iff.mpr hblock
  | readtable => exact Option.map_eq_none_iff.mpr hblock
  | readchunk => exact Option.map_eq_none_iff.mpr hblock
  | readbinary => exact Option.map_eq_none_iff.mpr hunzipped
  | readzip => exact Option.map_eq_none_iff.mpr hunzipped

/-- The values that some calls return, and what they leave. -/
def calls (p : MsgInnerParse) : List ReadCall → List (Option (ReadValue τ)) × MsgInnerParse
  | [] => ([], p)
  | c :: cs =>
    let r := p.call bson2table c
    (r.result :: (calls r.parse cs).1, (calls r.parse cs).2)

/-- A read that is meant for a field gets it. -/
theorem Ahead.call {f : InnerField} (h : Ahead m p (f.bytes ++ rest)) (hf : f.InRange)
    {c : ReadCall} (hc : f.ReadBy c) :
    (p.call bson2table c).result = some f.value ∧ Ahead m (p.call bson2table c).parse rest := by
  cases f with
  | int n =>
    obtain rfl : c = .readint := hc
    obtain ⟨hresult, hahead⟩ := h.readHead hf
    exact ⟨Option.map_eq_some_iff.mpr ⟨_, hresult, rfl⟩, hahead⟩
  | block a =>
    obtain ⟨hresult, hahead⟩ := h.readBlock
    rcases hc with rfl | rfl
    · exact ⟨Option.map_eq_some_iff.mpr ⟨_, hresult, rfl⟩, hahead⟩
    · exact ⟨Option.map_eq_some_iff.mpr ⟨_, hresult, rfl⟩, hahead⟩

/-- The reads that are meant for some fields get them. -/
theorem Ahead.calls {fs : List InnerField} {cs : List ReadCall}
    (h : Ahead m p (fs.flatMap InnerField.bytes)) (hfs : ∀ f ∈ fs, f.InRange)
    (hcs : List.Forall₂ InnerField.ReadBy fs cs) :
    (p.calls bson2table cs).1 = fs.map (fun f => some f.value) ∧
      Ahead m (p.calls bson2table cs).2 [] := by
  induction hcs generalizing p with
  | nil => exact ⟨rfl, h⟩
  | cons hc _ ih =>
    obtain ⟨hresult, hahead⟩ := Ahead.call bson2table h (hfs _ List.mem_cons_self) hc
    obtain ⟨hvalues, hend⟩ := ih hahead fun f hf => hfs f (List.mem_cons_of_mem _ hf)
    rw [MsgInnerParse.calls]
    dsimp only
    rw [hresult, hvalues]
    exact ⟨rfl, hend⟩

/-- A message that has been begun with an id and written field by field is read back with the same
id and the same fields. Then its end is reached, and any further read fails. -/
theorem fields_round_trip {m m₀ m' : MsgInner} {fd : ℕ} {id : ℤ} {fs : List InnerField}
    {cs : List ReadCall} (hbuf : m.buf.length = MsgInner.bufSize) (hid : -2^31 ≤ id ∧ id < 2^31)
    (hfs : ∀ f ∈ fs, f.InRange) (hbegin : m.writeBegin fd id = (true, m₀))
    (hwrites : InnerField.writeAll m₀ fs = some m')
    (hcs : List.Forall₂ InnerField.ReadBy fs cs) (p : MsgInnerParse) :
    ((p.resetRead (some m')).calls bson2table (.readint :: cs)).1 =
        some (.int id) :: fs.map (fun f => some f.value) ∧
      ((p.resetRead (some m')).calls bson2table (.readint :: cs)).2.offset_read = m'.buf_len ∧
      ∀ c, (((p.resetRead (some m')).calls bson2table (.readint :: cs)).2.call
        bson2table c).result = none := by
  have hempty : MsgInner.Carries { m with fd := fd, buf_len := 0 } [] := ⟨hbuf, rfl, rfl⟩
  -- The id is written as the first field.
  have hwrite :
      InnerField.writeAll { m with fd := fd, buf_len := 0 } (.int id :: fs) = some m' := by
    have hfirst : InnerField.write { m with fd := fd, buf_len := 0 } (.int id) = some m₀ := by
      have hb : MsgInner.writeInt { m with fd := fd, buf_len := 0 } id = (true, m₀) := hbegin
      rw [InnerField.write, hb, if_pos rfl]
    rw [InnerField.writeAll, List.foldlM_cons, hfirst]
    exact hwrites
  have hrange : ∀ f ∈ InnerField.int id :: fs, f.InRange := List.forall_mem_cons.mpr ⟨hid, hfs⟩
  have hcarries := InnerField.carries_writeAll hempty hrange hwrite
  have hahead : Ahead m' (p.resetRead (some m')) ((InnerField.int id :: fs).flatMap
      InnerField.bytes) := ⟨rfl, [], hcarries, rfl⟩
  obtain ⟨hvalues, hend⟩ := hahead.calls bson2table hrange (.cons rfl hcs)
  exact ⟨hvalues, hend.at_end.1, fun c => call_result_none bson2table hend.readHead_nil c⟩

/-- A number and a string. -/
theorem fields_round_trip_two :
    ∃ m₀ m', MsgInner.writeBegin ⟨List.replicate MsgInner.bufSize 0, 0, 0⟩ 5 1 = (true, m₀) ∧
      InnerField.writeAll m₀ [.int (-7), .block [97, 98]] = some m' ∧
      (((⟨none, 0, [], []⟩ : MsgInnerParse).resetRead (some m')).calls (fun bs => bs)
        [.readint, .readint, .readstring]).1 =
          [some (.int 1), some (.int (-7)), some (.bytes [97, 98])] := by
  have hbuf : (List.replicate MsgInner.bufSize (0 : UInt8)).length = MsgInner.bufSize :=
    List.length_replicate
  generalize List.replicate MsgInner.bufSize (0 : UInt8) = buf at hbuf
  have hrange : ∀ f ∈ [InnerField.int (-7), .block [97, 98]], f.InRange := by
    simp [InnerField.InRange]
  have hreads : List.Forall₂ InnerField.ReadBy [.int (-7), .block [97, 98]]
      [.readint, .readstring] := .cons rfl (.cons (.inl rfl) .nil)
  refine ⟨_, _, rfl, rfl, ?_⟩
  exact (fields_round_trip (fun bs => bs) (m := ⟨buf, 0, 0⟩) hbuf (by decide) hrange rfl rfl
    hreads _).1

end MsgInnerParse

end Catse
