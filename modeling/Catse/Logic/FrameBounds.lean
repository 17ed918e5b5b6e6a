import Catse.Lib.Accesses
import Catse.Logic.Websocket

/-!
# Where `fetch_websocket_info` reads and writes

The parser once more, with a note of each place of the message that it reads and of each place of
`payload_` that it writes. The results are those of the parser without the notes
(`val_fetchWebsocketInfoLogged`). The limit on the payload length is that of `payload_`, so all
writes are within it, but the payload begins behind the header, so that the copy goes on behind the
end of the message buffer for the lengths that are up to ten below the limit
(`fetch_in_bounds_iff`).
-/

namespace Catse

namespace WebsocketRequest

open Logged

/-! ## The parser with its accesses -/

/-- `fetch_fin`. -/
def fetchFinLogged (r : WebsocketRequest) (msg : ℕ → UInt8) (pos : ℕ) :
    Logged WebsocketRequest := do
  let b ← read msg pos
  return { r with fin_ := b.toNat / 2^7 }

/-- `fetch_opcode`. -/
def fetchOpcodeLogged (r : WebsocketRequest) (msg : ℕ → UInt8) (pos : ℕ) :
    Logged (WebsocketRequest × ℕ) := do
  let b ← read msg pos
  return ({ r with opcode_ := b.toNat % 2^4 }, pos + 1)

/-- `fetch_mask`. -/
def fetchMaskLogged (r : WebsocketRequest) (msg : ℕ → UInt8) (pos : ℕ) :
    Logged WebsocketRequest := do
  let b ← read msg pos
  return { r with mask_ := b.toNat / 2^7 }

/-- The length that `fetch_payload_length` finds, before it is compared with the limit. -/
def fetchLengthLogged (msg : ℕ → UInt8) (pos len7 : ℕ) : Logged (ℤ × ℕ) := do
  if len7 = 126 then
    let bs ← readMany msg pos 2
    return ((ofBE bs : ℤ), pos + 2)
  else if len7 = 127 then
    let bs ← readMany msg pos 4
    return (toInt32 (ofBE bs), pos + 4)
  else return ((len7 : ℤ), pos)

/-- `fetch_payload_length`. -/
def fetchPayloadLengthLogged (r : WebsocketRequest) (msg : ℕ → UInt8) (pos : ℕ) :
    Logged (WebsocketRequest × ℕ) := do
  let b ← read msg pos
  let x ← fetchLengthLogged msg (pos + 1) (b.toNat % 2^7)
  return ({ r with payload_length_ := if x.1 < 0 ∨ payloadSize ≤ x.1 then 0 else x.1 }, x.2)

/-- `fetch_masking_key`. -/
def fetchMaskingKeyLogged (r : WebsocketRequest) (msg : ℕ → UInt8) (pos : ℕ) :
    Logged (WebsocketRequest × ℕ) :=
  if r.mask_ ≠ 1 then return (r, pos)
  else do
    let key ← readMany msg pos 4
    return ({ r with masking_key_ := key }, pos + 4)

/-- One round of the loop of `fetch_payload`. -/
def unmaskLogged (msg : ℕ → UInt8) (pos : ℕ) (r : WebsocketRequest) (i : ℕ) :
    Logged WebsocketRequest := do
  let b ← read msg (pos + i)
  write { r with payload_ := r.payload_.set i (b ^^^ r.masking_key_.getD (i % 4) 0) } i

/-- The copy of `fetch_payload`, with `memcpy` or with the loop. -/
def copyPayloadLogged (r : WebsocketRequest) (msg : ℕ → UInt8) (pos : ℕ) :
    Logged WebsocketRequest :=
  if r.mask_ ≠ 1 then do
    let bs ← readMany msg pos r.payload_length_.toNat
    writeFirst { r with payload_ := overwrite r.payload_ 0 bs } r.payload_length_.toNat
  else (List.range r.payload_length_.toNat).foldlM (unmaskLogged msg pos) r

/-- `fetch_payload`. -/
def fetchPayloadLogged (r : WebsocketRequest) (msg : ℕ → UInt8) (pos : ℕ) :
    Logged (WebsocketRequest × ℕ) := do
  let r ← writeFirst { r with payload_ := List.replicate payloadSize 0 } payloadSize
  let r ← r.copyPayloadLogged msg pos
  return (r, pos + r.payload_length_.toNat)

/-- `fetch_websocket_info`. -/
def fetchWebsocketInfoLogged (r : WebsocketRequest) (mem : WebsocketRequest → ℕ → UInt8) :
    Logged (WebsocketRequest × ℕ) := do
  let r ← r.fetchFinLogged (mem r) 0
  let x ← r.fetchOpcodeLogged (mem r) 0
  let r ← x.1.fetchMaskLogged (mem x.1) x.2
  let x ← r.fetchPayloadLengthLogged (mem r) x.2
  let x ← x.1.fetchMaskingKeyLogged (mem x.1) x.2
  x.1.fetchPayloadLogged (mem x.1) x.2

/-! ## The results are those of the parser -/

variable (r : WebsocketRequest) (msg : ℕ → UInt8) (pos : ℕ)

theorem val_fetchLengthLogged (len7 : ℕ) :
    (fetchLengthLogged msg pos len7).val =
      if len7 = 126 then ((ofBE [msg pos, msg (pos + 1)] : ℤ), pos + 2)
      else if len7 = 127 then
        (toInt32 (ofBE [msg pos, msg (pos + 1), msg (pos + 2), msg (pos + 3)]), pos + 4)
      else ((len7 : ℤ), pos) := by
  unfold fetchLengthLogged
  split_ifs <;> rfl

theorem val_fetchPayloadLengthLogged :
    (r.fetchPayloadLengthLogged msg pos).val = r.fetchPayloadLength msg pos := by
  unfold fetchPayloadLengthLogged fetchPayloadLength
  simp only [val_bind, val_read, val_pure, val_fetchLengthLogged]

theorem val_fetchMaskingKeyLogged :
    (r.fetchMaskingKeyLogged msg pos).val = r.fetchMaskingKey msg pos := by
  unfold fetchMaskingKeyLogged fetchMaskingKey
  split_ifs <;> rfl

/-- The loop writes one byte after the other to the cleared payload. -/
theorem foldl_unmask {n : ℕ} (hn : n ≤ payloadSize)
    (hr : r.payload_ = List.replicate payloadSize 0) :
    (List.range n).foldl (fun r i => (unmaskLogged msg pos r i).val) r =
      { r with payload_ :=
        ((List.range n).map fun i => msg (pos + i) ^^^ r.masking_key_.getD (i % 4) 0) ++
          List.replicate (payloadSize - n) 0 } := by
  induction n with
  | zero =>
    show r = { r with payload_ := [] ++ List.replicate (payloadSize - 0) 0 }
    rw [List.nil_append, Nat.sub_zero, ← hr]
  | succ n ih =>
    have hrest : List.replicate (payloadSize - n) (0 : UInt8) =
        0 :: List.replicate (payloadSize - (n + 1)) 0 := by
      rw [← List.replicate_succ]
      congr 1
      omega
    rw [List.range_succ, List.foldl_append, ih (by omega), List.map_append, List.append_assoc]
    simp only [List.foldl_cons, List.foldl_nil, unmaskLogged, val_bind, val_read, val_write]
    rw [List.set_append_right _ _ (by simp), hrest]
    simp

theorem val_copyPayloadLogged (hn : r.payload_length_.toNat ≤ payloadSize)
    (hr : r.payload_ = List.replicate payloadSize 0) :
    (r.copyPayloadLogged msg pos).val = (r.fetchPayload msg pos).1 := by
  unfold copyPayloadLogged fetchPayload
  split_ifs with hmask
  · simp only [val_bind, val_readMany, val_writeFirst, overwrite, List.take_zero, List.nil_append,
      hr, List.drop_replicate, List.length_map, List.length_range, Nat.zero_add]
  · rw [val_foldlM, foldl_unmask r msg pos hn hr]

theorem val_fetchPayloadLogged (hn : r.payload_length_.toNat ≤ payloadSize) :
    (r.fetchPayloadLogged msg pos).val = r.fetchPayload msg pos := by
  have hcopy := val_copyPayloadLogged { r with payload_ := List.replicate payloadSize 0 } msg pos hn
    rfl
  unfold fetchPayloadLogged
  simp only [val_bind, val_writeFirst, val_pure, hcopy]
  rfl

/-- A payload length is below the limit. -/
theorem payload_length_lt :
    (r.fetchPayloadLength msg pos).1.payload_length_.toNat < payloadSize := by
  have hsize : payloadSize = 2048 := rfl
  unfold fetchPayloadLength
  dsimp only
  split_ifs <;> omega

theorem payload_length_fetchMaskingKey :
    (r.fetchMaskingKey msg pos).1.payload_length_ = r.payload_length_ := by
  unfold fetchMaskingKey
  split_ifs <;> rfl

/-- The parser with its accesses is the parser. -/
theorem val_fetchWebsocketInfoLogged (mem : WebsocketRequest → ℕ → UInt8) :
    (r.fetchWebsocketInfoLogged mem).val = r.fetchWebsocketInfo mem := by
  unfold fetchWebsocketInfoLogged fetchWebsocketInfo
  simp only [val_bind, val_fetchPayloadLengthLogged, val_fetchMaskingKeyLogged]
  rw [val_fetchPayloadLogged]
  · rfl
  · rw [payload_length_fetchMaskingKey]
    exact (payload_length_lt _ _ _).le

/-! ## Bounds -/

variable {n m : ℕ}

theorem within_fetchLengthLogged (len7 : ℕ) :
    (fetchLengthLogged msg pos len7).Within n m ↔
      (len7 = 126 → pos + 2 ≤ n) ∧ (len7 = 127 → pos + 4 ≤ n) := by
  unfold fetchLengthLogged
  split_ifs with h126 h127
  · simp [within_bind, h126]
  · simp [within_bind, h127]
  · simp [h126, h127]

theorem within_fetchPayloadLengthLogged :
    (r.fetchPayloadLengthLogged msg pos).Within n m ↔
      pos < n ∧ ((msg pos).toNat % 2^7 = 126 → pos + 1 + 2 ≤ n) ∧
        ((msg pos).toNat % 2^7 = 127 → pos + 1 + 4 ≤ n) := by
  unfold fetchPayloadLengthLogged
  rw [within_bind, within_read, within_bind, within_fetchLengthLogged]
  exact and_congr_right fun _ => and_iff_left (within_pure _)

theorem within_fetchMaskingKeyLogged :
    (r.fetchMaskingKeyLogged msg pos).Within n m ↔ (r.mask_ = 1 → pos + 4 ≤ n) := by
  unfold fetchMaskingKeyLogged
  split_ifs with hmask
  · simp [hmask]
  · rw [within_bind, within_readMany]
    simp [not_not.mp hmask]

/-- The round of the loop reads and writes one byte. -/
theorem within_unmaskLogged (r : WebsocketRequest) (i : ℕ) :
    (unmaskLogged msg pos r i).Within n m ↔ pos + i < n ∧ i < m := by
  unfold unmaskLogged
  rw [within_bind, within_read, within_write]

/-- The copy stays within its buffers when the payload does. -/
theorem within_copyPayloadLogged (hm : r.payload_length_.toNat ≤ m) :
    (r.copyPayloadLogged msg pos).Within n m ↔
      r.payload_length_.toNat = 0 ∨ pos + r.payload_length_.toNat ≤ n := by
  unfold copyPayloadLogged
  split_ifs with hmask
  · rw [within_bind, within_readMany, within_writeFirst]
    exact and_iff_left hm
  · rw [within_foldlM (within_unmaskLogged msg pos)]
    constructor
    · intro h
      rcases Nat.eq_zero_or_pos r.payload_length_.toNat with h0 | hpos
      · exact .inl h0
      · -- The last byte is the one that counts.
        have hlast := h (r.payload_length_.toNat - 1) (List.mem_range.mpr (by omega))
        exact .inr (by omega)
    · intro h i hi
      have hlt := List.mem_range.mp hi
      omega

/-- `payload_` is cleared as a whole, and the copy stays within it. -/
theorem within_fetchPayloadLogged (hm : r.payload_length_.toNat ≤ payloadSize) :
    (r.fetchPayloadLogged msg pos).Within n payloadSize ↔
      r.payload_length_.toNat = 0 ∨ pos + r.payload_length_.toNat ≤ n := by
  have hcopy := within_copyPayloadLogged (n := n)
    { r with payload_ := List.replicate payloadSize 0 } msg pos hm
  unfold fetchPayloadLogged
  rw [within_bind, within_writeFirst, within_bind, val_writeFirst, hcopy]
  exact (and_iff_right le_rfl).trans (and_iff_left (within_pure _))

/-! ## What the header says -/

/-- The memory that the parser sees: the message buffer, and what is behind it. -/
def memory (buf : ℕ → UInt8) (behind : WebsocketRequest → ℕ → UInt8) (r : WebsocketRequest)
    (i : ℕ) : UInt8 := if i < Websocket.bufSize then buf i else behind r (i - Websocket.bufSize)

/-- The code of the length in the second byte. -/
def lengthCode (buf : ℕ → UInt8) : ℕ := (buf 1).toNat % 2^7

/-- The number of bytes of a long length. -/
def extLen (buf : ℕ → UInt8) : ℕ :=
  if lengthCode buf = 126 then 2 else if lengthCode buf = 127 then 4 else 0

/-- The number of bytes before the payload. -/
def headerLen (buf : ℕ → UInt8) : ℕ := 2 + extLen buf + if (buf 1).toNat / 2^7 = 1 then 4 else 0

/-- The payload length of the header, as an `int`. -/
def declaredLen (buf : ℕ → UInt8) : ℤ :=
  if lengthCode buf = 126 then (ofBE [buf 2, buf 3] : ℤ)
  else if lengthCode buf = 127 then toInt32 (ofBE [buf 2, buf 3, buf 4, buf 5])
  else lengthCode buf

/-- The payload length that is copied: the limit is that of `payload_`. -/
def copiedLen (buf : ℕ → UInt8) : ℤ :=
  if declaredLen buf < 0 ∨ payloadSize ≤ declaredLen buf then 0 else declaredLen buf

/-- The header and a payload that is within the limit lie in the message buffer. -/
def FitsBuffer (buf : ℕ → UInt8) : Prop :=
  declaredLen buf < 0 ∨ payloadSize ≤ declaredLen buf ∨
    headerLen buf + declaredLen buf ≤ Websocket.bufSize

variable (buf : ℕ → UInt8) (behind : WebsocketRequest → ℕ → UInt8)

theorem memory_of_lt (i : ℕ) (h : i < 10) : memory buf behind r i = buf i :=
  if_pos (by unfold Websocket.bufSize; omega)

theorem headerLen_le : headerLen buf ≤ 10 := by
  unfold headerLen extLen
  split_ifs <;> omega

theorem fetchPayloadLength_memory :
    r.fetchPayloadLength (memory buf behind r) 1 =
      ({ r with payload_length_ := copiedLen buf }, 2 + extLen buf) := by
  have hm : ∀ i < 10, memory buf behind r i = buf i := memory_of_lt r buf behind
  have hpair : (if (buf 1).toNat % 2^7 = 126 then ((ofBE [buf 2, buf 3] : ℤ), 4)
      else if (buf 1).toNat % 2^7 = 127 then
        (toInt32 (ofBE [buf 2, buf 3, buf 4, buf 5]), 6)
      else (((buf 1).toNat % 2^7 : ℕ), 2)) = (declaredLen buf, 2 + extLen buf) := by
    unfold declaredLen extLen lengthCode
    split_ifs
    · rfl
    · rfl
    · rfl
  unfold fetchPayloadLength
  simp only [hm 1 (by omega), hm 2 (by omega), hm 3 (by omega), hm 4 (by omega), hm 5 (by omega),
    Nat.reduceAdd]
  rw [hpair]
  rfl

theorem fetchMaskingKey_eq :
    (r.fetchMaskingKey msg pos).2 = pos + (if r.mask_ = 1 then 4 else 0) := by
  unfold fetchMaskingKey
  by_cases hmask : r.mask_ = 1
  · rw [if_neg (not_not.mpr hmask), if_pos hmask]
  · rw [if_pos hmask, if_neg hmask]
    rfl

/-- The parser from the payload length on. -/
theorem within_fetchPayload (hmask : r.mask_ = (buf 1).toNat / 2^7) :
    (do
      let x ← r.fetchPayloadLengthLogged (memory buf behind r) 1
      let x ← x.1.fetchMaskingKeyLogged (memory buf behind x.1) x.2
      x.1.fetchPayloadLogged (memory buf behind x.1) x.2).Within Websocket.bufSize payloadSize ↔
      (copiedLen buf).toNat = 0 ∨ headerLen buf + (copiedLen buf).toNat ≤ Websocket.bufSize := by
  have hsize : Websocket.bufSize = 2048 := rfl
  have hheader := headerLen_le buf
  have hlen : (copiedLen buf).toNat < payloadSize := by
    have hlt := payload_length_lt r (memory buf behind r) 1
    rw [fetchPayloadLength_memory] at hlt
    exact hlt
  rw [within_bind, within_fetchPayloadLengthLogged, within_bind, val_fetchPayloadLengthLogged,
    fetchPayloadLength_memory, within_fetchMaskingKeyLogged, val_fetchMaskingKeyLogged,
    within_fetchPayloadLogged, payload_length_fetchMaskingKey, fetchMaskingKey_eq]
  · dsimp only
    rw [hmask]
    unfold headerLen extLen at *
    constructor
    · exact fun h => h.2.2
    · intro h
      refine ⟨by omega, fun hm => ?_, h⟩
      omega
  · rw [payload_length_fetchMaskingKey]
    exact hlen.le

/-- The parser stays within its buffers when what it copies lies in the message buffer. -/
theorem within_fetchWebsocketInfoLogged :
    (r.fetchWebsocketInfoLogged (memory buf behind)).Within Websocket.bufSize payloadSize ↔
      (copiedLen buf).toNat = 0 ∨ headerLen buf + (copiedLen buf).toNat ≤ Websocket.bufSize := by
  have h0 : 0 < Websocket.bufSize := Nat.zero_lt_succ _
  have h1 : 1 < Websocket.bufSize := Nat.one_lt_succ_succ _
  have hfin : ∀ r : WebsocketRequest, (r.fetchFinLogged (memory buf behind r) 0).Within
      Websocket.bufSize payloadSize := fun r =>
    (within_bind _ _).mpr ⟨(within_read _ 0).mpr h0, within_pure _⟩
  have hopcode : ∀ r : WebsocketRequest, (r.fetchOpcodeLogged (memory buf behind r) 0).Within
      Websocket.bufSize payloadSize := fun r =>
    (within_bind _ _).mpr ⟨(within_read _ 0).mpr h0, within_pure _⟩
  have hmask : ∀ r : WebsocketRequest, (r.fetchMaskLogged (memory buf behind r) 1).Within
      Websocket.bufSize payloadSize := fun r =>
    (within_bind _ _).mpr ⟨(within_read _ 1).mpr h1, within_pure _⟩
  have hbit : ∀ r : WebsocketRequest,
      (r.fetchMaskLogged (memory buf behind r) 1).val.mask_ = (buf 1).toNat / 2^7 := by
    intro r
    show (memory buf behind r 1).toNat / 2^7 = _
    rw [memory_of_lt r buf behind 1 (by omega)]
  unfold fetchWebsocketInfoLogged
  rw [within_bind, and_iff_right (hfin r), within_bind, and_iff_right (hopcode _), within_bind]
  exact (and_iff_right (hmask _)).trans (within_fetchPayload _ buf behind (hbit _))

theorem fitsBuffer_iff :
    FitsBuffer buf ↔
      (copiedLen buf).toNat = 0 ∨ headerLen buf + (copiedLen buf).toNat ≤ Websocket.bufSize := by
  have hheader := headerLen_le buf
  have hsize : Websocket.bufSize = 2048 := rfl
  unfold FitsBuffer copiedLen
  split_ifs with hlimit
  · exact ⟨fun _ => .inl rfl, fun _ => by omega⟩
  · omega

/-- The parser reads within the message buffer and writes within `payload_` if and only if the
header does not declare a payload that `payload_` holds and that ends behind the message buffer. -/
theorem fetch_in_bounds_iff (r : WebsocketRequest) (buf : ℕ → UInt8)
    (behind : WebsocketRequest → ℕ → UInt8) :
    (r.fetchWebsocketInfoLogged (memory buf behind)).Within Websocket.bufSize payloadSize ↔
      FitsBuffer buf :=
  (within_fetchWebsocketInfoLogged r buf behind).trans (fitsBuffer_iff buf).symm

/-- A header of four bytes with the largest length that is accepted. -/
def largestLength : ℕ → UInt8
  | 0 => 0x82
  | 1 => 0x7e
  | 2 => 0x07
  | 3 => 0xff
  | _ => 0

/-- The payload is read up to the third byte behind the message buffer. -/
theorem largest_length_out_of_bounds :
    ¬(reset.fetchWebsocketInfoLogged (memory largestLength fun _ _ => 0)).Within Websocket.bufSize
      payloadSize := by
  rw [within_fetchWebsocketInfoLogged]
  decide

/-! ## What comes of it -/

/-- The end of the frame. -/
theorem fetchWebsocketInfo_end :
    (r.fetchWebsocketInfo (memory buf behind)).2 = headerLen buf + (copiedLen buf).toNat := by
  have hrest : ∀ r : WebsocketRequest, r.mask_ = (buf 1).toNat / 2^7 →
      (let x := r.fetchPayloadLength (memory buf behind r) 1
       let y := x.1.fetchMaskingKey (memory buf behind x.1) x.2
       (y.1.fetchPayload (memory buf behind y.1) y.2).2) =
        headerLen buf + (copiedLen buf).toNat := by
    intro r hmask
    show (fetchMaskingKey _ _ _).2 + (fetchMaskingKey _ _ _).1.payload_length_.toNat = _
    rw [fetchPayloadLength_memory, fetchMaskingKey_eq, payload_length_fetchMaskingKey]
    unfold headerLen
    dsimp only
    rw [hmask]
  refine hrest _ ?_
  show (memory buf behind _ 1).toNat / 2^7 = _
  rw [memory_of_lt _ buf behind 1 (by omega)]

end WebsocketRequest

namespace Websocket

open WebsocketRequest

variable {w : Websocket}

/-- Behind the message buffer is the request. -/
theorem mem_eq_memory (hkey : w.key.length = keySize) (hbuf : w.buf.length = bufSize) :
    (fun r i => ({ w with request := r } : Websocket).mem (keySize + i)) =
      memory (fun i => w.buf.getD i 0) fun r i => r.image.getD i 0 := by
  funext r i
  unfold mem image memory
  simp only [List.getD_eq_getElem?_getD, List.append_assoc]
  rw [List.getElem?_append_right (by omega), hkey, Nat.add_sub_cancel_left]
  split_ifs with hi
  · rw [List.getElem?_append_left (by omega)]
  · rw [List.getElem?_append_right (by omega), hbuf]

/-- A call that reads behind the message buffer waits for more, and leaves the input as it is. -/
theorem handlePacket_waits (hkey : w.key.length = keySize) (hbuf : w.buf.length = bufSize)
    {input : List UInt8} {len : ℕ}
    (hlen : len = if bufSize < input.length then bufSize else input.length)
    (hover : ¬FitsBuffer fun i => (w.copyout input len).buf.getD i 0) :
    (w.handlePacket input).ret = -2 ∧ (w.handlePacket input).rest = input := by
  have hle : len ≤ bufSize := by
    rw [hlen]
    split_ifs with h
    · exact le_rfl
    · exact not_lt.mp h
  have hcopied : (w.copyout input len).buf.length = bufSize := by
    have htake : (input.take len).length ≤ len := List.length_take_le len input
    unfold copyout
    rw [length_overwrite (by omega), hbuf]
  have hend : len < (reset.fetchWebsocketInfo fun r i =>
      ({ w.copyout input len with request := r } : Websocket).mem (keySize + i)).2 := by
    rw [mem_eq_memory (w := w.copyout input len) hkey hcopied, fetchWebsocketInfo_end]
    have hlong := (fitsBuffer_iff _).not.mp hover
    omega
  subst hlen
  unfold handlePacket
  dsimp only
  rw [if_pos hend]
  exact ⟨rfl, rfl⟩

end Websocket

end Catse
