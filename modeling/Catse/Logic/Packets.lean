import Catse.Logic.Frames
import Catse.Common.MsgStruct

/-!
# Packets of clients

`ClientPacket` is a packet as a client sends it: a masked binary frame whose payload is the length
of the body, the id and the body. A whole frame at the front of the input buffer is taken off it by
`handle_packet`, which leaves its payload in `buf` without the mask (`handlePacket_whole`). Of a
part of a frame, as long as it has the six bytes that `cb_read` asks for, nothing is taken
(`handlePacket_part`). Neither depends on what earlier calls have left in the buffers.
-/

namespace Catse

/-- `handle_packet` does not write to `key`. -/
theorem Websocket.handlePacket_key (w : Websocket) (input : List UInt8) :
    (w.handlePacket input).ws.key = w.key := by
  unfold Websocket.handlePacket
  dsimp only
  split_ifs <;> rfl

/-- A write into `key`, even one that runs on into `buf`, leaves `key` as large as it is. -/
theorem Websocket.length_key_writeKey {w : Websocket} (hw : w.key.length = keySize) (off : ℕ)
    (bs : List UInt8) : (w.writeKey off bs).key.length = keySize := by
  show ((overwrite (w.key ++ w.buf) off bs).take keySize).length = keySize
  simp only [overwrite, List.length_take, List.length_append, List.length_drop]
  omega

/-- So does `hand_shake`. -/
theorem Websocket.length_key_handShake {w : Websocket} (hw : w.key.length = keySize)
    {accept : List UInt8 → List UInt8} {input : List UInt8} {e : Effect Bool}
    (h : w.handShake accept input = .done e) : e.ws.key.length = keySize := by
  unfold handShake at h
  split at h
  · rw [← Outcome.done.inj h]
    exact hw
  dsimp only at h
  split at h
  · rw [← Outcome.done.inj h]
    exact hw
  have hcopy : (w.copyout input input.length).key.length = keySize := hw
  generalize w.copyout input input.length = w' at h hcopy
  unfold getKey at h
  split at h
  · exact absurd h (by simp)
  · rename_i w'' hkey
    rw [← Outcome.done.inj h]
    show w''.key.length = keySize
    split at hkey
    · rw [← (Prod.mk.inj (Outcome.done.inj hkey)).2]
      exact hcopy
    · split at hkey
      · exact absurd hkey (by simp)
      · exact absurd hkey (by simp)
  · rename_i w'' hkey
    rw [← Outcome.done.inj h]
    show w''.key.length = keySize
    split at hkey
    · exact absurd hkey (by simp)
    · split at hkey
      · exact absurd hkey (by simp)
      · rw [← (Prod.mk.inj (Outcome.done.inj hkey)).2]
        exact length_key_writeKey (length_key_writeKey hcopy _ _) _ _

/-- A handshake that succeeds drains the input buffer. -/
theorem Websocket.handShake_rest {w : Websocket} {accept : List UInt8 → List UInt8}
    {input : List UInt8} {e : Effect Bool} (h : w.handShake accept input = .done e)
    (hret : e.ret = true) : e.rest = [] := by
  unfold handShake at h
  split at h
  · rw [← Outcome.done.inj h]
  dsimp only at h
  split at h
  · rw [← Outcome.done.inj h] at hret
    exact absurd hret (by simp)
  split at h
  · exact absurd h (by simp)
  · rw [← Outcome.done.inj h]
  · rw [← Outcome.done.inj h]

namespace ClientFrame

/-- The parser takes the frame for as long as it is. -/
structure InStep (f : ClientFrame) : Prop where
  header : f.parsedHeader = f.headerLen
  declared : f.declared = f.length

/-- So it does in the first two forms, for the lengths that the payload buffer holds. -/
theorem inStep_of_form {f : ClientFrame} (hform : f.form ≠ .len64)
    (hlen : f.length < WebsocketRequest.payloadSize) : f.InStep := by
  constructor
  · unfold parsedHeader headerLen ext
    cases h : f.form with
    | len7 => rfl
    | len16 =>
      dsimp only
      rw [length_beBytes]
    | len64 => exact absurd h hform
  · unfold declared
    cases h : f.form with
    | len7 => rfl
    | len16 => exact clamp_of_lt hlen
    | len64 => exact absurd h hform

theorem InStep.parsedLen {f : ClientFrame} (h : f.InStep) (hf : f.WellFormed) :
    f.parsedLen = f.bytes.length := by
  rw [length_bytes hf, ClientFrame.parsedLen, h.header, h.declared]

/-- A frame splits into what stands before the key, the key and the masked payload. -/
theorem bytes_split (f : ClientFrame) :
    ∃ pre : List UInt8, pre.length + 4 = f.headerLen ∧ f.bytes = pre ++ (f.key ++ f.masked) := by
  refine ⟨f.head :: UInt8.ofNat (2^7 + f.code) :: f.ext, ?_, rfl⟩
  simp only [List.length_cons, headerLen]
  omega

/-- The masking key within a frame. -/
theorem bytes_key {f : ClientFrame} (hf : f.WellFormed) {i : ℕ} (hi : i < 4) :
    f.bytes.getD (f.headerLen - 4 + i) 0 = f.key.getD i 0 := by
  have hkey := hf.key_length
  obtain ⟨pre, hpre, hbytes⟩ := f.bytes_split
  rw [hbytes, List.getD_eq_getElem?_getD, List.getD_eq_getElem?_getD,
    List.getElem?_append_right (by omega), List.getElem?_append_left (by omega)]
  congr 2
  omega

/-- The masked payload within a frame. -/
theorem bytes_masked {f : ClientFrame} (hf : f.WellFormed) {i : ℕ} (hi : i < f.length) :
    f.bytes.getD (f.headerLen + i) 0 = f.payload.getD i 0 ^^^ f.key.getD (i % 4) 0 := by
  have hkey := hf.key_length
  obtain ⟨pre, hpre, hbytes⟩ := f.bytes_split
  have hindex : f.headerLen + i - pre.length - f.key.length = i := by omega
  rw [hbytes, List.getD_eq_getElem?_getD, List.getElem?_append_right (by omega),
    List.getElem?_append_right (by omega), hindex, masked, List.getElem?_map,
    List.getElem?_range hi]
  rfl

/-- When the parser sees all of a frame, the payload that it keeps is the frame's without the
mask. -/
theorem fetchPayload_payload {f : ClientFrame} (hf : f.WellFormed) (hstep : f.InStep)
    {mem : WebsocketRequest → ℕ → UInt8}
    (hmem : ∀ r, ∀ i < f.bytes.length, mem r i = f.bytes.getD i 0) :
    ((f.parsed mem).fetchPayload (mem (f.parsed mem)) f.parsedHeader).1.payload_.take f.length =
      f.payload := by
  have hlen := length_bytes hf
  have hheader : 6 ≤ f.headerLen := Nat.le_add_right 6 _
  -- The masking key that the parser has read is that of the frame.
  have hkey : ∀ i < 4, (f.parsed mem).masking_key_.getD i 0 = f.key.getD i 0 := by
    intro i hi
    have hread : (f.parsed mem).masking_key_.getD i 0 = f.bytes.getD (f.headerLen - 4 + i) 0 := by
      unfold parsed
      dsimp only
      rw [List.getD_eq_getElem?_getD, List.getElem?_map, List.getElem?_range hi, hstep.header]
      exact hmem _ _ (by omega)
    rw [hread, bytes_key hf hi]
  have hmask : (f.parsed mem).mask_ = 1 := rfl
  have hn : (f.parsed mem).payload_length_.toNat = f.length := by
    show ((f.declared : ℤ)).toNat = f.length
    rw [Int.toNat_natCast, hstep.declared]
  unfold WebsocketRequest.fetchPayload
  dsimp only
  rw [hmask, hn, hstep.header, List.take_left' (by simp)]
  apply List.ext_getElem
  · rw [List.length_map, List.length_range]
    rfl
  · intro i hi hi'
    have hi'' : i < f.length := hi'
    rw [List.getElem_map, List.getElem_range, if_neg (by decide), hmem _ _ (by omega),
      bytes_masked hf hi'', hkey _ (Nat.mod_lt _ (by omega)), UInt8.xor_assoc, UInt8.xor_self,
      UInt8.xor_zero, List.getD_eq_getElem?_getD, List.getElem?_eq_getElem hi']
    rfl

/-- `handle_packet` on an input buffer with a whole binary frame at its front leaves the payload at
the start of `buf`. -/
theorem handlePacket_payload {f : ClientFrame} (hf : f.WellFormed) (hstep : f.InStep)
    (hfin : f.fin = 1) (hopcode : f.opcode = 2) (hpos : 0 < f.length)
    (hfit : f.bytes.length ≤ Websocket.bufSize) {w : Websocket}
    (hw : w.key.length = Websocket.keySize) (rest : List UInt8) :
    (w.handlePacket (f.bytes ++ rest)).ws.buf.take f.length = f.payload := by
  have hlen := length_bytes hf
  have hsize : f.bytes.length ≤ copied (f.bytes ++ rest) := by
    unfold copied
    rw [List.length_append]
    split_ifs with h
    · exact hfit
    · omega
  -- The bytes copied are those of the frame.
  have hmem : ∀ r, ∀ i < f.bytes.length, (fun (r : WebsocketRequest) (i : ℕ) =>
      ({ w.copyout (f.bytes ++ rest) (copied (f.bytes ++ rest)) with request := r } : Websocket).mem
        (Websocket.keySize + i)) r i = f.bytes.getD i 0 := by
    intro r i hi
    dsimp only
    rw [mem_copyout hw (by omega) r]
    apply getD_of_prefix List.prefix_rfl
    · rw [List.length_append]
      omega
    · exact hi
  have hsix : ∀ r, ∀ i < 6, (fun (r : WebsocketRequest) (i : ℕ) =>
      ({ w.copyout (f.bytes ++ rest) (copied (f.bytes ++ rest)) with request := r } : Websocket).mem
        (Websocket.keySize + i)) r i = f.bytes.getD i 0 := by
    intro r i hi
    apply hmem r i
    rw [hlen, headerLen]
    omega
  have hpayload := fetchPayload_payload hf hstep hmem
  obtain ⟨hfin', hopcode', hdeclared, hreal⟩ := fetch_spec hf hsix
  rw [← fetchWebsocketInfo_eq hf hsix] at hpayload
  unfold Websocket.handlePacket
  rw [show (if Websocket.bufSize < (f.bytes ++ rest).length then Websocket.bufSize
    else (f.bytes ++ rest).length) = copied (f.bytes ++ rest) from rfl]
  dsimp only
  generalize WebsocketRequest.reset.fetchWebsocketInfo (fun r i =>
    ({ w.copyout (f.bytes ++ rest) (copied (f.bytes ++ rest)) with request := r } : Websocket).mem
      (Websocket.keySize + i)) = e at hpayload hfin' hopcode' hdeclared hreal
  obtain ⟨r, real⟩ := e
  dsimp only at hpayload hfin' hopcode' hdeclared hreal ⊢
  have hwhole : ¬ copied (f.bytes ++ rest) < real := by
    rw [hreal, hstep.parsedLen hf]
    omega
  have hlength : r.payload_length_ = (f.length : ℤ) := by
    rw [hdeclared, hstep.declared]
  rw [if_neg hwhole, hfin', hopcode', hfin, hopcode, hlength, if_neg (by decide),
    if_neg (by decide), if_pos (by omega), Int.toNat_natCast]
  show (overwrite _ 0 (r.payload_.take f.length)).take f.length = f.payload
  rw [hpayload, overwrite, List.take_zero, List.nil_append]
  exact List.take_left' rfl

end ClientFrame

/-- A packet of a client: the byte with FIN and the opcode, the form of the payload length, the
masking key, the id and the body. The frame is final and binary, the length fits its form, and the
body fits into a `msg_recv`. -/
structure ClientPacket where
  head : UInt8
  form : LengthForm
  key : List UInt8
  id : ℤ
  body : List UInt8
  fin : head.toNat / 2^7 = 1
  opcode : head.toNat % 2^4 = 2
  form_ne : form ≠ .len64
  key_length : key.length = 4
  id_range : -2^15 ≤ id ∧ id < 2^15
  body_le : body.length ≤ MsgRecv.bufSize
  fits : form = .len7 → body.length + 4 ≤ 125

namespace ClientPacket

/-- The payload: the length of the body, the id and the body. -/
def payload (p : ClientPacket) : List UInt8 := beInt 2 p.body.length ++ beInt 2 p.id ++ p.body

/-- The frame of a packet. -/
def frame (p : ClientPacket) : ClientFrame := ⟨p.head, p.form, p.key, p.payload⟩

/-- The bytes of a packet. -/
def bytes (p : ClientPacket) : List UInt8 := p.frame.bytes

/-- What a `msg_recv` has of a packet. -/
def content (p : ClientPacket) : ℤ × List UInt8 := (p.id, p.body)

theorem length_frame (p : ClientPacket) : p.frame.length = p.body.length + 4 := by
  show p.payload.length = _
  simp only [payload, List.length_append, length_beInt]
  omega

theorem wellFormed (p : ClientPacket) : p.frame.WellFormed where
  key_length := p.key_length
  fits := by
    have hlen := p.length_frame
    have hbody := p.body_le
    unfold MsgRecv.bufSize at hbody
    have hform : p.frame.form = p.form := rfl
    rw [hform]
    cases h : p.form with
    | len7 =>
      dsimp only
      rw [hlen]
      exact p.fits h
    | len16 =>
      dsimp only
      omega
    | len64 => exact absurd h p.form_ne

/-- The parser takes the frame of a packet for as long as it is. -/
theorem inStep (p : ClientPacket) : p.frame.InStep := by
  have hbody := p.body_le
  unfold MsgRecv.bufSize at hbody
  apply ClientFrame.inStep_of_form p.form_ne
  rw [p.length_frame]
  unfold WebsocketRequest.payloadSize
  omega

/-- The frame of a packet fits into `buf`, with room to spare. -/
theorem length_bytes_le (p : ClientPacket) :
    10 ≤ p.bytes.length ∧ p.bytes.length ≤ Websocket.bufSize := by
  have hbody := p.body_le
  have hlen := ClientFrame.length_bytes p.wellFormed
  have hheader : p.frame.headerLen ≤ 8 := by
    rw [← p.inStep.header]
    unfold ClientFrame.parsedHeader
    cases h : p.frame.form with
    | len7 => decide
    | len16 => decide
    | len64 => exact absurd h p.form_ne
  have hsix : 6 ≤ p.frame.headerLen := Nat.le_add_right 6 _
  rw [p.length_frame] at hlen
  unfold MsgRecv.bufSize at hbody
  unfold bytes Websocket.bufSize
  omega

/-- `handle_packet` takes a whole frame off the input buffer. The length, the id and the body are
then in `buf`. -/
theorem handlePacket_whole (p : ClientPacket) {w : Websocket}
    (hw : w.key.length = Websocket.keySize) (rest : List UInt8) :
    let e := w.handlePacket (p.bytes ++ rest)
    e.rest = rest ∧ e.ret = (p.body.length : ℤ) + 4 ∧
      toShort (ofBE (e.ws.buf.take 2)) = p.body.length ∧
      toShort (ofBE ((e.ws.buf.drop 2).take 2)) = p.id ∧
      (e.ws.buf.drop 4).take p.body.length = p.body := by
  intro e
  have hf := p.wellFormed
  have hstep := p.inStep
  have hfin : p.frame.fin = 1 := p.fin
  have hopcode : p.frame.opcode = 2 := p.opcode
  have hbody := p.body_le
  unfold MsgRecv.bufSize at hbody
  obtain ⟨hmin, hmax⟩ := p.length_bytes_le
  have hlen := p.length_frame
  obtain ⟨hrest, hret⟩ := ClientFrame.handlePacket_eq hf hw
    (List.prefix_rfl (l := p.frame.bytes ++ rest)) (by
      rw [List.length_append]
      unfold bytes at hmin
      omega)
  -- The whole frame is within the bytes copied.
  have hwhole : ¬ ClientFrame.copied (p.frame.bytes ++ rest) < p.frame.parsedLen := by
    rw [hstep.parsedLen hf]
    unfold ClientFrame.copied
    rw [List.length_append]
    unfold bytes at hmax
    split_ifs <;> omega
  rw [if_neg hwhole, hstep.parsedLen hf, List.drop_left' rfl] at hrest
  rw [if_neg hwhole, if_neg (by simpa using hfin), if_neg (by simpa using hopcode), hstep.declared,
    hlen] at hret
  have hpayload : e.ws.buf.take (p.body.length + 4) = p.payload := by
    rw [← hlen]
    exact ClientFrame.handlePacket_payload hf hstep hfin hopcode (by omega) hmax hw rest
  -- The three parts of the payload.
  have htwo : e.ws.buf.take 2 = beInt 2 p.body.length := by
    have htake := congrArg (List.take 2) hpayload
    rw [List.take_take, min_eq_left (by omega), payload, List.append_assoc,
      List.take_left' (length_beInt 2 _)] at htake
    exact htake
  have hid : (e.ws.buf.drop 2).take 2 = beInt 2 p.id := by
    have htake := congrArg (fun l => (l.drop 2).take 2) hpayload
    rw [List.drop_take, List.take_take, min_eq_left (by omega), payload, List.append_assoc,
      List.drop_left' (length_beInt 2 _), List.take_left' (length_beInt 2 _)] at htake
    exact htake
  have hdrop : (e.ws.buf.drop 4).take p.body.length = p.body := by
    have hdrop := congrArg (List.drop 4) hpayload
    rw [List.drop_take, Nat.add_sub_cancel, payload,
      List.drop_left' (by rw [List.length_append, length_beInt, length_beInt])] at hdrop
    exact hdrop
  refine ⟨hrest, ?_, ?_, ?_, hdrop⟩
  · have hvalue : e.ret = ((p.body.length + 4 : ℕ) : ℤ) := hret
    rw [hvalue]
    push_cast
    ring
  · rw [htwo, toShort_ofBE_beInt]
    apply toShort_of_range
    omega
  · rw [hid, toShort_ofBE_beInt]
    exact toShort_of_range p.id_range

/-- `handle_packet` takes nothing of a part of a frame. -/
theorem handlePacket_part (p : ClientPacket) {w : Websocket} (hw : w.key.length = Websocket.keySize)
    {input tail : List UInt8} (hframe : input ++ tail = p.bytes) (htail : tail ≠ [])
    (hsix : 6 ≤ input.length) :
    (w.handlePacket input).rest = input ∧ (w.handlePacket input).ret = -2 := by
  have hpos : 0 < tail.length := List.length_pos_iff.mpr htail
  have hlen := congrArg List.length hframe
  rw [List.length_append] at hlen
  have hstart : input <+: p.frame.bytes ++ [] := by
    rw [List.append_nil]
    exact ⟨tail, hframe⟩
  have hshort : ClientFrame.copied input < p.frame.parsedLen := by
    rw [p.inStep.parsedLen p.wellFormed]
    unfold ClientFrame.copied
    unfold bytes at hlen
    split_ifs <;> omega
  obtain ⟨hrest, hret⟩ := ClientFrame.handlePacket_eq p.wellFormed hw hstart hsix
  rw [if_pos hshort] at hrest hret
  exact ⟨hrest, hret⟩

end ClientPacket

end Catse
