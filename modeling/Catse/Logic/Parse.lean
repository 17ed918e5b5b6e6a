import Catse.Logic.Handshake

/-!
# What `handle_packet` makes of an input buffer

The parser runs over `buf` before it is known how much of it belongs to the input buffer. `parse` is
what it makes of the input alone. The header fields and the length lie in the first six bytes, which
are there, so the end of the frame is the same whatever stands behind the input. When this end is
within the bytes copied, so is everything that the parser has read, and otherwise the call waits for
more (`handlePacket_eq_parse`). So nothing that earlier calls have left counts
(`handlePacket_fresh`).

The wait is for bytes that may be there already: the end of the frame is compared with the bytes
copied, of which there are at most `2048`, header and all. A frame whose payload length the parser
accepts is longer than that when its header and its payload are (`handlePacket_answers_iff`).
-/

namespace Catse

namespace WebsocketRequest

/-- What the parser makes of the bytes of an input buffer: the request, and the end of the frame. -/
def parse (input : List UInt8) : WebsocketRequest × ℕ :=
  reset.fetchWebsocketInfo fun _ i => input.getD i 0

/-! ## The bytes that are read -/

section Congr

variable {r : WebsocketRequest} {msg msg' : ℕ → UInt8} {pos : ℕ}

/-- A payload length lies in the byte at its place and the four behind it. -/
theorem fetchPayloadLength_congr (h : ∀ i < 5, msg (pos + i) = msg' (pos + i)) :
    r.fetchPayloadLength msg pos = r.fetchPayloadLength msg' pos := by
  have h0 := h 0 (by omega)
  have h1 := h 1 (by omega)
  have h2 := h 2 (by omega)
  have h3 := h 3 (by omega)
  have h4 := h 4 (by omega)
  rw [Nat.add_zero] at h0
  unfold fetchPayloadLength
  rw [h0, h1, h2, h3, h4]

/-- A payload length is not negative. -/
theorem fetchPayloadLength_nonneg : 0 ≤ (r.fetchPayloadLength msg pos).1.payload_length_ := by
  unfold fetchPayloadLength
  dsimp only
  split_ifs <;> omega

/-- The place behind a masking key does not depend on the key. -/
theorem fetchMaskingKey_snd (r : WebsocketRequest) (msg msg' : ℕ → UInt8) (pos : ℕ) :
    (r.fetchMaskingKey msg pos).2 = (r.fetchMaskingKey msg' pos).2 ∧
      (r.fetchMaskingKey msg pos).1.payload_length_ =
        (r.fetchMaskingKey msg' pos).1.payload_length_ := by
  unfold fetchMaskingKey
  by_cases hmask : r.mask_ ≠ 1
  · rw [if_pos hmask, if_pos hmask]
    exact ⟨rfl, rfl⟩
  · rw [if_neg hmask, if_neg hmask]
    exact ⟨rfl, rfl⟩

/-- A masking key is the bytes up to the place behind it. -/
theorem fetchMaskingKey_congr (h : ∀ i < (r.fetchMaskingKey msg pos).2, msg i = msg' i) :
    r.fetchMaskingKey msg pos = r.fetchMaskingKey msg' pos := by
  unfold fetchMaskingKey at h ⊢
  by_cases hmask : r.mask_ ≠ 1
  · rw [if_pos hmask, if_pos hmask]
  · rw [if_neg hmask] at h
    rw [if_neg hmask, if_neg hmask]
    -- The key is the four bytes up to that place.
    have hkey : ((List.range 4).map fun i => msg (pos + i)) =
        (List.range 4).map fun i => msg' (pos + i) := by
      apply List.map_congr_left
      intro i hi
      exact h (pos + i) (Nat.add_lt_add_left (List.mem_range.mp hi) pos)
    rw [hkey]

/-- A payload is the bytes up to its end. -/
theorem fetchPayload_congr (h : ∀ i < pos + r.payload_length_.toNat, msg i = msg' i) :
    r.fetchPayload msg pos = r.fetchPayload msg' pos := by
  unfold fetchPayload
  dsimp only
  -- Byte by byte, masked or not.
  have hbytes : ((List.range r.payload_length_.toNat).map fun i =>
      if r.mask_ ≠ 1 then msg (pos + i) else msg (pos + i) ^^^ r.masking_key_.getD (i % 4) 0) =
      (List.range r.payload_length_.toNat).map fun i =>
        if r.mask_ ≠ 1 then msg' (pos + i)
        else msg' (pos + i) ^^^ r.masking_key_.getD (i % 4) 0 := by
    apply List.map_congr_left
    intro i hi
    rw [h (pos + i) (Nat.add_lt_add_left (List.mem_range.mp hi) pos)]
  rw [hbytes]

end Congr

/-- The parser up to the masking key. -/
def fetchHeader (mem : WebsocketRequest → ℕ → UInt8) : WebsocketRequest × ℕ :=
  let r := reset.fetchFin (mem reset) 0
  let (r, pos) := r.fetchOpcode (mem r) 0
  let r := r.fetchMask (mem r) pos
  r.fetchPayloadLength (mem r) pos

theorem fetchWebsocketInfo_eq_header (mem : WebsocketRequest → ℕ → UInt8) :
    reset.fetchWebsocketInfo mem =
      let (r, pos) := fetchHeader mem
      let (r, pos) := r.fetchMaskingKey (mem r) pos
      r.fetchPayload (mem r) pos := rfl

/-- The header up to the masking key lies within the first six bytes. -/
theorem fetchHeader_congr {mem mem' : WebsocketRequest → ℕ → UInt8}
    (hsame : ∀ r, ∀ i < 6, mem r i = mem' r i) : fetchHeader mem = fetchHeader mem' := by
  have hfin : reset.fetchFin (mem reset) 0 = reset.fetchFin (mem' reset) 0 := by
    unfold fetchFin
    rw [hsame reset 0 (by omega)]
  have hopcode : ∀ r, fetchOpcode r (mem r) 0 = fetchOpcode r (mem' r) 0 := by
    intro r
    unfold fetchOpcode
    rw [hsame r 0 (by omega)]
  have hmask : ∀ r, fetchMask r (mem r) 1 = fetchMask r (mem' r) 1 := by
    intro r
    unfold fetchMask
    rw [hsame r 1 (by omega)]
  -- The length is looked for in the second byte and in the four behind it.
  have hlength : ∀ r, fetchPayloadLength r (mem r) 1 = fetchPayloadLength r (mem' r) 1 := by
    intro r
    apply fetchPayloadLength_congr
    intro i hi
    exact hsame r (1 + i) (by omega)
  have hpos : ∀ (r : WebsocketRequest) msg, (r.fetchOpcode msg 0).2 = 1 := fun _ _ => rfl
  unfold fetchHeader
  dsimp only
  rw [hfin, hopcode, hpos, hmask, hlength]

/-- What the parser makes of a buffer of which `n` bytes are known, at least six: the end of the
frame, and everything else if the frame ends within these bytes. -/
theorem fetchWebsocketInfo_congr (mem mem' : WebsocketRequest → ℕ → UInt8) {n : ℕ} (hsix : 6 ≤ n)
    (hsame : ∀ r r', ∀ i < n, mem r i = mem' r' i) :
    (reset.fetchWebsocketInfo mem).2 = (reset.fetchWebsocketInfo mem').2 ∧
      ((reset.fetchWebsocketInfo mem).2 ≤ n →
        reset.fetchWebsocketInfo mem = reset.fetchWebsocketInfo mem') := by
  have hheader : fetchHeader mem = fetchHeader mem' :=
    fetchHeader_congr fun r i hi => hsame r r i (by omega)
  rw [fetchWebsocketInfo_eq_header, fetchWebsocketInfo_eq_header, ← hheader]
  obtain ⟨r, pos⟩ := fetchHeader mem
  dsimp only
  obtain ⟨hpos, hlength⟩ := fetchMaskingKey_snd r (mem r) (mem' r) pos
  constructor
  · -- The end is known from the header alone.
    unfold fetchPayload
    dsimp only
    rw [hpos, hlength]
  · intro hend
    -- The key and the payload lie before the end.
    have hend' : (r.fetchMaskingKey (mem r) pos).2 +
        (r.fetchMaskingKey (mem r) pos).1.payload_length_.toNat ≤ n := hend
    have hkey : r.fetchMaskingKey (mem r) pos = r.fetchMaskingKey (mem' r) pos := by
      apply fetchMaskingKey_congr
      intro i hi
      exact hsame r r i (by omega)
    rw [← hkey]
    apply fetchPayload_congr
    intro i hi
    exact hsame _ _ i (by omega)

/-- A payload length that the parser takes is not negative and fits into the payload buffer. -/
theorem payload_length_range (mem : WebsocketRequest → ℕ → UInt8) :
    0 ≤ (reset.fetchWebsocketInfo mem).1.payload_length_ ∧
      (reset.fetchWebsocketInfo mem).1.payload_length_ < payloadSize := by
  refine ⟨?_, Websocket.payload_length_lt mem⟩
  rw [fetchWebsocketInfo_eq_header]
  have hnonneg : 0 ≤ (fetchHeader mem).1.payload_length_ := fetchPayloadLength_nonneg
  generalize fetchHeader mem = e at hnonneg ⊢
  obtain ⟨r, pos⟩ := e
  obtain ⟨-, hlength⟩ := fetchMaskingKey_snd r (mem r) (fun _ => 0) pos
  -- The key does not change the length.
  have hkeep : (r.fetchMaskingKey (fun _ => 0) pos).1.payload_length_ = r.payload_length_ := by
    unfold fetchMaskingKey
    split_ifs <;> rfl
  show 0 ≤ (r.fetchMaskingKey (mem r) pos).1.payload_length_
  rw [hlength, hkeep]
  exact hnonneg

/-- The payload buffer is written whole. -/
theorem length_payload (mem : WebsocketRequest → ℕ → UInt8) :
    (reset.fetchWebsocketInfo mem).1.payload_.length = payloadSize := by
  have hlt := (payload_length_range mem).2
  rw [fetchWebsocketInfo_eq_header] at hlt ⊢
  dsimp only [fetchPayload] at hlt ⊢
  rw [List.length_append, List.length_map, List.length_range, List.length_replicate]
  omega

end WebsocketRequest

namespace Websocket

open ClientFrame (copied mem_copyout)
open WebsocketRequest (parse)

/-- What a call returns for a request that is there. -/
def verdict (r : WebsocketRequest) : ℤ :=
  if r.fin_ ≠ 1 then -1
  else if r.opcode_ ≠ 2 then (if r.opcode_ = 9 ∨ r.opcode_ = 10 then 0 else -1)
  else r.payload_length_

/-- The result of a call of `handle_packet` on an input buffer of at least six bytes. -/
structure Handled (input : List UInt8) (e : Effect ℤ) : Prop where
  /-- A frame that does not end within the bytes copied is waited for. -/
  waits : copied input < (parse input).2 → e.ret = -2 ∧ e.rest = input
  /-- Another one is taken off the input buffer, -/
  drains : (parse input).2 ≤ copied input →
    e.ret = verdict (parse input).1 ∧ e.rest = input.drop (parse input).2
  /-- and its payload is left in `buf`. -/
  payload : ∀ n : ℕ, 0 < n → e.ret = n → e.ws.buf.take n = (parse input).1.payload_.take n

/-- A write at the front of a buffer is what its front is then. -/
theorem take_overwrite_zero (buf bs : List UInt8) : (overwrite buf 0 bs).take bs.length = bs := by
  rw [overwrite, List.take_zero, List.nil_append, List.take_left' rfl]

/-- A call of `handle_packet` goes by what the parser makes of the input alone. -/
theorem handlePacket_eq_parse {w : Websocket} (hw : w.key.length = keySize) {input : List UInt8}
    (hsix : 6 ≤ input.length) : Handled input (w.handlePacket input) := by
  -- All the bytes are copied, or a whole buffer of them.
  have hmin : 6 ≤ copied input := by
    unfold copied bufSize
    split_ifs <;> omega
  obtain ⟨hend, hsame⟩ := WebsocketRequest.fetchWebsocketInfo_congr
    (fun r i => ({ w.copyout input (copied input) with request := r } :
      Websocket).mem (keySize + i))
    (fun _ i => input.getD i 0) hmin fun r _ i hi => mem_copyout hw hi r
  obtain ⟨hnonneg, hlt⟩ := WebsocketRequest.payload_length_range fun _ i => input.getD i 0
  have hpayload := WebsocketRequest.length_payload fun _ i => input.getD i 0
  -- The bytes copied are those of the input, which is all that the parser sees if the frame ends
  -- within them.
  change _ = (parse input).2 at hend
  change _ → _ = parse input at hsame
  change 0 ≤ (parse input).1.payload_length_ at hnonneg
  change (parse input).1.payload_length_ < _ at hlt
  change (parse input).1.payload_.length = _ at hpayload
  unfold handlePacket
  rw [show (if bufSize < input.length then bufSize else input.length) = copied input from rfl]
  dsimp only
  generalize WebsocketRequest.reset.fetchWebsocketInfo (fun r i =>
    ({ w.copyout input (copied input) with request := r } : Websocket).mem (keySize + i)) =
      e at hend hsame
  obtain ⟨r, realLen⟩ := e
  dsimp only at hend hsame ⊢
  rw [hend] at hsame ⊢
  by_cases hwait : copied input < (parse input).2
  · rw [if_pos hwait]
    refine ⟨fun _ => ⟨rfl, rfl⟩, fun hle => absurd hwait (not_lt.mpr hle), ?_⟩
    intro n hn hret
    exact absurd hret (by show ¬ (-2 : ℤ) = n; omega)
  · obtain rfl : r = (parse input).1 := congrArg Prod.fst (hsame (not_lt.mp hwait))
    rw [if_neg hwait]
    refine ⟨fun h => absurd h hwait, fun _ => ?_, ?_⟩
    · unfold verdict
      split_ifs <;> exact ⟨rfl, rfl⟩
    · intro n hn
      generalize (parse input).1 = r at hnonneg hlt hpayload
      -- A payload is copied to the front of `buf`, whatever is behind it.
      have hcopy : ∀ buf : List UInt8, r.payload_length_ = n →
          (overwrite buf 0 (r.payload_.take r.payload_length_.toNat)).take n =
            r.payload_.take n := by
        intro buf hlength
        rw [hlength, Int.toNat_natCast]
        have htake : (r.payload_.take n).length = n := by
          rw [List.length_take]
          omega
        have hfront := take_overwrite_zero buf (r.payload_.take n)
        rwa [htake] at hfront
      split_ifs with hfin hopcode hping hpos
      · intro hret
        exact absurd hret (by show ¬ (-1 : ℤ) = n; omega)
      · intro hret
        exact absurd hret (by show ¬ (0 : ℤ) = n; omega)
      · intro hret
        exact absurd hret (by show ¬ (-1 : ℤ) = n; omega)
      · exact hcopy _
      · intro hret
        have hlength : r.payload_length_ = n := hret
        omega

/-- Nothing that earlier calls have left in `buf` and in the request counts: a call returns the
same, drains the same and leaves the same payload. -/
theorem handlePacket_fresh {w₁ w₂ : Websocket} (h₁ : w₁.key.length = keySize)
    (h₂ : w₂.key.length = keySize) {input : List UInt8} (hsix : 6 ≤ input.length) :
    (w₁.handlePacket input).ret = (w₂.handlePacket input).ret ∧
      (w₁.handlePacket input).rest = (w₂.handlePacket input).rest ∧
      ∀ n : ℕ, 0 < n → (w₁.handlePacket input).ret = n →
        (w₁.handlePacket input).ws.buf.take n = (w₂.handlePacket input).ws.buf.take n := by
  obtain ⟨hwaits₁, hdrains₁, hpayload₁⟩ := handlePacket_eq_parse h₁ hsix
  obtain ⟨hwaits₂, hdrains₂, hpayload₂⟩ := handlePacket_eq_parse h₂ hsix
  have hret : (w₁.handlePacket input).ret = (w₂.handlePacket input).ret := by
    rcases lt_or_ge (copied input) (parse input).2 with hwait | hthere
    · rw [(hwaits₁ hwait).1, (hwaits₂ hwait).1]
    · rw [(hdrains₁ hthere).1, (hdrains₂ hthere).1]
  refine ⟨hret, ?_, ?_⟩
  · rcases lt_or_ge (copied input) (parse input).2 with hwait | hthere
    · rw [(hwaits₁ hwait).2, (hwaits₂ hwait).2]
    · rw [(hdrains₁ hthere).2, (hdrains₂ hthere).2]
  · intro n hn hn₁
    rw [hpayload₁ n hn hn₁, hpayload₂ n hn (hret ▸ hn₁)]

/-- The first six bytes of a frame, of which the rest of the key and the payload are still to come.
One `websocket` is new, and the scratch buffer of the other one is full of what came before. -/
theorem handlePacket_fresh_part :
    let w : Websocket := ⟨List.replicate keySize 0, List.replicate bufSize 2, .reset⟩
    let input : List UInt8 := [0x82, 254, 0, 2, 7, 7]
    (init.handlePacket input).ret = (w.handlePacket input).ret ∧
      (init.handlePacket input).rest = (w.handlePacket input).rest ∧
      ∀ n : ℕ, 0 < n → (init.handlePacket input).ret = n →
        (init.handlePacket input).ws.buf.take n = (w.handlePacket input).ws.buf.take n :=
  handlePacket_fresh List.length_replicate List.length_replicate (by decide)

/-! ## Frames that are waited for -/

/-- A call waits for more exactly when the frame does not end within the bytes copied. -/
theorem handlePacket_waits_iff {w : Websocket} (hw : w.key.length = keySize) {input : List UInt8}
    (hsix : 6 ≤ input.length) :
    (w.handlePacket input).ret = -2 ↔ copied input < (parse input).2 := by
  obtain ⟨hwaits, hdrains, -⟩ := handlePacket_eq_parse hw hsix
  constructor
  · intro hret
    by_contra hthere
    -- No other result is `-2`, since a length is not negative.
    have hnonneg := (WebsocketRequest.payload_length_range fun _ i => input.getD i 0).1
    change 0 ≤ (parse input).1.payload_length_ at hnonneg
    rw [(hdrains (not_lt.mp hthere)).1, verdict] at hret
    split_ifs at hret
    all_goals omega
  · intro hwait
    exact (hwaits hwait).1

end Websocket

namespace ClientFrame

open WebsocketRequest (parse)

/-- The bytes of a frame in the form that the parser takes the longest one for: the payload length
in four bytes. -/
def bytes32 (f : ClientFrame) : List UInt8 :=
  f.head :: 255 :: (beBytes 4 f.length ++ (f.key ++ f.masked))

theorem length_bytes32 {f : ClientFrame} (hkey : f.key.length = 4) :
    f.bytes32.length = 10 + f.length := by
  simp only [bytes32, masked, List.length_cons, List.length_append, List.length_map,
    List.length_range, length_beBytes]
  omega

/-- The end of a frame, as the parser sees it. -/
theorem parse_bytes {f : ClientFrame} (hf : f.WellFormed) (rest : List UInt8) :
    (parse (f.bytes ++ rest)).2 = f.parsedLen := by
  have hlen := length_bytes hf
  refine (fetch_spec hf ?_).2.2.2
  intro r i hi
  have hlt : i < f.bytes.length := by
    rw [hlen, headerLen]
    omega
  rw [List.getD_eq_getElem?_getD, List.getD_eq_getElem?_getD, List.getElem?_append_left hlt]

/-- The same with the payload length in four bytes. -/
theorem parse_bytes32 {f : ClientFrame} (hsmall : f.length ≤ 2047) (rest : List UInt8) :
    (parse (f.bytes32 ++ rest)).2 = 10 + f.length := by
  obtain ⟨a, b, c, d, habcd⟩ : ∃ a b c d, beBytes 4 f.length = [a, b, c, d] := by
    have hlen := length_beBytes 4 f.length
    match beBytes 4 f.length, hlen with
    | [a, b, c, d], _ => exact ⟨a, b, c, d, rfl⟩
  have hvalue : toInt32 (ofBE [a, b, c, d]) = f.length := by
    rw [← habcd, ofBE_beBytes, Nat.mod_eq_of_lt (by omega)]
    exact toInt32_of_range (by omega)
  -- The code `255` is a mask bit and `127`, and the length is in the next four bytes.
  have hheader : WebsocketRequest.fetchHeader (fun _ i => (f.bytes32 ++ rest).getD i 0) =
      ({ WebsocketRequest.reset with
          fin_ := f.head.toNat / 2^7, opcode_ := f.head.toNat % 2^4, mask_ := 1,
          payload_length_ := f.length }, 6) := by
    simp only [WebsocketRequest.fetchHeader, WebsocketRequest.fetchFin,
      WebsocketRequest.fetchOpcode, WebsocketRequest.fetchMask,
      WebsocketRequest.fetchPayloadLength, bytes32, habcd, List.cons_append, List.nil_append,
      List.getD_cons_zero, List.getD_cons_succ]
    have hcode : (255 : UInt8).toNat % 2^7 = 127 := rfl
    have hclamp : clamp f.length = f.length := clamp_of_lt (Nat.lt_succ_of_le hsmall)
    simp only [hcode, Nat.reduceEqDiff, if_false, if_true, hvalue, clamp_cast, hclamp]
    rfl
  unfold parse
  rw [WebsocketRequest.fetchWebsocketInfo_eq_header, hheader]
  show 6 + 4 + (f.length : ℤ).toNat = 10 + f.length
  omega

/-- A whole frame with a payload length that the parser accepts is taken off the input buffer, or
has the connection closed, exactly when its header and its payload are together no longer than the
`2048` bytes copied. So the frames that are waited for in vain are those in the form of two bytes
with more than `2040` bytes, and in the parser's form of four bytes those with more than `2038`. -/
theorem handlePacket_answers_iff {f : ClientFrame} (hf : f.WellFormed)
    (hlen : 1 ≤ f.length ∧ f.length ≤ 2047) {w : Websocket} (hw : w.key.length = Websocket.keySize)
    (rest : List UInt8) :
    ((w.handlePacket (f.bytes ++ rest)).ret ≠ -2 ↔ ¬ (f.form = .len16 ∧ 2040 < f.length)) ∧
      ((w.handlePacket (f.bytes32 ++ rest)).ret ≠ -2 ↔ ¬ 2038 < f.length) := by
  have hbytes := length_bytes hf
  have hbytes32 := length_bytes32 hf.key_length
  have hcopied : ∀ input : List UInt8, copied input = min input.length 2048 := by
    intro input
    unfold copied Websocket.bufSize
    split_ifs <;> omega
  constructor
  · have hsix : 6 ≤ (f.bytes ++ rest).length := by
      rw [List.length_append, hbytes, headerLen]
      omega
    rw [ne_eq, Websocket.handlePacket_waits_iff hw hsix, hcopied, parse_bytes hf, not_iff_not,
      List.length_append, hbytes]
    have hfits := hf.fits
    cases hform : f.form with
    | len7 =>
      -- At most `125` bytes, which fit with their header.
      rw [hform] at hfits
      have hparsed : f.parsedLen = 6 + f.length := by
        simp [parsedLen, parsedHeader, declared, hform]
      have hheader : f.headerLen = 6 := by simp [headerLen, ext, hform]
      rw [hparsed, hheader]
      refine iff_of_false ?_ fun h => LengthForm.noConfusion h.1
      dsimp only at hfits
      omega
    | len16 =>
      have hparsed : f.parsedLen = 8 + f.length := by
        simp [parsedLen, parsedHeader, declared, hform, clamp_of_lt (n := f.length) (by omega)]
      have hheader : f.headerLen = 8 := by simp [headerLen, ext, hform]
      rw [hparsed, hheader]
      -- The header is of eight bytes, so a payload of more than `2040` ends beyond the copy.
      constructor
      · intro hwait
        exact ⟨rfl, by omega⟩
      · rintro ⟨-, hlong⟩
        omega
    | len64 =>
      -- The higher four bytes of the length are zero, and so is what the parser takes.
      have hzero : f.length / 2^32 = 0 := Nat.div_eq_of_lt (by omega)
      have hdeclared : f.declared = clamp (f.length / 2^32) := by simp [declared, hform]
      rw [hzero, clamp_of_lt (by omega)] at hdeclared
      have hparsed : f.parsedLen = 10 := by simp [parsedLen, parsedHeader, hdeclared, hform]
      have hheader : f.headerLen = 14 := by simp [headerLen, ext, hform]
      rw [hparsed, hheader]
      refine iff_of_false ?_ fun h => LengthForm.noConfusion h.1
      omega
  · have hsix : 6 ≤ (f.bytes32 ++ rest).length := by
      rw [List.length_append, hbytes32]
      omega
    rw [ne_eq, Websocket.handlePacket_waits_iff hw hsix, hcopied, parse_bytes32 hlen.2, not_iff_not,
      List.length_append, hbytes32]
    omega

/-- A frame with a packet of four bytes. -/
theorem handlePacket_answers_short :
    let f : ClientFrame := ⟨0x82, .len7, [1, 2, 3, 4], [0, 0, 0, 1]⟩
    ((Websocket.init.handlePacket (f.bytes ++ [])).ret ≠ -2 ↔
        ¬ (f.form = .len16 ∧ 2040 < f.length)) ∧
      ((Websocket.init.handlePacket (f.bytes32 ++ [])).ret ≠ -2 ↔ ¬ 2038 < f.length) := by
  intro f
  have hf : f.WellFormed := ⟨rfl, by decide⟩
  have hlen : 1 ≤ f.length ∧ f.length ≤ 2047 := by decide
  have hw : Websocket.init.key.length = Websocket.keySize := List.length_replicate
  exact handlePacket_answers_iff hf hlen hw []

/-- A binary frame with a payload of `2041` bytes, in the form that is due to this length. -/
def stallingFrame : ClientFrame := ⟨0x82, .len16, [0, 0, 0, 0], List.replicate 2041 0⟩

/-- All of this frame has arrived, and the call waits for more. -/
theorem whole_frame_waited_for :
    stallingFrame.WellFormed ∧ (1 ≤ stallingFrame.length ∧ stallingFrame.length ≤ 2047) ∧
      (Websocket.init.handlePacket stallingFrame.bytes).ret = -2 := by
  have hlength : stallingFrame.length = 2041 := List.length_replicate
  have hf : stallingFrame.WellFormed := by
    refine ⟨rfl, ?_⟩
    show stallingFrame.length < 2^16
    omega
  -- The frame is one byte longer than what is copied.
  have hlen : stallingFrame.bytes.length = 2049 := by
    have hext : stallingFrame.ext.length = 2 := length_beBytes 2 _
    rw [length_bytes hf, hlength, headerLen, hext]
  have hw : Websocket.init.key.length = Websocket.keySize := List.length_replicate
  have hparsed : (parse stallingFrame.bytes).2 = 2049 := by
    have hend := parse_bytes hf []
    have hdeclared : stallingFrame.declared = 2041 := by
      have hclamp : stallingFrame.declared = clamp stallingFrame.length := rfl
      rw [hclamp, hlength]
      rfl
    rw [List.append_nil] at hend
    rw [hend, parsedLen, hdeclared]
    rfl
  refine ⟨hf, by omega, ?_⟩
  rw [Websocket.handlePacket_waits_iff hw (by omega), hparsed]
  unfold copied Websocket.bufSize
  rw [if_pos (by omega)]
  decide

end ClientFrame

end Catse
