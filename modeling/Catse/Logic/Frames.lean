import Catse.Logic.Websocket
import Mathlib.Data.List.Basic

/-!
# Client frames and `handle_packet`

`ClientFrame` is a frame as a client sends it: masked, with its payload length in one of the three
forms. `handle_packet` copies at most `2048` bytes of the input buffer and parses the header there.
`declared` is the length that the parser takes from a header: a length that the payload buffer does
not hold counts as `0`, and of the eight bytes of the longest form it reads the first four only. So
the number of bytes that `handle_packet` drains, `parsedLen`, is that of the frame for the lengths
below `2048` in the first two forms, and otherwise it is not.

`handlePacket_eq` says what a call does on any input buffer that starts with a frame, whole or not,
and whatever earlier calls have left in the buffers.
-/

namespace Catse

/-- The forms of a payload length. -/
inductive LengthForm where
  | len7
  | len16
  | len64
  deriving DecidableEq

/-- A frame of a client: the byte with FIN and the opcode, the form of its payload length, the
masking key and the payload. -/
structure ClientFrame where
  head : UInt8
  form : LengthForm
  key : List UInt8
  payload : List UInt8

namespace ClientFrame

/-- FIN. -/
def fin (f : ClientFrame) : ℕ := f.head.toNat / 2^7

/-- The opcode. -/
def opcode (f : ClientFrame) : ℕ := f.head.toNat % 2^4

/-- The payload length. -/
def length (f : ClientFrame) : ℕ := f.payload.length

/-- The lower seven bits of the second byte. -/
def code (f : ClientFrame) : ℕ :=
  match f.form with
  | .len7 => f.length
  | .len16 => 126
  | .len64 => 127

/-- The extended payload length. -/
def ext (f : ClientFrame) : List UInt8 :=
  match f.form with
  | .len7 => []
  | .len16 => beBytes 2 f.length
  | .len64 => beBytes 8 f.length

/-- The payload under the masking key. -/
def masked (f : ClientFrame) : List UInt8 :=
  (List.range f.length).map fun i => f.payload.getD i 0 ^^^ f.key.getD (i % 4) 0

/-- The bytes of a frame. -/
def bytes (f : ClientFrame) : List UInt8 :=
  f.head :: UInt8.ofNat (2^7 + f.code) :: (f.ext ++ (f.key ++ f.masked))

/-- The payload length fits its form. -/
structure WellFormed (f : ClientFrame) : Prop where
  key_length : f.key.length = 4
  fits : match f.form with
    | .len7 => f.length ≤ 125
    | .len16 => f.length < 2^16
    | .len64 => f.length < 2^63

/-- The bytes before the payload. -/
def headerLen (f : ClientFrame) : ℕ := 6 + f.ext.length

theorem length_bytes {f : ClientFrame} (hf : f.WellFormed) :
    f.bytes.length = f.headerLen + f.length := by
  have hkey := hf.key_length
  simp only [bytes, masked, headerLen, List.length_cons, List.length_append, List.length_map,
    List.length_range]
  omega

/-! ## What the parser makes of a header -/

/-- A length that the payload buffer cannot hold counts as `0`. -/
def clamp (n : ℕ) : ℕ := if WebsocketRequest.payloadSize ≤ n then 0 else n

/-- The payload length that the parser takes from the header. -/
def declared (f : ClientFrame) : ℕ :=
  match f.form with
  | .len7 => f.length
  | .len16 => clamp f.length
  | .len64 => clamp (f.length / 2^32)

/-- The bytes up to the payload, as the parser counts them. -/
def parsedHeader (f : ClientFrame) : ℕ :=
  match f.form with
  | .len7 => 6
  | .len16 => 8
  | .len64 => 10

/-- The bytes of the frame, as the parser counts them. -/
def parsedLen (f : ClientFrame) : ℕ := f.parsedHeader + f.declared

/-- The second byte of a frame: the mask bit and the code of the length. -/
theorem toNat_second {f : ClientFrame} (hf : f.WellFormed) :
    (UInt8.ofNat (2^7 + f.code)).toNat = 2^7 + f.code ∧ f.code < 2^7 := by
  have hfits := hf.fits
  have hlt : f.code < 2^7 := by
    unfold code
    cases hform : f.form with
    | len7 =>
      rw [hform] at hfits
      dsimp only at hfits ⊢
      omega
    | len16 =>
      dsimp only
      omega
    | len64 =>
      dsimp only
      omega
  refine ⟨?_, hlt⟩
  rw [UInt8.toNat_ofNat']
  omega

theorem clamp_of_lt {n : ℕ} (h : n < 2048) : clamp n = n := if_neg (not_le.mpr h)

theorem clamp_eq (n : ℕ) : clamp n = if n < 2048 then n else 0 := by
  split_ifs with h
  · exact clamp_of_lt h
  · exact if_pos (not_lt.mp h)

/-- A length as the parser keeps it. -/
theorem clamp_cast (n : ℕ) :
    (if (n : ℤ) < 0 ∨ (WebsocketRequest.payloadSize : ℤ) ≤ n then (0 : ℤ) else n) = clamp n := by
  unfold clamp
  split_ifs with h1 h2 h3
  · rfl
  · omega
  · omega
  · rfl

/-- `fetch_payload_length` on the header of a frame. -/
theorem fetchPayloadLength_eq {f : ClientFrame} (hf : f.WellFormed) {msg : ℕ → UInt8}
    (hmsg : ∀ i < 6, msg i = f.bytes.getD i 0) (r : WebsocketRequest) :
    r.fetchPayloadLength msg 1 =
      ({ r with payload_length_ := (f.declared : ℤ) }, f.parsedHeader - 4) := by
  have hfits := hf.fits
  obtain ⟨hsecond, hcode⟩ := toNat_second hf
  have hone : msg 1 = UInt8.ofNat (2^7 + f.code) := hmsg 1 (by omega)
  have hlen7 : (msg 1).toNat % 2^7 = f.code := by
    rw [hone, hsecond]
    omega
  unfold WebsocketRequest.fetchPayloadLength
  simp only [hlen7]
  cases hform : f.form with
  | len7 =>
    rw [hform] at hfits
    dsimp only at hfits
    -- The code is the length itself.
    have hc : f.code = f.length := by simp [code, hform]
    have hdeclared : f.declared = clamp f.length := by
      rw [clamp_of_lt (by omega)]
      simp [declared, hform]
    have hheader : f.parsedHeader - 4 = 2 := by simp [parsedHeader, hform]
    have h126 : ¬ f.length = 126 := by omega
    have h127 : ¬ f.length = 127 := by omega
    simp only [hc, h126, h127, if_false]
    rw [clamp_cast, hdeclared, hheader]
  | len16 =>
    rw [hform] at hfits
    dsimp only at hfits
    have hc : f.code = 126 := by simp [code, hform]
    have hdeclared : f.declared = clamp f.length := by simp [declared, hform]
    have hheader : f.parsedHeader - 4 = 4 := by simp [parsedHeader, hform]
    -- The length is in the two bytes behind the code.
    have hbytes : [msg (1 + 1), msg (1 + 2)] = beBytes 2 f.length := by
      obtain ⟨a, b, hab⟩ := List.length_eq_two.mp (length_beBytes 2 f.length)
      have htwo : f.bytes.getD 2 0 = a ∧ f.bytes.getD 3 0 = b := by
        simp [bytes, ext, hform, hab]
      rw [hmsg (1 + 1) (by omega), hmsg (1 + 2) (by omega), hab, htwo.1, htwo.2]
    have hvalue : ofBE (beBytes 2 f.length) = f.length := by
      rw [ofBE_beBytes, Nat.mod_eq_of_lt (by omega)]
    simp only [hc, if_true]
    rw [hbytes, hvalue, clamp_cast, hdeclared, hheader]
  | len64 =>
    rw [hform] at hfits
    dsimp only at hfits
    have hc : f.code = 127 := by simp [code, hform]
    have hdeclared : f.declared = clamp (f.length / 2^32) := by simp [declared, hform]
    have hheader : f.parsedHeader - 4 = 6 := by simp [parsedHeader, hform]
    have htop : f.length / 2^32 < 2^31 := by omega
    -- The four bytes that are read are the higher ones of the eight.
    have hext : f.ext = beBytes 4 (f.length / 2^32) ++ beBytes 4 f.length := by
      have hsplit := beBytes_add 4 4 f.length
      simp only [ext, hform]
      exact hsplit
    generalize f.length / 2^32 = top at hdeclared htop hext
    have hbytes : [msg (1 + 1), msg (1 + 2), msg (1 + 3), msg (1 + 4)] = beBytes 4 top := by
      obtain ⟨a, b, c, d, habcd⟩ : ∃ a b c d, beBytes 4 top = [a, b, c, d] := by
        have hlen := length_beBytes 4 top
        match beBytes 4 top, hlen with
        | [a, b, c, d], _ => exact ⟨a, b, c, d, rfl⟩
      have hfour : f.bytes.getD 2 0 = a ∧ f.bytes.getD 3 0 = b ∧ f.bytes.getD 4 0 = c ∧
          f.bytes.getD 5 0 = d := by
        simp [bytes, hext, habcd]
      rw [hmsg (1 + 1) (by omega), hmsg (1 + 2) (by omega), hmsg (1 + 3) (by omega),
        hmsg (1 + 4) (by omega), habcd, hfour.1, hfour.2.1, hfour.2.2.1, hfour.2.2.2]
    have hvalue : toInt32 (ofBE (beBytes 4 top)) = (top : ℤ) := by
      rw [ofBE_beBytes, Nat.mod_eq_of_lt (by omega)]
      apply toInt32_of_range
      omega
    simp only [hc, Nat.reduceEqDiff, if_true, if_false]
    rw [hbytes, hvalue, clamp_cast, hdeclared, hheader]

/-- The request after the header of a frame, where `mem` is what the parser sees. -/
def parsed (f : ClientFrame) (mem : WebsocketRequest → ℕ → UInt8) : WebsocketRequest :=
  let r : WebsocketRequest :=
    { WebsocketRequest.reset with
      fin_ := f.fin, opcode_ := f.opcode, mask_ := 1, payload_length_ := f.declared }
  { r with masking_key_ := (List.range 4).map fun i => mem r (f.parsedHeader - 4 + i) }

/-- The parser on a buffer that starts with the first six bytes of a frame. -/
theorem fetchWebsocketInfo_eq {f : ClientFrame} (hf : f.WellFormed)
    {mem : WebsocketRequest → ℕ → UInt8} (hmem : ∀ r, ∀ i < 6, mem r i = f.bytes.getD i 0) :
    WebsocketRequest.reset.fetchWebsocketInfo mem =
      (f.parsed mem).fetchPayload (mem (f.parsed mem)) f.parsedHeader := by
  have hhead : ∀ r, mem r 0 = f.head := fun r => hmem r 0 (by omega)
  have hsecond : ∀ r, mem r 1 = UInt8.ofNat (2^7 + f.code) := fun r => hmem r 1 (by omega)
  obtain ⟨htoNat, hcode⟩ := toNat_second hf
  have hmask : (2^7 + f.code) / 2^7 = 1 := by omega
  have hheader : f.parsedHeader - 4 + 4 = f.parsedHeader := by
    unfold parsedHeader
    cases f.form with
    | len7 => rfl
    | len16 => rfl
    | len64 => rfl
  unfold WebsocketRequest.fetchWebsocketInfo WebsocketRequest.fetchFin WebsocketRequest.fetchOpcode
    WebsocketRequest.fetchMask
  dsimp only
  rw [fetchPayloadLength_eq hf (hmem _)]
  unfold WebsocketRequest.fetchMaskingKey
  simp only [hhead, hsecond, htoNat, hmask, ne_eq, not_true_eq_false, if_false, Nat.zero_add,
    hheader]
  rfl

/-- What the parser takes from the header. -/
theorem fetch_spec {f : ClientFrame} (hf : f.WellFormed) {mem : WebsocketRequest → ℕ → UInt8}
    (hmem : ∀ r, ∀ i < 6, mem r i = f.bytes.getD i 0) :
    (WebsocketRequest.reset.fetchWebsocketInfo mem).1.fin_ = f.fin ∧
      (WebsocketRequest.reset.fetchWebsocketInfo mem).1.opcode_ = f.opcode ∧
      (WebsocketRequest.reset.fetchWebsocketInfo mem).1.payload_length_ = f.declared ∧
      (WebsocketRequest.reset.fetchWebsocketInfo mem).2 = f.parsedLen := by
  rw [fetchWebsocketInfo_eq hf hmem]
  exact ⟨rfl, rfl, rfl, rfl⟩

/-! ## What a call drains -/

/-- The number of bytes that `handle_packet` copies. -/
def copied (input : List UInt8) : ℕ :=
  if Websocket.bufSize < input.length then Websocket.bufSize else input.length

/-- The parser sees the bytes that were copied. -/
theorem mem_copyout {w : Websocket} (hw : w.key.length = Websocket.keySize) {input : List UInt8}
    {i : ℕ} (hi : i < copied input) (r : WebsocketRequest) :
    ({ w.copyout input (copied input) with request := r } : Websocket).mem (Websocket.keySize + i) =
      input.getD i 0 := by
  have hlen : (input.take (copied input)).length = copied input := by
    rw [List.length_take]
    unfold copied
    split_ifs with h
    · omega
    · omega
  have hi' : i < (input.take (copied input)).length := by omega
  simp only [Websocket.mem, Websocket.image, Websocket.copyout, overwrite, List.take_zero,
    List.nil_append, List.getD_eq_getElem?_getD, List.append_assoc]
  rw [List.getElem?_append_right (by omega), hw, Nat.add_sub_cancel_left,
    List.getElem?_append_left hi', List.getElem?_take_of_lt (by omega)]

/-- The bytes of an input buffer that starts with a frame are the frame's. -/
theorem getD_of_prefix {f : ClientFrame} {input rest : List UInt8}
    (hstart : input <+: f.bytes ++ rest) {i : ℕ} (hi : i < input.length) (hf : i < f.bytes.length) :
    input.getD i 0 = f.bytes.getD i 0 := by
  obtain ⟨tail, htail⟩ := hstart
  rw [List.getD_eq_getElem?_getD, List.getD_eq_getElem?_getD]
  have hinput : (input ++ tail)[i]? = input[i]? := List.getElem?_append_left hi
  rw [htail, List.getElem?_append_left hf] at hinput
  rw [hinput]

/-- A call of `handle_packet`, on an input buffer of at least six bytes that starts with a frame,
whole or not: what is left in the input buffer, and what is returned. -/
theorem handlePacket_eq {f : ClientFrame} (hf : f.WellFormed) {w : Websocket}
    (hw : w.key.length = Websocket.keySize) {input rest : List UInt8}
    (hstart : input <+: f.bytes ++ rest) (hsix : 6 ≤ input.length) :
    (w.handlePacket input).rest =
        (if copied input < f.parsedLen then input else input.drop f.parsedLen) ∧
      (w.handlePacket input).ret =
        (if copied input < f.parsedLen then -2
        else if f.fin ≠ 1 then -1
        else if f.opcode ≠ 2 then (if f.opcode = 9 ∨ f.opcode = 10 then 0 else -1)
        else (f.declared : ℤ)) := by
  have hlen := length_bytes hf
  have hmin : 6 ≤ copied input := by
    unfold copied Websocket.bufSize
    split_ifs <;> omega
  -- The header is read from the buffer into which the input has been copied.
  have hmem : ∀ r, ∀ i < 6, (fun (r : WebsocketRequest) (i : ℕ) =>
      ({ w.copyout input (copied input) with request := r } : Websocket).mem
        (Websocket.keySize + i)) r i = f.bytes.getD i 0 := by
    intro r i hi
    dsimp only
    rw [mem_copyout hw (by omega) r]
    apply getD_of_prefix hstart
    · omega
    · rw [hlen, headerLen]
      omega
  obtain ⟨hfin, hopcode, hdeclared, hreal⟩ := fetch_spec hf hmem
  unfold Websocket.handlePacket
  rw [show (if Websocket.bufSize < input.length then Websocket.bufSize else input.length) =
    copied input from rfl]
  dsimp only
  generalize hfetch : WebsocketRequest.reset.fetchWebsocketInfo (fun r i =>
    ({ w.copyout input (copied input) with request := r } :
      Websocket).mem (Websocket.keySize + i)) = e
  rw [hfetch] at hfin hopcode hdeclared hreal
  obtain ⟨r, real⟩ := e
  dsimp only at hfin hopcode hdeclared hreal ⊢
  subst hreal
  rw [hfin, hopcode, hdeclared]
  constructor
  · split_ifs <;> rfl
  · split_ifs <;> rfl

/-- The frames that make the parser lose its place in an input buffer of `n` bytes: those that a
call accepts, with a length that the parser does not take for what it is, once the bytes that it
takes for the frame are there. -/
def Missed (f : ClientFrame) (n : ℕ) : Prop :=
  f.fin = 1 ∧ (f.opcode = 2 ∨ f.opcode = 9 ∨ f.opcode = 10) ∧
    match f.form with
    | .len7 => False
    | .len16 => 2048 ≤ f.length ∧ 8 ≤ n
    | .len64 => 10 + (if f.length / 2^32 < 2048 then f.length / 2^32 else 0) ≤ min n 2048

/-- The parser loses its place when it takes another number of bytes for the frame than it has, and
has them. -/
theorem missed_iff {f : ClientFrame} (hf : f.WellFormed) (n : ℕ) :
    f.Missed n ↔ f.fin = 1 ∧ (f.opcode = 2 ∨ f.opcode = 9 ∨ f.opcode = 10) ∧
      f.parsedLen ≤ min n 2048 ∧ f.parsedLen ≠ f.bytes.length := by
  have hfits := hf.fits
  have hlen := length_bytes hf
  unfold Missed
  apply and_congr_right
  intro _
  apply and_congr_right
  intro _
  rw [hlen]
  cases hform : f.form with
  | len7 =>
    -- Behind a length of seven bits the parser counts as the frame does.
    have hsame : f.parsedLen = f.headerLen + f.length := by
      simp [parsedLen, parsedHeader, declared, headerLen, ext, hform]
    constructor
    · exact False.elim
    · rintro ⟨-, hne⟩
      exact hne hsame
  | len16 =>
    -- Two bytes of length: from 2048 on it is taken for zero.
    have hparsed : f.parsedLen = 8 + clamp f.length := by
      simp [parsedLen, parsedHeader, declared, hform]
    have hheader : f.headerLen = 8 := by simp [headerLen, ext, hform]
    rw [hparsed, hheader, clamp_eq]
    dsimp only
    split_ifs with hsmall
    · omega
    · omega
  | len64 =>
    -- Eight bytes of length, of which the parser takes the upper four and passes over no more.
    rw [hform] at hfits
    dsimp only at hfits
    have hparsed : f.parsedLen = 10 + clamp (f.length / 2^32) := by
      simp [parsedLen, parsedHeader, declared, hform]
    have hheader : f.headerLen = 14 := by simp [headerLen, ext, hform]
    rw [hparsed, hheader, clamp_eq]
    dsimp only
    split_ifs with hsmall
    · omega
    · omega

/-- A call of `handle_packet` on an input buffer that starts with a frame, whole or not, drains
nothing, drains exactly the frame or has the connection closed, unless the frame is one that is
missed. -/
theorem handlePacket_in_step_iff {f : ClientFrame} (hf : f.WellFormed) {w : Websocket}
    (hw : w.key.length = Websocket.keySize) {input rest : List UInt8}
    (hstart : input <+: f.bytes ++ rest) (hsix : 6 ≤ input.length) :
    ((w.handlePacket input).rest = input ∨
      (f.bytes.length ≤ input.length ∧
        (w.handlePacket input).rest = input.drop f.bytes.length) ∨
      (w.handlePacket input).ret = -1) ↔ ¬ f.Missed input.length := by
  obtain ⟨hrest, hret⟩ := handlePacket_eq hf hw hstart hsix
  have hcopied : copied input = min input.length 2048 := by
    unfold copied Websocket.bufSize
    split_ifs <;> omega
  have hheader : 6 ≤ f.parsedLen := by
    unfold parsedLen parsedHeader
    cases f.form with
    | len7 => exact Nat.le_add_right 6 _
    | len16 => exact (by omega : 6 ≤ 8 + f.declared)
    | len64 => exact (by omega : 6 ≤ 10 + f.declared)
  rw [missed_iff hf, hrest, hret, hcopied]
  by_cases hpart : min input.length 2048 < f.parsedLen
  · -- The frame is not all there, as the parser sees it.
    rw [if_pos hpart]
    constructor
    · rintro - ⟨-, -, hle, -⟩
      omega
    · intro _
      exact Or.inl rfl
  · rw [if_neg hpart, if_neg hpart]
    by_cases haccept : f.fin = 1 ∧ (f.opcode = 2 ∨ f.opcode = 9 ∨ f.opcode = 10)
    · -- The frame is accepted, so what counts is where the parser takes it to end.
      obtain ⟨hfin, hopcode⟩ := haccept
      have hnotClosed : ¬ (if f.fin ≠ 1 then (-1 : ℤ)
          else if f.opcode ≠ 2 then (if f.opcode = 9 ∨ f.opcode = 10 then 0 else -1)
          else (f.declared : ℤ)) = -1 := by
        rw [if_neg (by simpa using hfin)]
        split_ifs
        · exact not_false
        · omega
        · exact not_false
      have hdrops : ∀ n, n ≤ input.length → input.drop f.parsedLen = input.drop n →
        f.parsedLen = n := by
        intro n hn heq
        have hlens := congrArg List.length heq
        rw [List.length_drop, List.length_drop] at hlens
        omega
      constructor
      · rintro (hsame | ⟨hwhole, hframe⟩ | hclosed)
        · have hzero := hdrops 0 (Nat.zero_le _) hsame
          omega
        · rintro ⟨-, -, -, hne⟩
          exact hne (hdrops _ hwhole hframe)
        · exact absurd hclosed hnotClosed
      · intro hnot
        have hsame : f.parsedLen = f.bytes.length := by
          by_contra hne
          exact hnot ⟨hfin, hopcode, by omega, hne⟩
        right
        left
        refine ⟨by omega, ?_⟩
        rw [hsame]
    · constructor
      · -- A frame of another kind has the connection closed, which is one of the answers.
        rintro - ⟨hfin, hopcode, -, -⟩
        exact haccept ⟨hfin, hopcode⟩
      · intro _
        right
        right
        by_cases hfin : f.fin = 1
        · have hopcode : ¬ (f.opcode = 2 ∨ f.opcode = 9 ∨ f.opcode = 10) :=
            fun h => haccept ⟨hfin, h⟩
          rw [if_neg (by simpa using hfin), if_pos (by omega), if_neg (by omega)]
        · rw [if_pos hfin]

/-- A frame with a packet of four bytes. -/
theorem handlePacket_in_step_short :
    let f : ClientFrame := ⟨0x82, .len7, [1, 2, 3, 4], [0, 0, 0, 1]⟩
    (Websocket.init.handlePacket f.bytes).rest = f.bytes ∨
      (f.bytes.length ≤ f.bytes.length ∧
        (Websocket.init.handlePacket f.bytes).rest = f.bytes.drop f.bytes.length) ∨
      (Websocket.init.handlePacket f.bytes).ret = -1 := by
  intro f
  have hf : f.WellFormed := ⟨rfl, by decide⟩
  have hstart : f.bytes <+: f.bytes ++ [] := List.prefix_append _ _
  have hw : Websocket.init.key.length = Websocket.keySize := List.length_replicate
  refine (handlePacket_in_step_iff hf hw hstart (by decide)).mpr ?_
  rintro ⟨-, -, hfalse⟩
  exact hfalse

/-- A binary frame with a payload of `2048` bytes, in the form that is due to this length. -/
def largeFrame : ClientFrame := ⟨0x82, .len16, [0, 0, 0, 0], List.replicate 2048 0⟩

/-- Of this frame, of which everything has arrived, a call drains the header alone, and keeps the
connection. -/
theorem header_alone_drained :
    largeFrame.WellFormed ∧ 6 ≤ largeFrame.bytes.length ∧
      ¬ ((Websocket.init.handlePacket largeFrame.bytes).rest = largeFrame.bytes ∨
        (largeFrame.bytes.length ≤ largeFrame.bytes.length ∧
          (Websocket.init.handlePacket largeFrame.bytes).rest =
            largeFrame.bytes.drop largeFrame.bytes.length) ∨
        (Websocket.init.handlePacket largeFrame.bytes).ret = -1) := by
  have hlength : largeFrame.length = 2048 := List.length_replicate
  have hf : largeFrame.WellFormed := by
    refine ⟨rfl, ?_⟩
    show largeFrame.length < 2^16
    omega
  have hlen : largeFrame.bytes.length = 2056 := by
    have hext : largeFrame.ext.length = 2 := length_beBytes 2 _
    rw [length_bytes hf, hlength, headerLen, hext]
  have hdeclared : largeFrame.declared = 0 := by
    have hclamp : largeFrame.declared = clamp largeFrame.length := rfl
    rw [hclamp, hlength]
    rfl
  have hparsed : largeFrame.parsedLen = 8 := by
    rw [parsedLen, hdeclared]
    rfl
  have hcopied : copied largeFrame.bytes = 2048 := by
    unfold copied Websocket.bufSize
    rw [if_pos (by omega)]
  have hw : Websocket.init.key.length = Websocket.keySize := List.length_replicate
  have hstart : largeFrame.bytes <+: largeFrame.bytes ++ [] := List.prefix_append _ _
  obtain ⟨hrest, hret⟩ := handlePacket_eq hf hw hstart (by omega)
  have hfin : largeFrame.fin = 1 := by decide
  have hopcode : largeFrame.opcode = 2 := by decide
  rw [hcopied, hparsed] at hrest hret
  rw [if_neg (by omega)] at hrest hret
  rw [if_neg (by simpa using hfin), if_neg (by simpa using hopcode), hdeclared] at hret
  refine ⟨hf, by omega, ?_⟩
  rw [hrest, hret]
  rintro (hsame | ⟨-, hframe⟩ | hclosed)
  · have hlens := congrArg List.length hsame
    rw [List.length_drop] at hlens
    omega
  · have hlens := congrArg List.length hframe
    rw [List.length_drop, List.length_drop] at hlens
    omega
  · exact absurd hclosed (by decide)

end ClientFrame

end Catse
