import Catse.Logic.Parse
import Catse.Lib.Framing

/-!
# The frames that `send_msg` writes

`parseFrame` reads an unmasked frame as RFC 6455 has it, with its payload length in seven bits or in
the two bytes behind `126`, which must need them. `send_msg` writes one final binary frame for each
message (`parseFrame_sendMsg`), so that what it writes to a connection is read back as the messages
(`sent_frames`). The repository's own parser agrees, as far as its payload buffer goes
(`fetchWebsocketInfo_sendMsg`).
-/

namespace Catse

/-- A frame of a server, as a client reads it. -/
structure ServerFrame where
  fin : ℕ
  opcode : ℕ
  payload : List UInt8
deriving DecidableEq

/-- The payload length at the front of the bytes behind the first one: it has no mask, and it is in
two bytes only when it needs them. -/
def ServerFrame.takeLength (second : UInt8) (bs : List UInt8) : Option (ℕ × List UInt8) :=
  if second.toNat ≤ 125 then some (second.toNat, bs)
  else if second.toNat = 126 ∧ 2 ≤ bs.length ∧ 125 < ofBE (bs.take 2) then
    some (ofBE (bs.take 2), bs.drop 2)
  else none

/-- A payload of `n` bytes. -/
def ServerFrame.takePayload (head : UInt8) (n : ℕ) (bs : List UInt8) :
    Option (ServerFrame × List UInt8) :=
  if bs.length < n then none
  else some (⟨head.toNat / 2^7, head.toNat % 2^4, bs.take n⟩, bs.drop n)

/-- The frame at the front of the bytes. None of its reserved bits is set. -/
def ServerFrame.parseFrame : List UInt8 → Option (ServerFrame × List UInt8)
  | head :: second :: bs =>
    if head.toNat / 2^4 % 2^3 ≠ 0 then none
    else (takeLength second bs).bind fun r => takePayload head r.1 r.2
  | _ => none

/-- The frames that the bytes are. -/
def ServerFrame.parseFrames (bs : List UInt8) : Option (List ServerFrame) :=
  readAll parseFrame bs.length bs

namespace Websocket

/-- What a client gets of a message: its length, its id and its data. -/
def messagePayload (id : ℤ) (data : List UInt8) : List UInt8 :=
  beInt 2 data.length ++ beInt 2 id ++ data

/-- The length of a payload as a frame has it. -/
def lengthField (n : ℕ) : List UInt8 :=
  if n < 126 then [UInt8.ofNat n] else 126 :: beInt 2 n

@[simp] theorem length_messagePayload (id : ℤ) (data : List UInt8) :
    (messagePayload id data).length = data.length + 4 := by
  simp only [messagePayload, List.length_append, length_beInt]
  omega

/-- `send_msg` writes the two bytes of the head, or four, and the payload. -/
theorem sendMsg_eq (id : ℤ) {data : List UInt8} (hlen : data.length ≤ 16384) :
    sendMsg id data data.length =
      130 :: (lengthField (data.length + 4) ++ messagePayload id data) := by
  unfold sendMsg lengthField messagePayload
  dsimp only
  rw [Int.toNat_natCast, List.take_length]
  by_cases hshort : data.length + 4 < 126
  · -- A length below `126` is a byte as it is.
    have hmod : (((data.length : ℤ) + 4) % 2^8).toNat = data.length + 4 := by omega
    rw [if_pos (by omega), if_pos hshort, hmod]
    simp
  · rw [if_neg (by omega), if_pos (by omega), if_neg hshort]
    simp

/-- A message is read as one final binary frame, whatever follows it. -/
theorem parseFrame_sendMsg (id : ℤ) {data : List UInt8} (hlen : data.length ≤ 16384)
    (rest : List UInt8) :
    ServerFrame.parseFrame (sendMsg id data data.length ++ rest) =
      some (⟨1, 2, messagePayload id data⟩, rest) := by
  -- The payload is as long as the length says.
  have hpayload : ServerFrame.takePayload 130 (data.length + 4) (messagePayload id data ++ rest) =
      some (⟨1, 2, messagePayload id data⟩, rest) := by
    have hfits : ¬ (messagePayload id data ++ rest).length < data.length + 4 := by
      rw [List.length_append, length_messagePayload]
      omega
    rw [ServerFrame.takePayload, if_neg hfits, ← length_messagePayload id data, List.take_left' rfl,
      List.drop_left' rfl]
    rfl
  have hlength : ∃ second more, lengthField (data.length + 4) = second :: more ∧
      ServerFrame.takeLength second (more ++ (messagePayload id data ++ rest)) =
        some (data.length + 4, messagePayload id data ++ rest) := by
    unfold lengthField
    by_cases hshort : data.length + 4 < 126
    · -- The length in seven bits.
      have hbyte : (UInt8.ofNat (data.length + 4)).toNat = data.length + 4 := by
        rw [UInt8.toNat_ofNat']
        omega
      rw [if_pos hshort]
      refine ⟨_, [], rfl, ?_⟩
      rw [ServerFrame.takeLength, hbyte, if_pos (by omega)]
      rfl
    · -- The length in two bytes, which it needs.
      have htwo : (beInt 2 (data.length + 4 : ℕ)).length = 2 := length_beInt 2 _
      have hvalue : ofBE (beInt 2 (data.length + 4 : ℕ)) = data.length + 4 := by
        have hback := ofBE_beInt 2 (data.length + 4 : ℕ)
        omega
      rw [if_neg hshort]
      refine ⟨126, _, rfl, ?_⟩
      rw [ServerFrame.takeLength, if_neg (by decide), List.take_left' htwo, List.drop_left' htwo,
        hvalue, if_pos]
      refine ⟨by decide, ?_, by omega⟩
      rw [List.length_append]
      omega
  obtain ⟨second, more, hfield, hread⟩ := hlength
  rw [sendMsg_eq id hlen, hfield, List.cons_append, List.cons_append, List.cons_append,
    List.append_assoc, ServerFrame.parseFrame, if_neg (by decide), hread]
  exact hpayload

theorem lengthField_length (n : ℕ) : (lengthField n).length = if n < 126 then 1 else 3 := by
  unfold lengthField
  split_ifs
  · rfl
  · rw [List.length_cons, length_beInt]

/-- The header of a message, as the repository's parser reads it. -/
theorem fetchHeader_sendMsg (id : ℤ) {data : List UInt8} (hlen : data.length + 4 ≤ 2044) :
    WebsocketRequest.fetchHeader (fun _ i => (sendMsg id data data.length).getD i 0) =
      ({ WebsocketRequest.reset with
          fin_ := 1, opcode_ := 2, mask_ := 0, payload_length_ := (data.length : ℤ) + 4 },
        1 + (lengthField (data.length + 4)).length) := by
  have hclamp : ClientFrame.clamp (data.length + 4) = data.length + 4 :=
    ClientFrame.clamp_of_lt (by omega)
  have hcast := ClientFrame.clamp_cast (data.length + 4)
  rw [hclamp] at hcast
  push_cast at hcast
  rw [sendMsg_eq id (by omega), lengthField_length]
  unfold lengthField
  by_cases hshort : data.length + 4 < 126
  · -- The length is the second byte, which is below `126` and has no mask bit.
    have hbyte : (UInt8.ofNat (data.length + 4)).toNat = data.length + 4 := by
      rw [UInt8.toNat_ofNat']
      omega
    rw [if_pos hshort, if_pos hshort]
    simp only [WebsocketRequest.fetchHeader, WebsocketRequest.fetchFin,
      WebsocketRequest.fetchOpcode, WebsocketRequest.fetchMask,
      WebsocketRequest.fetchPayloadLength, List.cons_append, List.nil_append, Nat.zero_add,
      List.getD_cons_zero, List.getD_cons_succ, hbyte]
    have hmod : (data.length + 4) % 2^7 = data.length + 4 := by omega
    have hmask : (data.length + 4) / 2^7 = 0 := by omega
    have h126 : ¬ data.length + 4 = 126 := by omega
    have h127 : ¬ data.length + 4 = 127 := by omega
    simp only [hmod, hmask, h126, h127, if_false, Nat.cast_add, Nat.cast_ofNat, hcast]
    rfl
  · obtain ⟨b, b', hb⟩ := List.length_eq_two.mp (length_beInt 2 (data.length + 4 : ℕ))
    have hvalue : ofBE [b, b'] = data.length + 4 := by
      have hback := ofBE_beInt 2 (data.length + 4 : ℕ)
      rw [hb] at hback
      omega
    rw [if_neg hshort, if_neg hshort, hb]
    simp only [WebsocketRequest.fetchHeader, WebsocketRequest.fetchFin,
      WebsocketRequest.fetchOpcode, WebsocketRequest.fetchMask,
      WebsocketRequest.fetchPayloadLength, List.cons_append, List.nil_append, Nat.zero_add,
      List.getD_cons_zero, List.getD_cons_succ, hvalue]
    -- The second byte is `126`, and the length is in the two behind it.
    have hcode : (126 : UInt8).toNat % 2^7 = 126 := rfl
    simp only [hcode, if_true, Nat.cast_add, Nat.cast_ofNat, hcast]
    rfl

/-- The bytes of a list from a place on, one by one. -/
theorem map_getD_eq_drop {l : List UInt8} {k n : ℕ} (h : l.length = k + n) :
    ((List.range n).map fun i => l.getD (k + i) 0) = l.drop k := by
  apply List.ext_getElem
  · rw [List.length_map, List.length_range, List.length_drop]
    omega
  · intro i hi hi'
    rw [List.length_map, List.length_range] at hi
    rw [List.getElem_map, List.getElem_range, List.getElem_drop, List.getD_eq_getElem?_getD,
      List.getElem?_eq_getElem (by omega)]
    rfl

/-- The repository's own parser on memory that starts with a message, as far as its payload buffer
goes: the length of the frame, and the payload. -/
theorem fetchWebsocketInfo_sendMsg (id : ℤ) {data : List UInt8} (hlen : data.length + 4 ≤ 2044)
    {mem : WebsocketRequest → ℕ → UInt8}
    (hmem : ∀ r, ∀ i < (sendMsg id data data.length).length,
      mem r i = (sendMsg id data data.length).getD i 0) :
    (WebsocketRequest.reset.fetchWebsocketInfo mem).2 = (sendMsg id data data.length).length ∧
      (WebsocketRequest.reset.fetchWebsocketInfo mem).1.payload_length_ = (data.length : ℤ) + 4 ∧
      (WebsocketRequest.reset.fetchWebsocketInfo mem).1.payload_.take (data.length + 4) =
        messagePayload id data := by
  have hlong : data.length ≤ 16384 := by omega
  have hframe := sendMsg_eq id hlong
  -- The head, the length, and the payload.
  have htotal : (sendMsg id data data.length).length =
      1 + (lengthField (data.length + 4)).length + (data.length + 4) := by
    rw [hframe, List.length_cons, List.length_append, length_messagePayload]
    omega
  have hfield : 1 ≤ (lengthField (data.length + 4)).length := by
    rw [lengthField_length]
    split_ifs <;> omega
  obtain ⟨hend, hsame⟩ := WebsocketRequest.fetchWebsocketInfo_congr mem
    (fun _ i => (sendMsg id data data.length).getD i 0) (by omega) fun r _ i hi => hmem r i hi
  -- Without a mask the payload follows the length, and it is copied as it is.
  have hparse : WebsocketRequest.reset.fetchWebsocketInfo
      (fun _ i => (sendMsg id data data.length).getD i 0) =
      ({ WebsocketRequest.reset with
          fin_ := 1, opcode_ := 2, mask_ := 0, payload_length_ := (data.length : ℤ) + 4,
          payload_ := messagePayload id data ++
            List.replicate (WebsocketRequest.payloadSize - (data.length + 4)) 0 },
        (sendMsg id data data.length).length) := by
    have hn : ((data.length : ℤ) + 4).toNat = data.length + 4 := by omega
    have hbytes : ((List.range (data.length + 4)).map fun i =>
        (sendMsg id data data.length).getD (1 + (lengthField (data.length + 4)).length + i) 0) =
        messagePayload id data := by
      rw [map_getD_eq_drop htotal, hframe, Nat.add_comm 1, List.drop_succ_cons, List.drop_left' rfl]
    rw [WebsocketRequest.fetchWebsocketInfo_eq_header, fetchHeader_sendMsg id hlen, htotal]
    simp only [WebsocketRequest.fetchMaskingKey, WebsocketRequest.fetchPayload, ne_eq,
      zero_ne_one, not_false_eq_true, if_true, hn, hbytes]
  rw [hparse] at hend hsame
  -- The frame ends within the memory that is known.
  dsimp only at hend
  refine ⟨hend, ?_, ?_⟩
  · rw [hsame hend.le]
  · rw [hsame hend.le]
    exact List.take_left' (length_messagePayload id data)

/-- What `send_msg` writes to a connection, one message after the other, is read as one final binary
frame for each, in order and with the length, the id and the data of the message as its payload. -/
theorem sent_frames {msgs : List (ℤ × List UInt8)} (hlen : ∀ m ∈ msgs, m.2.length ≤ 16384) :
    ServerFrame.parseFrames (msgs.flatMap fun m => sendMsg m.1 m.2 m.2.length) =
        some (msgs.map fun m => ⟨1, 2, beInt 2 m.2.length ++ beInt 2 m.1 ++ m.2⟩) ∧
      ∀ (id : ℤ) (data : List UInt8), data.length + 4 ≤ 2044 →
        ∀ mem : WebsocketRequest → ℕ → UInt8,
          (∀ r, ∀ i < (sendMsg id data data.length).length,
            mem r i = (sendMsg id data data.length).getD i 0) →
          (WebsocketRequest.reset.fetchWebsocketInfo mem).2 = (sendMsg id data data.length).length ∧
            (WebsocketRequest.reset.fetchWebsocketInfo mem).1.payload_length_ =
              (data.length : ℤ) + 4 ∧
            (WebsocketRequest.reset.fetchWebsocketInfo mem).1.payload_.take (data.length + 4) =
              beInt 2 data.length ++ beInt 2 id ++ data := by
  constructor
  · -- No message is without bytes, so reading them one by one comes to an end.
    have hframe : ∀ m ∈ msgs, sendMsg m.1 m.2 m.2.length ≠ [] := by
      intro m hm
      rw [sendMsg_eq m.1 (hlen m hm)]
      exact List.cons_ne_nil _ _
    exact readAll_streamOf _ hframe (fun m hm => parseFrame_sendMsg m.1 (hlen m hm))
      (length_le_streamOf _ hframe)
  · intro id data hsmall mem hmem
    exact fetchWebsocketInfo_sendMsg id hsmall hmem

/-- Two messages, one without data. -/
theorem sent_frames_two :
    let msgs : List (ℤ × List UInt8) := [(1, []), (258, [7, 8, 9])]
    ServerFrame.parseFrames (msgs.flatMap fun m => sendMsg m.1 m.2 m.2.length) =
      some [⟨1, 2, [0, 0, 0, 1]⟩, ⟨1, 2, [0, 3, 1, 2, 7, 8, 9]⟩] := by
  intro msgs
  have hlen : ∀ m ∈ msgs, m.2.length ≤ 16384 := by decide
  exact (sent_frames hlen).1

end Websocket

end Catse
