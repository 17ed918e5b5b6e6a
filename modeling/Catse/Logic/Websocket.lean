import Catse.Lib.Bytes

/-!
# The WebSocket layer: `websocket_request.cpp` and `websocket.h`

`WebsocketRequest` is the frame parser with its fields, and `Websocket` the singleton that owns it
together with the scratch buffers `key` and `buf`. The three lie one behind the other in memory, and
the code reads past the end of one into the next, so `Websocket.mem` gives the byte at an address
counted from the start of `key`. An evbuffer is the list of the bytes in it, and what is written to
a connection is the list of those bytes.

The answer to a handshake is computed from the key by SHA-1 and Base64, which is the parameter
`accept`.
-/

namespace Catse

/-- `Websocket_Request`. -/
structure WebsocketRequest where
  fin_ : ℕ
  opcode_ : ℕ
  mask_ : ℕ
  masking_key_ : List UInt8
  payload_length_ : ℤ
  payload_ : List UInt8

namespace WebsocketRequest

/-- `sizeof(payload_)`. -/
def payloadSize : ℕ := 2048

/-- `Websocket_Request::reset`. -/
def reset : WebsocketRequest :=
  ⟨0, 0, 0, List.replicate 4 0, 0, List.replicate payloadSize 0⟩

/-- The object as it lies in memory, with one byte of padding before the length. -/
def image (r : WebsocketRequest) : List UInt8 :=
  [UInt8.ofNat r.fin_, UInt8.ofNat r.opcode_, UInt8.ofNat r.mask_] ++ r.masking_key_ ++ [0] ++
    leBytes 4 (r.payload_length_ % 2^32).toNat ++ r.payload_

/-- `Websocket_Request::fetch_fin`. -/
def fetchFin (r : WebsocketRequest) (msg : ℕ → UInt8) (pos : ℕ) : WebsocketRequest :=
  { r with fin_ := (msg pos).toNat / 2^7 }

/-- `Websocket_Request::fetch_opcode`, with the position that it moves to. -/
def fetchOpcode (r : WebsocketRequest) (msg : ℕ → UInt8) (pos : ℕ) : WebsocketRequest × ℕ :=
  ({ r with opcode_ := (msg pos).toNat % 2^4 }, pos + 1)

/-- `Websocket_Request::fetch_mask`. -/
def fetchMask (r : WebsocketRequest) (msg : ℕ → UInt8) (pos : ℕ) : WebsocketRequest :=
  { r with mask_ := (msg pos).toNat / 2^7 }

/-- `Websocket_Request::fetch_payload_length`: a length that the payload buffer cannot hold counts
as `0`. -/
def fetchPayloadLength (r : WebsocketRequest) (msg : ℕ → UInt8) (pos : ℕ) : WebsocketRequest × ℕ :=
  let len7 : ℕ := (msg pos).toNat % 2^7
  let (n, pos') : ℤ × ℕ :=
    if len7 = 126 then (ofBE [msg (pos + 1), msg (pos + 2)], pos + 3)
    else if len7 = 127 then
      (toInt32 (ofBE [msg (pos + 1), msg (pos + 2), msg (pos + 3), msg (pos + 4)]), pos + 5)
    else ((len7 : ℤ), pos + 1)
  ({ r with payload_length_ := if n < 0 ∨ payloadSize ≤ n then 0 else n }, pos')

/-- `Websocket_Request::fetch_masking_key`. -/
def fetchMaskingKey (r : WebsocketRequest) (msg : ℕ → UInt8) (pos : ℕ) : WebsocketRequest × ℕ :=
  if r.mask_ ≠ 1 then (r, pos)
  else ({ r with masking_key_ := (List.range 4).map fun i => msg (pos + i) }, pos + 4)

/-- `Websocket_Request::fetch_payload`. -/
def fetchPayload (r : WebsocketRequest) (msg : ℕ → UInt8) (pos : ℕ) : WebsocketRequest × ℕ :=
  let n := r.payload_length_.toNat
  let bytes := (List.range n).map fun i =>
    if r.mask_ ≠ 1 then msg (pos + i) else msg (pos + i) ^^^ r.masking_key_.getD (i % 4) 0
  ({ r with payload_ := bytes ++ List.replicate (payloadSize - n) 0 }, pos + n)

/-- `Websocket_Request::fetch_websocket_info`, with the length of the frame. `mem r i` is the byte
`msg[i]` while the request is `r`: the bytes behind the buffer `msg` are those of the request. -/
def fetchWebsocketInfo (r : WebsocketRequest) (mem : WebsocketRequest → ℕ → UInt8) :
    WebsocketRequest × ℕ :=
  let r := r.fetchFin (mem r) 0
  let (r, pos) := r.fetchOpcode (mem r) 0
  let r := r.fetchMask (mem r) pos
  let (r, pos) := r.fetchPayloadLength (mem r) pos
  let (r, pos) := r.fetchMaskingKey (mem r) pos
  r.fetchPayload (mem r) pos

end WebsocketRequest

/-- `websocket`: the scratch buffers and the frame parser behind them. -/
structure Websocket where
  key : List UInt8
  buf : List UInt8
  request : WebsocketRequest

namespace Websocket

/-- `sizeof(key)`. -/
def keySize : ℕ := 128

/-- `sizeof(buf)`. -/
def bufSize : ℕ := 2048

/-- `websocket::websocket`. -/
def init : Websocket := ⟨List.replicate keySize 0, List.replicate bufSize 0, .reset⟩

/-- The object as it lies in memory. -/
def image (w : Websocket) : List UInt8 := w.key ++ w.buf ++ w.request.image

/-- The byte at an address counted from the start of `key`. -/
def mem (w : Websocket) (i : ℕ) : UInt8 := w.image.getD i 0

/-- A write into `key`, which runs on into `buf` when it is too long. -/
def writeKey (w : Websocket) (off : ℕ) (bs : List UInt8) : Websocket :=
  let m := overwrite (w.key ++ w.buf) off bs
  { w with key := m.take keySize, buf := (m.drop keySize).take bufSize }

/-- The C string that starts at an address: the bytes up to the first zero. -/
def cstr (w : Websocket) (addr : ℕ) : List UInt8 := (w.image.drop addr).takeWhile (· ≠ 0)

/-- `strstr`: the index of the first occurrence. -/
def strstr : List UInt8 → List UInt8 → Option ℕ
  | [], pat => if pat = [] then some 0 else none
  | b :: s, pat => if pat.isPrefixOf (b :: s) then some 0 else (strstr s pat).map (· + 1)

/-- `"Sec-WebSocket-Key: "` -/
def keyStrBegin : List UInt8 :=
  [83, 101, 99, 45, 87, 101, 98, 83, 111, 99, 107, 101, 116, 45, 75, 101, 121, 58, 32]

/-- `"\r\n"` -/
def keyStrEnd : List UInt8 := [13, 10]

/-- `"258EAFA5-E914-47DA-95CA-C5AB0DC85B11"` -/
def magicStr : List UInt8 :=
  [50, 53, 56, 69, 65, 70, 65, 53, 45, 69, 57, 49, 52, 45, 52, 55, 68, 65, 45, 57, 53, 67, 65, 45,
    67, 53, 65, 66, 48, 68, 67, 56, 53, 66, 49, 49]

/-- What `get_key` and `hand_shake` come to: a value, or a crash (a `memcpy` of a negative length,
when no line end follows the key). -/
inductive Outcome (α : Type) where
  | done (a : α)
  | crash

/-- `websocket::get_key`. -/
def getKey (w : Websocket) : Outcome (Bool × Websocket) :=
  match strstr (w.cstr keySize) keyStrBegin with
  | none => .done (false, w)
  | some str1 =>
    match strstr (w.cstr (keySize + str1)) keyStrEnd with
    | none => .crash
    | some d =>
      let n := d - keyStrBegin.length
      let key := (List.range n).map fun i => w.mem (keySize + str1 + keyStrBegin.length + i)
      .done (true, (w.writeKey 0 key).writeKey n magicStr)

/-- `"HTTP/1.1 101 Switching Protocols\r\nUpgrade:websocket\r\nConnection:Upgrade\r\n"` and
`"Sec-WebSocket-Accept:"` -/
def retStr1 : List UInt8 :=
  [72, 84, 84, 80, 47, 49, 46, 49, 32, 49, 48, 49, 32, 83, 119, 105, 116, 99, 104, 105, 110, 103,
    32, 80, 114, 111, 116, 111, 99, 111, 108, 115, 13, 10, 85, 112, 103, 114, 97, 100, 101, 58, 119,
    101, 98, 115, 111, 99, 107, 101, 116, 13, 10, 67, 111, 110, 110, 101, 99, 116, 105, 111, 110,
    58, 85, 112, 103, 114, 97, 100, 101, 13, 10, 83, 101, 99, 45, 87, 101, 98, 83, 111, 99, 107,
    101, 116, 45, 65, 99, 99, 101, 112, 116, 58]

/-- `"\r\n\r\n"` -/
def retStr2 : List UInt8 := [13, 10, 13, 10]

/-- The effect of a call on a connection: the scratch state, the bytes left in its input buffer, the
bytes written to it, and the value returned. -/
structure Effect (α : Type) where
  ws : Websocket
  rest : List UInt8
  out : List UInt8
  ret : α

/-- `evbuffer_copyout(in, buf, len)`. -/
def copyout (w : Websocket) (input : List UInt8) (len : ℕ) : Websocket :=
  { w with buf := overwrite w.buf 0 (input.take len) }

/-- `websocket::hand_shake`. -/
def handShake (accept : List UInt8 → List UInt8) (w : Websocket) (input : List UInt8) :
    Outcome (Effect Bool) :=
  if bufSize < input.length then .done ⟨w, [], [], false⟩
  else
    let w := w.copyout input input.length
    -- The last four bytes; of a shorter request they begin in `key`.
    if (List.range 4).map (fun i => w.mem (keySize + input.length + i - 4)) ≠ retStr2 then
      .done ⟨w, input, [], false⟩
    else
      match w.getKey with
      | .crash => .crash
      | .done (false, w) => .done ⟨w, [], [], false⟩
      | .done (true, w) => .done ⟨w, [], retStr1 ++ accept (w.cstr 0) ++ retStr2, true⟩

/-- `websocket::handle_packet`. -/
def handlePacket (w : Websocket) (input : List UInt8) : Effect ℤ :=
  let len := if bufSize < input.length then bufSize else input.length
  let w := w.copyout input len
  let (r, realLen) := WebsocketRequest.reset.fetchWebsocketInfo fun r i =>
    ({ w with request := r } : Websocket).mem (keySize + i)
  let w := { w with request := r }
  if len < realLen then ⟨w, input, [], -2⟩
  else
    let rest := input.drop realLen
    if r.fin_ ≠ 1 then ⟨w, rest, [], -1⟩
    else if r.opcode_ ≠ 2 then
      if r.opcode_ = 9 ∨ r.opcode_ = 10 then ⟨w, rest, [], 0⟩ else ⟨w, rest, [], -1⟩
    else
      let w :=
        if 0 < r.payload_length_ then
          { w with buf := overwrite w.buf 0 (r.payload_.take r.payload_length_.toNat) }
        else w
      ⟨w, rest, [], r.payload_length_⟩

/-- `websocket::send_msg`: the bytes that it writes to the connection. -/
def sendMsg (id : ℤ) (p : List UInt8) (len : ℤ) : List UInt8 :=
  let realLen := len + 4
  if realLen < 126 then
    [130, UInt8.ofNat (realLen % 2^8).toNat] ++ beInt 2 len ++ beInt 2 id ++ p.take len.toNat
  else if realLen < 65536 then
    [130, 126] ++ beInt 2 realLen ++ beInt 2 len ++ beInt 2 id ++ p.take len.toNat
  else []

end Websocket

end Catse
