import Catse.Logic.Base64
import Catse.Logic.Handshake
import Catse.Logic.Sha1

/-!
# The key that answers a handshake

`serverKey` is what `hand_shake` computes between the key of the request and the answer: SHA-1, the
digest in network order, and Base64. `browsers_accepted` is about a server that sees browsers, whose
keys all have the same length: whatever requests and packets came before, the next request gets the
answer of RFC 6455, computed with the hash and the encoding of their own standards.
-/

namespace Catse

namespace Websocket

/-- `htonl` on a little-endian machine. -/
def htonl (w : UInt32) : UInt32 := wordLE (beBytes 4 w.toNat)

/-- The words as they lie in memory. -/
def digestBytes (d : Fips180.Words5) : List UInt8 :=
  leBytes 4 d.a.toNat ++ leBytes 4 d.b.toNat ++ leBytes 4 d.c.toNat ++ leBytes 4 d.d.toNat ++
    leBytes 4 d.e.toNat

/-- The new key that `hand_shake` computes, where `sha` and `message_digest` are what lies on the
stack before. -/
def serverKey (sha : SHA1) (message_digest : Fips180.Words5) (server_key : List UInt8) :
    List UInt8 :=
  let sha := sha.reset
  let sha := sha.reset
  let sha := sha.inputStr server_key
  let d := sha.result.1.getD message_digest
  base64Encode (digestBytes ⟨htonl d.a, htonl d.b, htonl d.c, htonl d.d, htonl d.e⟩)

/-- The octets of a digest. -/
def octetsOf (d : Fips180.Words5) : List UInt8 :=
  beBytes 4 d.a.toNat ++ beBytes 4 d.b.toNat ++ beBytes 4 d.c.toNat ++ beBytes 4 d.d.toNat ++
    beBytes 4 d.e.toNat

/-- `Sec-WebSocket-Accept` of RFC 6455 for a key. -/
def rfcAccept (k : List UInt8) : List UInt8 :=
  Base64.encode base64Chars (octetsOf (Fips180.sha1 (k ++ magicStr)))

/-- The bytes of a word in network order are those of the word that `htonl` makes. -/
theorem leBytes_htonl (w : UInt32) : leBytes 4 (htonl w).toNat = beBytes 4 w.toNat := by
  have hlt := ofLE_lt (beBytes 4 w.toNat)
  have hback := leBytes_ofLE (beBytes 4 w.toNat)
  rw [length_beBytes] at hlt hback
  rw [htonl, wordLE, UInt32.toNat_ofNat', Nat.mod_eq_of_lt hlt, hback]

/-- The new key is that of the standards. -/
theorem serverKey_eq (sha : SHA1) (d : Fips180.Words5) {m : List UInt8} (hm : m.length < 2^61) :
    serverKey sha d m = Base64.encode base64Chars (octetsOf (Fips180.sha1 m)) := by
  have hread := (SHA1.stands_reset sha.reset).inputStr m
  have hstate : SHA1.Abstract.input m (.reading []) = .reading m := by
    rw [SHA1.Abstract.input, List.nil_append, if_pos hm]
  rw [hstate] at hread
  have hresult : (sha.reset.reset.inputStr m).result.1 = some (Fips180.sha1 m) := hread.result.1
  simp only [serverKey, hresult, Option.getD_some, base64Encode_eq, digestBytes, leBytes_htonl,
    octetsOf]

/-- `"dGhlIHNhbXBsZSBub25jZQ=="`, the key of the example in RFC 6455. -/
def sampleKey : List UInt8 := "dGhlIHNhbXBsZSBub25jZQ==".toUTF8.toList

/-- An object in memory that is all zeros. -/
def sampleSha : SHA1 := ⟨⟨0, 0, 0, 0, 0⟩, 0, 0, fun _ => 0, 0, false, false⟩

example : serverKey sampleSha ⟨0, 0, 0, 0, 0⟩
    (sampleKey ++ magicStr) = "s3pPLMBiTxaQ9kYGzzhZRbK+xOo=".toUTF8.toList := by
  decide +kernel

/-! ## Browsers -/

/-- A request with a key of `n` characters: whole, not too long, without a zero byte, and with the
name of the header first where the header is. -/
structure Browser (n : ℕ) (request k : List UInt8) : Prop where
  fits : request.length ≤ bufSize
  ends : retStr2 <:+ request
  visible : 0 ∉ request
  header : headerValue request = some k
  first : firstValue request = some k
  length : k.length = n

/-- Calls that a server gets from browsers: a request that is not yet whole, or is too long, may be
anything, and so may a packet. -/
def FromBrowsers (n : ℕ) (_ : Websocket) : Call → Prop
  | .handShake request =>
    (∃ k, Browser n request k) ∨ ¬ retStr2 <:+ request ∨ bufSize < request.length
  | .handlePacket _ => True

/-- Nothing stands in `key` from its `n`-th byte on. -/
structure Unused (n : ℕ) (w : Websocket) : Prop where
  sized : w.Sized
  zero : ∀ i, n ≤ i → i < keySize → w.key.getD i 0 = 0

theorem Unused.copyout {n : ℕ} {w : Websocket} (hw : Unused n w) {input : List UInt8}
    (hlen : input.length ≤ bufSize) : Unused n (w.copyout input input.length) :=
  ⟨hw.sized.copyout hlen, hw.zero⟩

/-- A key with `n` bytes, the magic string with them, leaves the rest as it is. -/
theorem Unused.writeKey {n : ℕ} {w : Websocket} (hw : Unused n w) {v : List UInt8}
    (hv : v.length + magicStr.length = n) (hn : n ≤ keySize) :
    Unused n ((w.writeKey 0 v).writeKey v.length magicStr) := by
  have hfit : v.length + magicStr.length ≤ keySize + bufSize := by omega
  refine ⟨hw.sized.writeKey.writeKey, fun i hi hlt => ?_⟩
  have hall := append_writeKey_writeKey hw.sized hfit
  have hsized : ((w.writeKey 0 v).writeKey v.length magicStr).Sized := hw.sized.writeKey.writeKey
  have hget := congrArg (·.getD i 0) hall
  have hkey := hsized.key
  have hlen : (v ++ magicStr).length = n := by rw [List.length_append, hv]
  simp only [List.getD_eq_getElem?_getD] at hget ⊢
  rw [List.getElem?_append_left (by omega), List.getElem?_append_right (by omega),
    List.getElem?_drop, hlen, hv, Nat.add_sub_cancel' hi,
    List.getElem?_append_left (by rw [hw.sized.key]; exact hlt)] at hget
  rw [hget, ← List.getD_eq_getElem?_getD]
  exact hw.zero i hi hlt

/-- `handle_packet` does not write to `key`. -/
theorem Unused.handlePacket {n : ℕ} {w : Websocket} (hw : Unused n w) (input : List UInt8) :
    Unused n (w.handlePacket input).ws := by
  refine ⟨hw.sized.handlePacket input, ?_⟩
  have hkey : (w.handlePacket input).ws.key = w.key := by
    unfold Websocket.handlePacket
    dsimp only
    generalize WebsocketRequest.reset.fetchWebsocketInfo _ = e
    obtain ⟨r, realLen⟩ := e
    dsimp only [Websocket.copyout]
    split_ifs <;> rfl
  rw [hkey]
  exact hw.zero

/-- What `hand_shake` takes for the end of the request is its end: with less than four bytes, the
last byte of `key` is among the four that it compares. -/
theorem Unused.last_four {n : ℕ} {w : Websocket} (hw : Unused n w) (hn : n < keySize)
    {request : List UInt8} (hnot : ¬ retStr2 <:+ request) :
    (List.range 4).map (fun i => (w.copyout request request.length).mem
      (keySize + request.length + i - 4)) ≠ retStr2 := by
  intro heq
  have hkey := hw.sized.key
  have hmem : ∀ i, i < 4 → (w.copyout request request.length).mem
      (keySize + request.length + i - 4) = retStr2.getD i 0 := by
    intro i hi
    have hget := congrArg (·.getD i 0) heq
    simpa [List.getD_eq_getElem?_getD, hi] using hget
  by_cases hshort : request.length < 4
  · -- The last byte of `key` is zero, and none of the four of `"\r\n\r\n"` is.
    have hlast := hmem (3 - request.length) (by omega)
    have hindex : keySize + request.length + (3 - request.length) - 4 = keySize - 1 := by omega
    have hzero := hw.zero (keySize - 1) (by omega) (by omega)
    rw [hindex, mem, image, Websocket.copyout, List.append_assoc, List.getD_eq_getElem?_getD,
      List.getElem?_append_left (by rw [hkey]; omega), ← List.getD_eq_getElem?_getD] at hlast
    have hnonzero : ∀ i < 4, retStr2.getD i 0 ≠ 0 := by decide
    exact hnonzero _ (by omega) (hlast.symm.trans hzero)
  · apply hnot
    have hdrop : request.drop (request.length - 4) = retStr2 := by
      refine List.ext_getElem ?_ fun i hi hi' => ?_
      · rw [List.length_drop]
        show _ = 4
        omega
      · have hi4 : i < 4 := hi'
        have hbyte := hmem i hi4
        have hindex : keySize + request.length + i - 4 =
            keySize + (request.length - 4 + i) := by omega
        simp only [mem, image, Websocket.copyout, overwrite, List.take_length, List.take_zero,
          List.nil_append, List.getD_eq_getElem?_getD, List.append_assoc] at hbyte
        rw [hindex, List.getElem?_append_right (by omega), hkey, Nat.add_sub_cancel_left,
          List.getElem?_append_left (by omega), List.getElem?_eq_getElem (by omega),
          List.getElem?_eq_getElem hi'] at hbyte
        rw [List.getElem_drop]
        exact hbyte
    rw [← hdrop]
    exact List.drop_suffix _ _

/-- A C string that begins with its terminator. -/
theorem cstr_of_mem {w : Websocket} {n : ℕ} (h : w.mem n = 0) : w.cstr n = [] := by
  rw [cstr]
  cases hdrop : w.image.drop n with
  | nil => rfl
  | cons b l =>
    have hb : w.mem n = b := by
      rw [mem, List.getD_eq_getElem?_getD, ← Nat.add_zero n, ← List.getElem?_drop, hdrop]
      rfl
    rw [List.takeWhile_cons_of_neg]
    simp [← hb, h]

/-- What earlier requests have left does no harm to that of a browser. -/
theorem Browser.clean {n : ℕ} {w : Websocket} {request k : List UInt8} (h : Browser n request k)
    (hw : Unused (n + magicStr.length) w) (hn : n + magicStr.length < keySize) :
    w.Clean request := by
  have hfirst : firstValue (Websocket.visible request) = some k := by
    rw [visible_of_not_mem h.visible]
    exact h.first
  rw [clean_iff_of_firstValue h.header hfirst, h.length]
  have hcopy := hw.copyout h.fits
  apply cstr_of_mem
  rw [mem, image, List.append_assoc, List.getD_eq_getElem?_getD,
    List.getElem?_append_left (by rw [hcopy.sized.key]; exact hn), ← List.getD_eq_getElem?_getD]
  exact hcopy.zero (n + magicStr.length) (Nat.le_refl _) hn

/-- What `hand_shake` does with the request of a browser. -/
theorem Browser.handShake {n : ℕ} {w : Websocket} {request k : List UInt8}
    (h : Browser n request k) (hw : Unused (n + magicStr.length) w)
    (hn : n + magicStr.length < keySize) (accept : List UInt8 → List UInt8) :
    ∃ e, w.handShake accept request = .done e ∧ e.ret = true ∧ e.rest = [] ∧
      e.out = retStr1 ++ accept (k ++ magicStr) ++ retStr2 ∧
      Unused (n + magicStr.length) e.ws := by
  obtain ⟨e, he, hanswer⟩ := (answers_iff hw.sized h.fits h.ends).mpr (h.clean hw hn) accept
  rw [answer, h.header] at hanswer
  obtain ⟨hret, hout⟩ := Prod.mk.inj hanswer
  have hcopy := hw.copyout h.fits
  have hvalue : firstValue ((w.copyout request request.length).cstr keySize) = some k := by
    rw [firstValue_cstr hw.sized h.ends h.header, visible_of_not_mem h.visible]
    exact h.first
  rw [handShake_eq hw.sized accept h.fits h.ends, getKey_value hvalue] at he
  dsimp only at he
  have hunused := hcopy.writeKey (v := k) (by rw [h.length]) (Nat.le_of_lt hn)
  refine ⟨e, ?_, hret, ?_, hout, ?_⟩
  · rw [handShake_eq hw.sized accept h.fits h.ends, getKey_value hvalue]
    exact he
  · rw [← Outcome.done.inj he]
  · rw [← Outcome.done.inj he]
    exact hunused

/-- With calls from browsers only, no more of `key` is ever used than one key and the magic string
need. -/
theorem unused_of_browsers {n : ℕ} (hn : n + magicStr.length < keySize)
    {accept : List UInt8 → List UInt8} {w : Websocket}
    (run : Reach (call accept) init (FromBrowsers n) w) : Unused (n + magicStr.length) w := by
  apply run.invariant
  · refine ⟨⟨List.length_replicate, List.length_replicate⟩, fun i _ hi => ?_⟩
    rw [init, List.getD_eq_getElem?_getD, List.getElem?_replicate, if_pos hi]
    rfl
  · intro w c w' _ hw hok hstep
    cases c with
    | handlePacket input =>
      rw [← Option.some.inj hstep]
      exact hw.handlePacket input
    | handShake request =>
      rw [call] at hstep
      by_cases hlong : bufSize < request.length
      · rw [Websocket.handShake, if_pos hlong] at hstep
        rw [← Option.some.inj hstep]
        exact hw
      · rcases hok with ⟨k, hk⟩ | hpart | hover
        · obtain ⟨e, he, -, -, -, hunused⟩ := hk.handShake hw (by omega) accept
          rw [he] at hstep
          rw [← Option.some.inj hstep]
          exact hunused
        · have hfour := hw.last_four hn hpart
          rw [Websocket.handShake, if_neg hlong] at hstep
          dsimp only at hstep
          rw [if_pos hfour] at hstep
          rw [← Option.some.inj hstep]
          exact hw.copyout (by omega)
        · exact absurd hover hlong

/-- A server that only browsers call, whose keys all have the same length, gives the next of their
requests the answer of RFC 6455, whatever requests and packets came before. -/
theorem browsers_accepted {n : ℕ} (hn : n + magicStr.length < keySize) (sha : SHA1)
    (d : Fips180.Words5) {w : Websocket}
    (run : Reach (call (serverKey sha d)) init (FromBrowsers n) w) {request k : List UInt8}
    (hbrowser : Browser n request k) :
    ∃ e, w.handShake (serverKey sha d) request = .done e ∧ e.ret = true ∧ e.rest = [] ∧
      e.out = retStr1 ++ rfcAccept k ++ retStr2 := by
  obtain ⟨e, he, hret, hrest, hout, -⟩ :=
    hbrowser.handShake (unused_of_browsers hn run) (by omega) (serverKey sha d)
  refine ⟨e, he, hret, hrest, ?_⟩
  have hlen := hbrowser.length
  have hshort : (k ++ magicStr).length < 2^61 := by
    have hsize : keySize = 128 := rfl
    rw [List.length_append]
    omega
  rw [hout, serverKey_eq sha d hshort, rfcAccept]

/-- The request that the standard has as its example, with only the header. -/
theorem sampleBrowser : Browser 24 (keyRequest sampleKey) sampleKey where
  fits := by decide +kernel
  ends := ⟨keyStrBegin ++ sampleKey, rfl⟩
  visible := by decide +kernel
  header := by decide +kernel
  first := by decide +kernel
  length := by decide +kernel

/-- The second of two browsers, which both send the key that the standard has as its example. -/
theorem browsers_accepted_second : ∃ w, Reach (call (serverKey sampleSha ⟨0, 0, 0, 0, 0⟩)) init
    (FromBrowsers 24) w ∧ ∃ e, w.handShake (serverKey sampleSha ⟨0, 0, 0, 0, 0⟩)
      (keyRequest sampleKey) = .done e ∧ e.ret = true ∧ e.rest = [] ∧
      e.out = retStr1 ++ rfcAccept sampleKey ++ retStr2 := by
  have hstart : Reach (call (serverKey sampleSha ⟨0, 0, 0, 0, 0⟩)) init (FromBrowsers 24) init :=
    .start
  have hunused := unused_of_browsers (by decide) hstart
  obtain ⟨e, he, -⟩ := sampleBrowser.handShake hunused (by decide)
    (serverKey sampleSha ⟨0, 0, 0, 0, 0⟩)
  have run : Reach (call (serverKey sampleSha ⟨0, 0, 0, 0, 0⟩)) init (FromBrowsers 24) e.ws :=
    .next (a := .handShake (keyRequest sampleKey)) .start (Or.inl ⟨sampleKey, sampleBrowser⟩) (by
      rw [call, he])
  exact ⟨e.ws, run, browsers_accepted (by decide) sampleSha ⟨0, 0, 0, 0, 0⟩ run sampleBrowser⟩

end Websocket

end Catse
