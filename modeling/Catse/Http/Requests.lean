import Catse.Http.Machine

/-!
# Requests to the http server

`Call.run_request` says which messages `cb_time` makes a request of: those with a string and, once
it is encoded, room for everything else. `MsgHttp.Holds` says what message `send` makes of an
address and a string, and `Holds.run` puts the two together: it becomes a request exactly if the
request for the two fits, and then that one.
-/

namespace Catse

namespace ThreadHttp

namespace Call

/-- A turn of the loop that fails has no room. -/
theorem putByte_error {c c' : Call} {t : UInt8} (h : c.putByte t = .error c') :
    bufSize < c.buf_len + (Percent.encodeByte isPlain t).length := by
  rw [putByte, urlencode] at h
  rw [Percent.encodeByte]
  rcases hplain : isPlain t with - | -
  · have hhead : (Percent.triple t ++ [0]).headD 0 ≠ 0 := show (37 : UInt8) ≠ 0 by decide
    rw [hplain, if_neg Bool.false_ne_true, if_pos hhead] at h
    rw [if_neg Bool.false_ne_true]
    split_ifs at h with hfull
    exact hfull
  · rw [hplain, if_pos rfl, if_neg (by decide)] at h
    rw [if_pos rfl]
    split_ifs at h with hfull
    exact Nat.lt_succ_of_le hfull

/-- A loop that fails has no room for the encoded bytes. -/
theorem putBytes_error {c c' : Call} {ts : List UInt8} (h : c.putBytes ts = .error c') :
    bufSize < c.buf_len + (Percent.encode isPlain ts).length := by
  induction ts generalizing c with
  | nil => cases h
  | cons t ts ih =>
    rw [Percent.encode, List.flatMap_cons, List.length_append]
    rw [putBytes] at h
    rcases putByte_spec c t with ⟨c₁, heq, -⟩ | ⟨c₁, heq, hext⟩
    · have hfull := putByte_error heq
      omega
    · rw [heq] at h
      have hfull := ih h
      have hlen : c₁.buf_len = c.buf_len + (Percent.encodeByte isPlain t).length := by
        have hcontents := congrArg List.length hext.contents
        rwa [contents, contents, List.length_append, length_prefixOf, length_prefixOf] at hcontents
      rw [Percent.encode] at hfull
      omega

/-- A request has room. -/
def Room (m : MsgHttp) (ip : List UInt8) : Prop :=
  (aa.length + 1) + (bb.length + 1) + (cc.length + 1) +
    (Percent.encode isPlain (prefixOf m.buf m.buf_len)).length + m.url_buf_len + ip.length ≤ bufSize

/-- Encoding does not shorten. -/
theorem length_le_encode (ts : List UInt8) : ts.length ≤ (Percent.encode isPlain ts).length := by
  induction ts with
  | nil => exact Nat.zero_le _
  | cons t ts ih =>
    have hpos : 1 ≤ (Percent.encodeByte isPlain t).length := by
      rw [Percent.encodeByte]
      split_ifs <;> simp [Percent.triple]
    rw [Percent.encode] at ih
    rw [Percent.encode, List.flatMap_cons, List.length_append, List.length_cons]
    omega

/-- The messages that become requests. -/
theorem run_request (buf : ℕ → UInt8) (m : MsgHttp) (ip : List UInt8) :
    (Call.run ⟨buf, 0, m, [], 0, none⟩ ip).request.isSome ↔ m.buf_len ≠ 0 ∧ Room m ip := by
  generalize hc : (⟨buf, 0, m, [], 0, none⟩ : Call) = c
  have hm : c.m = m := hc ▸ rfl
  have hrequest : c.request = none := hc ▸ rfl
  have hlen : c.buf_len = 0 := hc ▸ rfl
  rw [run, hm]
  by_cases hempty : m.buf_len = 0
  · rw [if_pos hempty, free, hrequest]
    simp [hempty]
  rw [if_neg hempty]
  have hle := length_le_encode (prefixOf m.buf m.buf_len)
  rw [length_prefixOf] at hle
  by_cases hlong : c.tooLong ip = true
  · have hlong' := of_decide_eq_true hlong
    rw [hm] at hlong'
    rw [if_pos hlong, free, hrequest]
    simp only [Option.isSome_none, Bool.false_eq_true, false_iff, not_and]
    intro _ hroom
    unfold Room at hroom
    omega
  rw [if_neg hlong]
  rcases putBytes_spec c (prefixOf m.buf m.buf_len) with ⟨c', heq, hend⟩ | ⟨c', heq, hext⟩
  · have hfull := putBytes_error heq
    rw [heq]
    simp only [hend.request, hrequest, Option.isSome_none, Bool.false_eq_true, false_iff, not_and]
    intro _ hroom
    unfold Room at hroom
    omega
  rw [heq]
  -- After the copy back the message has the encoded bytes.
  have hlen' : c'.buf_len = (Percent.encode isPlain (prefixOf m.buf m.buf_len)).length := by
    have hcontents := congrArg List.length hext.contents
    rw [contents, contents, List.length_append, length_prefixOf, length_prefixOf, hlen,
      Nat.zero_add] at hcontents
    exact hcontents
  have hback : c'.copyBack.tooLong ip = true ↔ ¬Room m ip := by
    have hurl : c'.copyBack.m.url_buf_len = m.url_buf_len := by
      rw [copyBack, hext.m, hm]
    have hblen : c'.copyBack.m.buf_len = c'.buf_len := rfl
    rw [tooLong, decide_eq_true_iff, hurl, hblen, hlen', Room]
    omega
  simp only
  by_cases hroom : Room m ip
  · rw [if_neg (fun h => hback.mp h hroom)]
    simp only [send, free, Option.isSome_some, hroom, ne_eq, hempty, not_false_eq_true, and_self]
  · rw [if_pos (hback.mpr hroom), free, copyBack, hext.request, hrequest]
    simp [hroom]

end Call

/-! ## What `send` asks for -/

/-- The address as `send` passes it: none when it is too long. -/
def urlOf (url : List UInt8) : List UInt8 := if url.length ≤ MsgHttp.urlSize then url else []

/-- The request for an address and a string. -/
def requestOf (ip url str : List UInt8) : List UInt8 :=
  Call.aa ++ urlOf url ++ Percent.encode isPlain str ++ Call.bb ++ ip ++ Call.cc

/-- There is a string, and room for the request with the NULs of the three literals. -/
def Fits (ip url str : List UInt8) : Prop :=
  str ≠ [] ∧ (requestOf ip url str).length + 3 ≤ bufSize

end ThreadHttp

open ThreadHttp

namespace MsgHttp

/-- The message for an address and a string. A string that is too long is left out. -/
structure Holds (m : MsgHttp) (url str : List UInt8) : Prop where
  buf : prefixOf m.buf m.buf_len = if str.length ≤ bufSize then str else []
  urlBuf : prefixOf m.urlBuf m.url_buf_len = urlOf url

/-- The length of a string, as an `int` and in the test of a size. -/
theorem length_toInt32 {l : List UInt8} (h : l.length < 2^31) :
    toInt32 (l.length : ℤ) = l.length :=
  toInt32_of_range (by omega)

theorem sizeLt_length (size : ℕ) {l : List UInt8} (h : l.length < 2^31) :
    sizeLt size (l.length : ℤ) = decide (size < l.length) := by
  rw [sizeLt_of_nonneg (by omega) (by omega)]
  exact decide_eq_decide.mpr Int.ofNat_lt

/-- A whole string at the start. -/
theorem prefixOf_store (mem : ℕ → UInt8) (l : List UInt8) :
    prefixOf (storeAt mem 0 (l.take (l.length : ℤ).toNat)) (l.length : ℤ).toNat = l := by
  have h := prefixOf_storeAt_length mem 0 l
  rw [Int.toNat_natCast, List.take_length]
  rwa [Nat.zero_add] at h

theorem writeString_buf (m : MsgHttp) {str : List UInt8} (h : str.length < 2^31) :
    prefixOf (m.writeString str).buf (m.writeString str).buf_len =
      if str.length ≤ bufSize then str else [] := by
  rw [writeString, length_toInt32 h, sizeLt_length bufSize h]
  by_cases hfits : str.length ≤ bufSize
  · rw [if_pos hfits, decide_eq_false (not_lt.mpr hfits)]
    exact prefixOf_store m.buf str
  · rw [if_neg hfits, decide_eq_true (not_le.mp hfits)]
    rfl

theorem writeUrlString_urlBuf (m : MsgHttp) {url : List UInt8} (h : url.length < 2^31) :
    prefixOf (m.writeUrlString url).urlBuf (m.writeUrlString url).url_buf_len = urlOf url := by
  rw [writeUrlString, length_toInt32 h, sizeLt_length urlSize h, urlOf]
  by_cases hfits : url.length ≤ urlSize
  · rw [if_pos hfits, decide_eq_false (not_lt.mpr hfits)]
    exact prefixOf_store m.urlBuf url
  · rw [if_neg hfits, decide_eq_true (not_le.mp hfits)]
    rfl

/-- The address does not change the string. -/
theorem putUrl_buf (m : MsgHttp) (tooLong : Bool) (len : ℤ) (url : List UInt8) :
    (m.putUrl tooLong len url).buf = m.buf ∧ (m.putUrl tooLong len url).buf_len = m.buf_len := by
  cases tooLong <;> exact ⟨rfl, rfl⟩

/-- What `send` writes. -/
theorem holds_write (m : MsgHttp) {url str : List UInt8} (hurl : url.length < 2^31)
    (hstr : str.length < 2^31) : ((m.writeString str).writeUrlString url).Holds url str where
  buf := by
    obtain ⟨hbuf, hlen⟩ := (m.writeString str).putUrl_buf
      (sizeLt urlSize (toInt32 url.length)) (toInt32 url.length) url
    rw [writeUrlString, hbuf, hlen]
    exact m.writeString_buf hstr
  urlBuf := (m.writeString str).writeUrlString_urlBuf hurl

/-- It becomes a request exactly if that fits, and then that one. -/
theorem Holds.run {m : MsgHttp} {url str : List UInt8} (h : m.Holds url str) (buf : ℕ → UInt8)
    (ip : List UInt8) :
    ((Call.run ⟨buf, 0, m, [], 0, none⟩ ip).request = none ∧ ¬Fits ip url str) ∨
      (Call.run ⟨buf, 0, m, [], 0, none⟩ ip).request = some (requestOf ip url str) ∧
        Fits ip url str := by
  have hiff := Call.run_request buf m ip
  have hdone := Call.run_done buf m ip
  have hurl := congrArg List.length h.urlBuf
  rw [length_prefixOf] at hurl
  have hlen := congrArg List.length h.buf
  rw [length_prefixOf] at hlen
  -- Whether it fits is the same of the message and of the string.
  have hfits : (m.buf_len ≠ 0 ∧ Call.Room m ip) ↔ Fits ip url str := by
    unfold Call.Room Fits requestOf
    rw [h.buf, hurl, hlen]
    simp only [List.length_append]
    have hle := Call.length_le_encode str
    by_cases hstr : str.length ≤ bufSize
    · rw [if_pos hstr, ← List.length_pos_iff]
      omega
    · rw [if_neg hstr]
      simp only [List.length_nil, ne_eq, not_true_eq_false, false_and, false_iff, not_and]
      omega
  rw [hfits] at hiff
  cases hrequest : (Call.run ⟨buf, 0, m, [], 0, none⟩ ip).request with
  | none =>
    rw [hrequest] at hiff
    exact .inl ⟨rfl, fun hf => absurd (hiff.mpr hf) (by simp)⟩
  | some r =>
    have hf : Fits ip url str := hiff.mp (by rw [hrequest]; rfl)
    refine .inr ⟨?_, hf⟩
    have hstr : str.length ≤ bufSize := by
      have hle := Call.length_le_encode str
      have hroom := hf.2
      simp only [requestOf, List.length_append] at hroom
      omega
    rw [hdone.request r hrequest, h.urlBuf, h.buf, if_pos hstr, requestOf]

end MsgHttp

end Catse
