import Catse.Common.MsgPool
import Catse.Common.MsgQueue
import Catse.Lib.Memory
import Catse.Lib.Percent
import Catse.Lib.Printf

/-!
# The requests of `thread_http.h`

`cb_time` takes a message from its queue once the connection is there, writes the parameters of the
message percent-encoded into a local buffer, copies them back into the message, and puts the request
together in the local buffer. `ThreadHttp.Call` is the state of this part: the two buffers, where
bytes have been written so far, and how often the message has been given back to the pool.
-/

namespace Catse

open Printf

/-- `msg_http`. The arrays are memory from their start on. -/
structure MsgHttp where
  buf : ℕ → UInt8
  urlBuf : ℕ → UInt8
  buf_len : ℕ
  url_buf_len : ℕ

/-- The two buffers that `cb_time` writes to, both with 65536 * 8 bytes. -/
inductive HttpBuf where
  | buf
  | msgBuf
  deriving DecidableEq

namespace ThreadHttp

/-- `sizeof(m->buf)`. -/
def bufSize : ℕ := 65536 * 8

/-- A letter or a digit. -/
def isPlain (t : UInt8) : Bool := (48 ≤ t && t ≤ 57) || (65 ≤ t && t ≤ 90) || (97 ≤ t && t ≤ 122)

/-- `urlencode[t]`, which `init` has left zero for letters and digits. -/
def urlencode (t : UInt8) : List UInt8 :=
  if isPlain t then [0, 0, 0, 0] else Percent.triple t ++ [0]

/-- A call of `cb_time` that has popped the message `m`. A write is its buffer, its offset and its
number of bytes. -/
structure Call where
  buf : ℕ → UInt8
  buf_len : ℕ
  m : MsgHttp
  writes : List (HttpBuf × ℕ × ℕ)
  freed : ℕ
  request : Option (List UInt8)

namespace Call

/-- `memcpy(buf + buf_len, bs, n); buf_len += n`. -/
def copy (c : Call) (bs : List UInt8) : Call :=
  { c with
    buf := storeAt c.buf c.buf_len bs
    buf_len := c.buf_len + bs.length
    writes := c.writes ++ [(.buf, c.buf_len, bs.length)] }

/-- `http_send_pool.free(m)`. -/
def free (c : Call) : Call := { c with freed := c.freed + 1 }

/-- `memcpy(m->buf, buf, buf_len); m->buf_len = buf_len`. -/
def copyBack (c : Call) : Call :=
  { c with
    m := { c.m with buf := storeAt c.m.buf 0 (prefixOf c.buf c.buf_len), buf_len := c.buf_len }
    writes := c.writes ++ [(.msgBuf, 0, c.buf_len)] }

/-- One turn of the loop. A call that returns has given the message back. -/
def putByte (c : Call) (t : UInt8) : Except Call Call :=
  if (urlencode t).headD 0 ≠ 0 then
    if bufSize < c.buf_len + 3 then .error c.free else .ok (c.copy ((urlencode t).take 3))
  else if bufSize ≤ c.buf_len then .error c.free
  else .ok (c.copy [t])

/-- The loop. -/
def putBytes (c : Call) : List UInt8 → Except Call Call
  | [] => .ok c
  | t :: ts => do
    let c ← c.putByte t
    c.putBytes ts

/-- `aa`, `bb` and `cc`. -/
def aa : List UInt8 := literal "GET "
def bb : List UInt8 := literal " HTTP/1.1\nHost:"
def cc : List UInt8 := literal "\n\n"

/-- The test of the size of a request, with the NULs of the three literals. -/
def tooLong (c : Call) (ip : List UInt8) : Bool :=
  decide (bufSize < (aa.length + 1) + (bb.length + 1) + (cc.length + 1) + c.m.buf_len +
    c.m.url_buf_len + ip.length)

/-- The request, and the end of the call. -/
def send (c : Call) (ip : List UInt8) : Call :=
  let c := { c with buf_len := 0 }
  let c := c.copy aa
  let c := c.copy (prefixOf c.m.urlBuf c.m.url_buf_len)
  let c := c.copy (prefixOf c.m.buf c.m.buf_len)
  let c := c.copy bb
  let c := c.copy ip
  let c := c.copy cc
  { c with request := some (prefixOf c.buf c.buf_len) }.free

/-- `cb_time` from the test of `m->buf_len` on. -/
def run (c : Call) (ip : List UInt8) : Call :=
  if c.m.buf_len = 0 then c.free
  else if c.tooLong ip then c.free
  else
    match c.putBytes (prefixOf c.m.buf c.m.buf_len) with
    | .error c => c
    | .ok c => if c.copyBack.tooLong ip then c.copyBack.free else c.copyBack.send ip

end Call

end ThreadHttp

/-- `thread_http`, with the pool of `global` and the messages in its slots. -/
structure ThreadHttp where
  be : Bool
  connect_state : ℕ
  ip : List UInt8
  length_ip : ip.length < 64
  q_http_send : MsgQueue ℕ
  http_send_pool : MsgStackPool
  list : ℕ → MsgHttp

namespace ThreadHttp

/-- `cb_time`: whether `bufferevent_socket_new` gives a connection, whether
`bufferevent_socket_connect` starts it, and the bytes on the stack. With the state comes the call
that has popped a message, if there is one. -/
def cbTime (created connects : Bool) (buf : ℕ → UInt8) (h : ThreadHttp) :
    ThreadHttp × Option Call :=
  match h.q_http_send.getfront with
  | none => (h, none)
  | some _ =>
    if !h.be && !created then (h, none)
    else
      let h := if h.be then h else { h with be := true, connect_state := 0 }
      if h.connect_state = 0 then
        if connects then ({ h with connect_state := 1 }, none) else (h, none)
      else if h.connect_state = 1 then (h, none)
      else
        match h.q_http_send.pop with
        | (none, _) => (h, none)
        | (some i, q) =>
          let c := Call.run ⟨buf, 0, h.list i, [], 0, none⟩ h.ip
          ({ h with
              q_http_send := q
              http_send_pool := (fun p => (p.free i).2)^[c.freed] h.http_send_pool
              list := Function.update h.list i c.m }, some c)

/-! ## What a call writes -/

namespace Call

/-- All bytes are written inside the two buffers. -/
def InBounds (writes : List (HttpBuf × ℕ × ℕ)) : Prop := ∀ w ∈ writes, w.2.1 + w.2.2 ≤ bufSize

theorem inBounds_concat {writes : List (HttpBuf × ℕ × ℕ)} (h : InBounds writes) (b : HttpBuf)
    {off len : ℕ} (hlen : off + len ≤ bufSize) : InBounds (writes ++ [(b, off, len)]) := by
  intro w hw
  rcases List.mem_append.mp hw with hw | hw
  · exact h w hw
  · rw [List.mem_singleton.mp hw]
    exact hlen

/-- The bytes of the local buffer. -/
def contents (c : Call) : List UInt8 := prefixOf c.buf c.buf_len

@[simp] theorem contents_copy (c : Call) (bs : List UInt8) :
    (c.copy bs).contents = c.contents ++ bs :=
  prefixOf_storeAt_length c.buf c.buf_len bs

/-- The call goes on with `bs` behind what it has written. -/
structure Extends (c c' : Call) (bs : List UInt8) : Prop where
  contents : c'.contents = c.contents ++ bs
  m : c'.m = c.m
  freed : c'.freed = c.freed
  request : c'.request = c.request
  inBounds : InBounds c.writes → InBounds c'.writes
  buf_len_le : c.buf_len ≤ bufSize → c'.buf_len ≤ bufSize

/-- The call has given the message back without a request. -/
structure Ends (c c' : Call) : Prop where
  freed : c'.freed = c.freed + 1
  request : c'.request = c.request
  inBounds : InBounds c.writes → InBounds c'.writes

theorem Extends.trans {c c' c'' : Call} {bs bs' : List UInt8} (h : c.Extends c' bs)
    (h' : c'.Extends c'' bs') : c.Extends c'' (bs ++ bs') where
  contents := by rw [h'.contents, h.contents, List.append_assoc]
  m := h'.m.trans h.m
  freed := h'.freed.trans h.freed
  request := h'.request.trans h.request
  inBounds := fun hc => h'.inBounds (h.inBounds hc)
  buf_len_le := fun hc => h'.buf_len_le (h.buf_len_le hc)

theorem Extends.ends {c c' c'' : Call} {bs : List UInt8} (h : c.Extends c' bs) (h' : c'.Ends c'') :
    c.Ends c'' where
  freed := by rw [h'.freed, h.freed]
  request := h'.request.trans h.request
  inBounds := fun hc => h'.inBounds (h.inBounds hc)

theorem extends_copy (c : Call) {bs : List UInt8} (h : c.buf_len + bs.length ≤ bufSize) :
    c.Extends (c.copy bs) bs where
  contents := contents_copy c bs
  m := rfl
  freed := rfl
  request := rfl
  inBounds := fun hc => inBounds_concat hc .buf h
  buf_len_le := fun _ => h

theorem ends_free (c : Call) : c.Ends c.free := ⟨rfl, rfl, id⟩

/-- What a turn of the loop comes to. -/
theorem putByte_spec (c : Call) (t : UInt8) :
    (∃ c', c.putByte t = .error c' ∧ c.Ends c') ∨
      ∃ c', c.putByte t = .ok c' ∧ c.Extends c' (Percent.encodeByte isPlain t) := by
  rw [putByte, urlencode, Percent.encodeByte]
  rcases hplain : isPlain t with - | -
  · have hhead : (Percent.triple t ++ [0]).headD 0 ≠ 0 := show (37 : UInt8) ≠ 0 by decide
    rw [if_neg Bool.false_ne_true, if_neg Bool.false_ne_true, if_pos hhead]
    split_ifs with hfull
    · exact .inl ⟨_, rfl, ends_free c⟩
    · exact .inr ⟨_, rfl, extends_copy c (not_lt.mp hfull)⟩
  · rw [if_pos rfl, if_pos rfl, if_neg (by decide)]
    split_ifs with hfull
    · exact .inl ⟨_, rfl, ends_free c⟩
    · exact .inr ⟨_, rfl, extends_copy c (not_le.mp hfull)⟩

/-- What the loop comes to. -/
theorem putBytes_spec (c : Call) (ts : List UInt8) :
    (∃ c', c.putBytes ts = .error c' ∧ c.Ends c') ∨
      ∃ c', c.putBytes ts = .ok c' ∧ c.Extends c' (Percent.encode isPlain ts) := by
  induction ts generalizing c with
  | nil =>
    refine .inr ⟨c, rfl, (List.append_nil _).symm, rfl, rfl, rfl, id, id⟩
  | cons t ts ih =>
    rw [putBytes, Percent.encode, List.flatMap_cons]
    rcases putByte_spec c t with ⟨c', heq, hend⟩ | ⟨c', heq, hext⟩
    · exact .inl ⟨c', by rw [heq]; rfl, hend⟩
    · rcases ih c' with ⟨c'', heq', hend⟩ | ⟨c'', heq', hext'⟩
      · exact .inl ⟨c'', by rw [heq]; exact heq', hext.ends hend⟩
      · exact .inr ⟨c'', by rw [heq]; exact heq', hext.trans hext'⟩

/-- Copies one behind the other. -/
theorem extends_copies (c : Call) {bss : List (List UInt8)}
    (h : c.buf_len + bss.flatten.length ≤ bufSize) : c.Extends (bss.foldl copy c) bss.flatten := by
  induction bss generalizing c with
  | nil => exact ⟨(List.append_nil _).symm, rfl, rfl, rfl, id, id⟩
  | cons bs bss ih =>
    rw [List.flatten_cons, List.length_append] at h
    have hrest : (c.copy bs).buf_len + bss.flatten.length ≤ bufSize := by
      rw [show (c.copy bs).buf_len = c.buf_len + bs.length from rfl]
      omega
    exact (extends_copy c (by omega)).trans (ih (c.copy bs) hrest)

/-- The pieces of a request. -/
def pieces (m : MsgHttp) (ip : List UInt8) : List (List UInt8) :=
  [aa, prefixOf m.urlBuf m.url_buf_len, prefixOf m.buf m.buf_len, bb, ip, cc]

/-- A request that passes the test is written inside the buffer. -/
theorem send_spec {c : Call} {ip : List UInt8} (h : c.tooLong ip = false)
    (hin : InBounds c.writes) :
    (c.send ip).freed = c.freed + 1 ∧ InBounds (c.send ip).writes ∧
      (c.send ip).request = some (pieces c.m ip).flatten := by
  have hlen : 0 + (pieces c.m ip).flatten.length ≤ bufSize := by
    rw [tooLong, decide_eq_false_iff_not, not_lt] at h
    simp only [pieces, List.flatten_cons, List.flatten_nil, List.length_append, length_prefixOf,
      List.length_nil]
    omega
  have hext := extends_copies { c with buf_len := 0 } hlen
  refine ⟨congrArg (· + 1) hext.freed, hext.inBounds hin, ?_⟩
  exact congrArg some hext.contents

/-- What a call with a message comes to: it has given the message back once, and a request that it
has written has the parameters encoded. -/
structure Done (m : MsgHttp) (ip : List UInt8) (c : Call) : Prop where
  freed : c.freed = 1
  inBounds : InBounds c.writes
  request : ∀ r, c.request = some r → r = aa ++ prefixOf m.urlBuf m.url_buf_len ++
    Percent.encode isPlain (prefixOf m.buf m.buf_len) ++ bb ++ ip ++ cc

theorem Ends.done {c c' : Call} (h : c.Ends c') (hfreed : c.freed = 0) (hrequest : c.request = none)
    (hin : InBounds c.writes) (m : MsgHttp) (ip : List UInt8) : c'.Done m ip where
  freed := by rw [h.freed, hfreed]
  inBounds := h.inBounds hin
  request := fun r hr => by
    rw [h.request, hrequest] at hr
    cases hr

theorem run_done (buf : ℕ → UInt8) (m : MsgHttp) (ip : List UInt8) :
    (Call.run ⟨buf, 0, m, [], 0, none⟩ ip).Done m ip := by
  generalize hc : (⟨buf, 0, m, [], 0, none⟩ : Call) = c
  have hm : c.m = m := hc ▸ rfl
  have hfreed : c.freed = 0 := hc ▸ rfl
  have hrequest : c.request = none := hc ▸ rfl
  have hlen : c.buf_len = 0 := hc ▸ rfl
  have hin : InBounds c.writes := hc ▸ fun w hw => (List.not_mem_nil hw).elim
  rw [run]
  split_ifs with hempty hlong
  · exact (ends_free c).done hfreed hrequest hin m ip
  · exact (ends_free c).done hfreed hrequest hin m ip
  rcases putBytes_spec c (prefixOf c.m.buf c.m.buf_len) with ⟨c', heq, hend⟩ | ⟨c', heq, hext⟩
  · rw [heq]
    exact hend.done hfreed hrequest hin m ip
  rw [heq]
  have hle : c'.buf_len ≤ bufSize := hext.buf_len_le (hlen ▸ Nat.zero_le _)
  have hback : InBounds c'.copyBack.writes :=
    inBounds_concat (hext.inBounds hin) .msgBuf ((Nat.zero_add _).le.trans hle)
  simp only
  split_ifs with hlong'
  · exact ⟨by rw [free, copyBack, hext.freed, hfreed], hback, fun r hr => by
      rw [free, copyBack, hext.request, hrequest] at hr
      cases hr⟩
  · obtain ⟨hfree, hwrites, hreq⟩ := send_spec (Bool.eq_false_iff.mpr hlong') hback
    refine ⟨by rw [hfree, copyBack, hext.freed, hfreed], hwrites, fun r hr => ?_⟩
    -- The parameters are read from the message, into which they have been copied back.
    have hparam : prefixOf c'.copyBack.m.buf c'.copyBack.m.buf_len =
        Percent.encode isPlain (prefixOf m.buf m.buf_len) := by
      have hcopy := prefixOf_storeAt_length c'.m.buf 0 (prefixOf c'.buf c'.buf_len)
      rw [Nat.zero_add, length_prefixOf] at hcopy
      refine hcopy.trans (hext.contents.trans ?_)
      rw [contents, hlen, hm]
      rfl
    have hurl : prefixOf c'.copyBack.m.urlBuf c'.copyBack.m.url_buf_len =
        prefixOf m.urlBuf m.url_buf_len := by
      rw [copyBack, hext.m, hm]
    rw [← Option.some.inj (hreq.symm.trans hr), pieces, hparam, hurl]
    simp only [List.flatten_cons, List.flatten_nil, List.append_nil, List.append_assoc]

end Call

/-! ## `cb_time` -/

theorem getfront_of_pop {α : Type} {q q' : MsgQueue α} {x : α} (h : q.pop = (some x, q')) :
    q.getfront = some x := by
  rw [MsgQueue.pop] at h
  rw [MsgQueue.getfront]
  split_ifs at h ⊢ with hempty
  · cases h
  · exact congrArg Prod.fst h

/-- A message that is popped while the connection is there: nothing is written outside the two
buffers, the message goes back to the pool once, and the parameters of a request that is written are
plain bytes and triples that stand for those of the message. -/
theorem cbTime_popped (created connects : Bool) (buf : ℕ → UInt8) {h : ThreadHttp}
    (hbe : h.be = true) (hstate : h.connect_state = 2) {i : ℕ} {q : MsgQueue ℕ}
    (hpop : h.q_http_send.pop = (some i, q)) :
    ∃ c, (cbTime created connects buf h).2 = some c ∧ c.freed = 1 ∧
      (cbTime created connects buf h).1.q_http_send = q ∧
      (cbTime created connects buf h).1.http_send_pool = (h.http_send_pool.free i).2 ∧
      (∀ w ∈ c.writes, w.2.1 + w.2.2 ≤ bufSize) ∧
      ∀ r, c.request = some r → ∃ param,
        r = Call.aa ++ prefixOf (h.list i).urlBuf (h.list i).url_buf_len ++ param ++ Call.bb ++
          h.ip ++ Call.cc ∧
        Percent.IsEncoded isPlain param ∧
        Percent.decode param = prefixOf (h.list i).buf (h.list i).buf_len := by
  have hdone := Call.run_done buf (h.list i) h.ip
  have hrun : cbTime created connects buf h =
      ({ h with
          q_http_send := q
          http_send_pool := (h.http_send_pool.free i).2
          list := Function.update h.list i (Call.run ⟨buf, 0, h.list i, [], 0, none⟩ h.ip).m },
        some (Call.run ⟨buf, 0, h.list i, [], 0, none⟩ h.ip)) := by
    rw [cbTime, getfront_of_pop hpop]
    simp only [hbe, hstate, hpop, hdone.freed, Bool.not_true, Bool.false_and, Bool.false_eq_true,
      if_false, if_true, OfNat.ofNat_ne_zero, OfNat.ofNat_ne_one, Function.iterate_one]
  rw [hrun]
  refine ⟨_, rfl, hdone.freed, rfl, rfl, hdone.inBounds, fun r hr => ?_⟩
  exact ⟨_, hdone.request r hr, Percent.isEncoded_encode .., Percent.decode_encode (by decide) _⟩

/-- A connection with one message, `"a b"` for the address `"/x?"`. -/
def oneMessage : ThreadHttp where
  be := true
  connect_state := 2
  ip := literal "127.0.0.1"
  length_ip := by decide
  q_http_send := ⟨1, 0, 2, fun _ => some 0⟩
  http_send_pool := ⟨id, 1, 0, 0⟩
  list := fun _ =>
    { buf := storeAt (fun _ => 0) 0 (literal "a b")
      urlBuf := storeAt (fun _ => 0) 0 (literal "/x?")
      buf_len := 3
      url_buf_len := 3 }

theorem cbTime_oneMessage :
    ∃ c, (cbTime true true (fun _ => 0) oneMessage).2 = some c ∧ c.freed = 1 ∧
      ∀ w ∈ c.writes, w.2.1 + w.2.2 ≤ bufSize := by
  obtain ⟨c, hc, hfreed, -, -, hwrites, -⟩ :=
    cbTime_popped true true (fun _ => 0) (h := oneMessage) (i := 0) rfl rfl rfl
  exact ⟨c, hc, hfreed, hwrites⟩

/-- Its request. -/
example : (cbTime true true (fun _ => 0) oneMessage).2.bind Call.request =
    some (literal "GET /x?a%20b HTTP/1.1\nHost:127.0.0.1\n\n") := by decide +kernel

end ThreadHttp

end Catse
