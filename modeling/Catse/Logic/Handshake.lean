import Catse.Logic.Packets
import Catse.Lib.Transition
import Mathlib.Data.List.TakeWhile

/-!
# What the answer to a handshake depends on

`hand_shake` copies the request to `buf` and looks for the key there with `strstr`, which stops at
the first zero byte and otherwise runs on into what earlier calls have left behind the request. The
key goes to `key`, with the magic string behind it but no zero byte, so that the C string that is
hashed runs on into what an earlier and longer key has left there. `Clean` is what the request and
the earlier contents must satisfy so that neither matters, and `handShake_alone_iff` says that the
answer is then, and only then, the one that the request alone asks for.

`History` is any sequence of handshakes and packets, on any connections, as far as `websocket::ref`
sees it.
-/

namespace Catse

namespace Websocket

/-! ## The first occurrence -/

/-- `strstr` finds nothing exactly when there is nothing to find. -/
theorem strstr_eq_none_iff {s pat : List UInt8} : strstr s pat = none ↔ ¬ pat <:+: s := by
  induction s with
  | nil =>
    rw [strstr, List.infix_nil]
    by_cases hpat : pat = []
    · rw [if_pos hpat]
      simp [hpat]
    · rw [if_neg hpat]
      simp [hpat]
  | cons b s ih =>
    rw [strstr, List.infix_cons_iff]
    by_cases hfront : pat.isPrefixOf (b :: s) = true
    · have hstart := List.isPrefixOf_iff_prefix.mp hfront
      rw [if_pos hfront]
      simp [hstart]
    · have hstart : ¬ pat <+: b :: s := fun h => hfront (List.isPrefixOf_iff_prefix.mpr h)
      rw [if_neg hfront, Option.map_eq_none_iff, ih]
      simp [hstart]

/-- What `strstr` finds is the pattern. -/
theorem strstr_found {s pat : List UInt8} {i : ℕ} (h : strstr s pat = some i) :
    pat <+: s.drop i ∧ i ≤ s.length := by
  induction s generalizing i with
  | nil =>
    rw [strstr] at h
    split_ifs at h with hpat
    rw [← Option.some.inj h, hpat]
    exact ⟨List.nil_prefix, Nat.le_refl _⟩
  | cons b s ih =>
    rw [strstr] at h
    split_ifs at h with hfront
    · rw [← Option.some.inj h]
      exact ⟨List.isPrefixOf_iff_prefix.mp hfront, Nat.zero_le _⟩
    · obtain ⟨j, hj, rfl⟩ := Option.map_eq_some_iff.mp h
      obtain ⟨hstart, hle⟩ := ih hj
      exact ⟨hstart, Nat.succ_le_succ hle⟩

/-- What follows does not change what is found first. -/
theorem strstr_append {s pat : List UInt8} {i : ℕ} (h : strstr s pat = some i) (t : List UInt8) :
    strstr (s ++ t) pat = some i := by
  induction s generalizing i with
  | nil =>
    rw [strstr] at h
    split_ifs at h with hpat
    rw [← Option.some.inj h, hpat]
    cases t with
    | nil => rfl
    | cons b t => rfl
  | cons b s ih =>
    rw [strstr] at h
    rw [List.cons_append, strstr]
    split_ifs at h with hfront
    · have hstart : pat <+: b :: (s ++ t) :=
        (List.isPrefixOf_iff_prefix.mp hfront).trans (List.prefix_append (b :: s) t)
      rw [if_pos (List.isPrefixOf_iff_prefix.mpr hstart)]
      exact h
    · obtain ⟨j, hj, rfl⟩ := Option.map_eq_some_iff.mp h
      -- The pattern is not longer than `s`, so it cannot begin at `b` and end in `t`.
      have hnot : ¬ pat.isPrefixOf (b :: (s ++ t)) = true := by
        intro hlong
        have hlen := (strstr_found hj).1.length_le
        have hstart : pat <+: b :: s := by
          apply List.prefix_of_prefix_length_le (List.isPrefixOf_iff_prefix.mp hlong)
            (List.prefix_append (b :: s) t)
          rw [List.length_drop] at hlen
          rw [List.length_cons]
          omega
        exact hfront (List.isPrefixOf_iff_prefix.mpr hstart)
      rw [if_neg hnot, ih hj]
      rfl

/-- A pattern does not lie across a byte that it does not have. -/
theorem infix_append_of_last {s t pat : List UInt8} {x : UInt8} (hs : [x] <:+ s) (hx : x ∉ pat) :
    pat <:+: s ++ t ↔ pat <:+: s ∨ pat <:+: t := by
  constructor
  · intro h
    rcases List.infix_append_iff.mp h with hleft | hright | ⟨u, v, hpat, hu, hv⟩
    · exact Or.inl hleft
    · exact Or.inr hright
    · cases hlen : u.length with
      | zero =>
        rw [List.length_eq_zero_iff.mp hlen, List.nil_append] at hpat
        rw [hpat]
        exact Or.inr hv.isInfix
      | succ n =>
        have hmem : x ∈ u := by
          have hsuffix : [x] <:+ u := List.suffix_of_suffix_length_le hs hu (by
            rw [List.length_singleton]
            omega)
          exact hsuffix.mem (List.mem_singleton_self x)
        exact absurd (hpat ▸ List.mem_append_left v hmem) hx
  · rintro (h | h)
    · exact h.trans (List.prefix_append s t).isInfix
    · exact h.trans (List.suffix_append s t).isInfix

/-- The C string behind the first `i` characters of a C string. -/
theorem takeWhile_drop {l : List UInt8} {i : ℕ} (hi : i ≤ (l.takeWhile (· ≠ 0)).length) :
    (l.drop i).takeWhile (· ≠ 0) = (l.takeWhile (· ≠ 0)).drop i := by
  induction l generalizing i with
  | nil => simp
  | cons b l ih =>
    cases i with
    | zero => rfl
    | succ i =>
      by_cases hb : b = 0
      · rw [List.takeWhile_cons_of_neg (by simp [hb]), List.length_nil] at hi
        omega
      · rw [List.takeWhile_cons_of_pos (by simp [hb]), List.length_cons] at hi
        rw [List.takeWhile_cons_of_pos (by simp [hb]), List.drop_succ_cons, List.drop_succ_cons]
        exact ih (by omega)

/-! ## What a request asks for -/

/-- The lines of a request, which end at `"\r\n"`. -/
def lines : List UInt8 → List (List UInt8)
  | [] => [[]]
  | [b] => [[b]]
  | a :: b :: s =>
    if a = 13 ∧ b = 10 then [] :: lines s
    else
      match lines (b :: s) with
      | [] => [[a]]
      | l :: ls => (a :: l) :: ls

/-- The value of the header `Sec-WebSocket-Key` of a request. -/
def headerValue (request : List UInt8) : Option (List UInt8) :=
  ((lines request).find? (keyStrBegin.isPrefixOf ·)).map (·.drop keyStrBegin.length)

/-- Each line stands in the request, and the first one at its front. -/
theorem lines_within (s : List UInt8) :
    (∀ l ∈ lines s, l <:+: s) ∧ ∀ l ls, lines s = l :: ls → l <+: s := by
  induction s using lines.induct with
  | case1 => simp [lines]
  | case2 b => simp [lines]
  | case3 a b s hend ih =>
    -- A line ends here, so the first one is empty.
    rw [lines, if_pos hend]
    constructor
    · intro l hl
      rcases List.mem_cons.mp hl with rfl | hl
      · exact List.nil_infix
      · exact (ih.1 l hl).trans (List.suffix_append [a, b] s).isInfix
    · intro l ls heq
      rw [← (List.cons.inj heq).1]
      exact List.nil_prefix
  | case4 a b s hend hnil ih =>
    -- The last character is a line of its own.
    rw [lines, if_neg hend, hnil]
    have hfront : [a] <+: a :: b :: s := ⟨b :: s, rfl⟩
    constructor
    · intro l hl
      rw [List.mem_singleton.mp hl]
      exact hfront.isInfix
    · intro l ls heq
      rw [← (List.cons.inj heq).1]
      exact hfront
  | case5 a b s hend l ls hrest ih =>
    -- The character goes in front of the first line of the rest.
    rw [lines, if_neg hend, hrest]
    rw [hrest] at ih
    have hfront : a :: l <+: a :: b :: s := (List.prefix_cons_inj a).mpr (ih.2 l ls rfl)
    constructor
    · intro l' hl'
      rcases List.mem_cons.mp hl' with rfl | hl'
      · exact hfront.isInfix
      · exact (ih.1 l' (List.mem_cons_of_mem l hl')).trans (List.suffix_cons a (b :: s)).isInfix
    · intro l' ls' heq
      rw [← (List.cons.inj heq).1]
      exact hfront

/-- A request with the header has its name somewhere. -/
theorem infix_of_headerValue {request k : List UInt8} (h : headerValue request = some k) :
    keyStrBegin <:+: request := by
  obtain ⟨l, hfind, -⟩ := Option.map_eq_some_iff.mp h
  have hstart := List.isPrefixOf_iff_prefix.mp (List.find?_some hfind)
  exact hstart.isInfix.trans ((lines_within request).1 l (List.mem_of_find?_eq_some hfind))

/-- The answer that a request alone asks for: whether the handshake succeeds, and what is
written. -/
def answer (accept : List UInt8 → List UInt8) (request : List UInt8) : Bool × List UInt8 :=
  match headerValue request with
  | none => (false, [])
  | some k => (true, retStr1 ++ accept (k ++ magicStr) ++ retStr2)

/-- `hand_shake` gives the answer that the request asks for, whatever the functions SHA-1 and Base64
are. -/
def Answers (w : Websocket) (request : List UInt8) : Prop :=
  ∀ accept, ∃ e, w.handShake accept request = .done e ∧ (e.ret, e.out) = answer accept request

/-! ## What `get_key` sees -/

/-- The request up to its first zero byte. -/
def visible (request : List UInt8) : List UInt8 := request.takeWhile (· ≠ 0)

theorem visible_of_not_mem {request : List UInt8} (h : 0 ∉ request) :
    visible request = request := by
  apply List.takeWhile_eq_self_iff.mpr
  intro b hb
  have hne : b ≠ 0 := fun h0 => h (h0 ▸ hb)
  simpa using hne

/-- The C string that earlier calls have left behind the request in `buf`. -/
def left (w : Websocket) (request : List UInt8) : List UInt8 :=
  (w.buf.drop request.length ++ w.request.image).takeWhile (· ≠ 0)

/-- The C string that earlier calls have left behind the first `n` bytes of `key`, once the request
is in `buf`. -/
def behind (w : Websocket) (request : List UInt8) (n : ℕ) : List UInt8 :=
  (w.copyout request request.length).cstr n

/-- What stands behind the first occurrence of the name of the header, up to the end of the line. -/
def firstValue (s : List UInt8) : Option (List UInt8) :=
  (strstr s keyStrBegin).bind fun i =>
    (strstr (s.drop i) keyStrEnd).map fun d => ((s.drop i).take d).drop keyStrBegin.length

/-- What earlier calls have left does no harm. Without the header in the request, its name occurs
neither in what is visible of the request nor, if all of it is visible, in what is left behind it.
With the header, the first value that is visible, the magic string and what is left behind them in
`key` are together the header's value and the magic string: so the value is the header's and nothing
is left behind, or what is left makes up for the difference. -/
def Clean (w : Websocket) (request : List UInt8) : Prop :=
  match headerValue request with
  | none =>
    ¬ keyStrBegin <:+: visible request ∧ (0 ∈ request ∨ ¬ keyStrBegin <:+: w.left request)
  | some k =>
    ∃ v, firstValue (visible request) = some v ∧
      v ++ magicStr ++ w.behind request (v.length + magicStr.length) = k ++ magicStr

/-- When the first value is the header's, what counts is the byte that is left behind it and the
magic string. -/
theorem clean_iff_of_firstValue {w : Websocket} {request k : List UInt8}
    (hheader : headerValue request = some k) (hfirst : firstValue (visible request) = some k) :
    w.Clean request ↔ w.behind request (k.length + magicStr.length) = [] := by
  unfold Clean
  rw [hheader]
  dsimp only
  constructor
  · rintro ⟨v, hv, heq⟩
    obtain rfl : k = v := Option.some.inj (hfirst.symm.trans hv)
    exact List.append_right_eq_self.mp heq
  · intro hnil
    refine ⟨k, hfirst, ?_⟩
    rw [hnil, List.append_nil]

/-- The buffers have their sizes. -/
structure Sized (w : Websocket) : Prop where
  key : w.key.length = keySize
  buf : w.buf.length = bufSize

/-- The request in `buf` as a C string. -/
theorem cstr_copyout {w : Websocket} (hw : w.Sized) (request : List UInt8) :
    (w.copyout request request.length).cstr keySize =
      if 0 ∈ request then visible request else request ++ w.left request := by
  have hmem : (w.copyout request request.length).image.drop keySize =
      request ++ (w.buf.drop request.length ++ w.request.image) := by
    unfold image copyout overwrite
    dsimp only
    rw [List.take_length, List.take_zero, List.nil_append, Nat.zero_add, List.append_assoc,
      List.drop_left' hw.key, List.append_assoc]
  unfold cstr
  rw [hmem]
  split_ifs with hzero
  · -- The C string ends within the request.
    rw [List.takeWhile_append, if_neg]
    · rfl
    · intro hlen
      have hself := List.takeWhile_eq_self_iff.mp
        (List.IsPrefix.eq_of_length (List.takeWhile_prefix _) hlen) 0 hzero
      exact absurd hself (by simp)
  · apply List.takeWhile_append_of_pos
    intro b hb
    have hne : b ≠ 0 := fun h => hzero (h ▸ hb)
    simpa using hne

/-- A write into `key` that ends within `buf` is a write into the two together. -/
theorem append_writeKey {w : Websocket} (hw : w.Sized) {off : ℕ} {bs : List UInt8}
    (hfit : off + bs.length ≤ keySize + bufSize) :
    (w.writeKey off bs).key ++ (w.writeKey off bs).buf = overwrite (w.key ++ w.buf) off bs ∧
      (w.writeKey off bs).Sized := by
  have hlen : (w.key ++ w.buf).length = keySize + bufSize := by
    rw [List.length_append, hw.key, hw.buf]
  have hsame : (overwrite (w.key ++ w.buf) off bs).length = keySize + bufSize := by
    rw [length_overwrite (by omega), hlen]
  have hbuf : ((overwrite (w.key ++ w.buf) off bs).drop keySize).take bufSize =
      (overwrite (w.key ++ w.buf) off bs).drop keySize := by
    apply List.take_of_length_le
    rw [List.length_drop, hsame]
    omega
  refine ⟨?_, ?_, ?_⟩
  · unfold writeKey
    dsimp only
    rw [hbuf, List.take_append_drop]
  · show ((overwrite (w.key ++ w.buf) off bs).take keySize).length = keySize
    rw [List.length_take, hsame]
    omega
  · show (((overwrite (w.key ++ w.buf) off bs).drop keySize).take bufSize).length = bufSize
    rw [hbuf, List.length_drop, hsame]
    omega

/-- The two writes of `get_key`, one behind the other. -/
theorem append_writeKey_writeKey {w : Websocket} (hw : w.Sized) {v u : List UInt8}
    (hfit : v.length + u.length ≤ keySize + bufSize) :
    ((w.writeKey 0 v).writeKey v.length u).key ++ ((w.writeKey 0 v).writeKey v.length u).buf =
      v ++ u ++ (w.key ++ w.buf).drop (v.length + u.length) := by
  have hfit' : 0 + v.length ≤ keySize + bufSize := by omega
  obtain ⟨hfirst, hsized⟩ := append_writeKey hw hfit'
  obtain ⟨hsecond, -⟩ := append_writeKey hsized hfit
  rw [hsecond, hfirst, overwrite, overwrite, List.take_zero, List.nil_append, Nat.zero_add,
    List.take_left' rfl, ← List.drop_drop, List.drop_left' rfl, List.drop_drop]

/-- The C string in `key` after the two writes of `get_key`: the value, the magic string and what is
left behind them. -/
theorem cstr_writeKey {w : Websocket} (hw : w.Sized) {v : List UInt8} (hv : ∀ b ∈ v, b ≠ 0)
    (hfit : v.length + magicStr.length ≤ keySize + bufSize) :
    ((w.writeKey 0 v).writeKey v.length magicStr).cstr 0 =
      v ++ magicStr ++ w.cstr (v.length + magicStr.length) := by
  have hlen : (w.key ++ w.buf).length = keySize + bufSize := by
    rw [List.length_append, hw.key, hw.buf]
  have hrest : ((w.key ++ w.buf).drop (v.length + magicStr.length)) ++ w.request.image =
      w.image.drop (v.length + magicStr.length) :=
    (List.drop_append_of_le_length (by omega)).symm
  have hall : ((w.writeKey 0 v).writeKey v.length magicStr).image =
      (v ++ magicStr) ++ w.image.drop (v.length + magicStr.length) := by
    have hwritten := append_writeKey_writeKey hw hfit
    rw [image, hwritten, List.append_assoc, ← hrest]
    rfl
  have hnonzero : ∀ b ∈ v ++ magicStr, decide (b ≠ 0) = true := by
    intro b hb
    rcases List.mem_append.mp hb with hb | hb
    · simpa using hv b hb
    · have hmagic : ∀ b ∈ magicStr, decide (b ≠ 0) = true := by decide +kernel
      exact hmagic b hb
  unfold cstr
  rw [List.drop_zero, hall, List.takeWhile_append_of_pos hnonzero]

/-- `get_key` without the name of the header in the C string in `buf`. -/
theorem getKey_none {w : Websocket} (h : strstr (w.cstr keySize) keyStrBegin = none) :
    w.getKey = .done (false, w) := by
  unfold getKey
  rw [h]

/-- The C string at a place within another. -/
theorem cstr_add (w : Websocket) {i k : ℕ} (hle : i ≤ (w.cstr k).length) :
    w.cstr (k + i) = (w.cstr k).drop i := by
  unfold cstr at hle ⊢
  rw [← List.drop_drop]
  exact takeWhile_drop hle

/-- What `get_key` finds when there is a value: the name of the header, the end of its line, and
between them the bytes of the value. -/
theorem found_of_firstValue {w : Websocket} {v : List UInt8}
    (h : firstValue (w.cstr keySize) = some v) :
    ∃ str1 d, strstr (w.cstr keySize) keyStrBegin = some str1 ∧
      strstr (w.cstr (keySize + str1)) keyStrEnd = some d ∧ d - keyStrBegin.length = v.length ∧
      ((List.range (d - keyStrBegin.length)).map fun i =>
        w.mem (keySize + str1 + keyStrBegin.length + i)) = v := by
  obtain ⟨i, hi, hvalue⟩ := Option.bind_eq_some_iff.mp h
  obtain ⟨d, hd, hv⟩ := Option.map_eq_some_iff.mp hvalue
  obtain ⟨-, hle⟩ := strstr_found hi
  obtain ⟨-, hdle⟩ := strstr_found hd
  rw [List.length_drop] at hdle
  have hsub := w.cstr_add hle
  have hlength : v.length = d - keyStrBegin.length := by
    rw [← hv, List.length_drop, List.length_take, List.length_drop]
    omega
  -- The bytes that are copied are those of the C string.
  have hbytes : ((List.range (d - keyStrBegin.length)).map fun j =>
      w.mem (keySize + i + keyStrBegin.length + j)) = v := by
    apply List.ext_getElem
    · rw [List.length_map, List.length_range, hlength]
    · intro j hj hj'
      rw [List.length_map, List.length_range] at hj
      have hindex : i + keyStrBegin.length + j < (w.cstr keySize).length := by omega
      have hmem : w.mem (keySize + i + keyStrBegin.length + j) =
          (w.cstr keySize)[i + keyStrBegin.length + j] := by
        obtain ⟨rest, hrest⟩ :=
          List.takeWhile_prefix (l := w.image.drop keySize) (fun b : UInt8 => decide (b ≠ 0))
        have hget : w.image[keySize + (i + keyStrBegin.length + j)]? =
            (w.cstr keySize)[i + keyStrBegin.length + j]? := by
          rw [← List.getElem?_drop, ← hrest]
          exact List.getElem?_append_left hindex
        have hassoc : keySize + i + keyStrBegin.length + j =
          keySize + (i + keyStrBegin.length + j) := by
          omega
        rw [mem, hassoc, List.getD_eq_getElem?_getD, hget, List.getElem?_eq_getElem hindex]
        rfl
      have hv' : v[j] = (w.cstr keySize)[i + keyStrBegin.length + j] := by
        simp only [← hv, List.getElem_drop, List.getElem_take]
        congr 1
        omega
      rw [List.getElem_map, List.getElem_range, hmem, hv']
  exact ⟨i, d, hi, by rw [hsub, hd], hlength.symm, hbytes⟩

/-- A value has no zero byte. -/
theorem ne_zero_of_firstValue {w : Websocket} {v : List UInt8}
    (h : firstValue (w.cstr keySize) = some v) : ∀ b ∈ v, b ≠ 0 := by
  intro b hb
  obtain ⟨i, -, hvalue⟩ := Option.bind_eq_some_iff.mp h
  obtain ⟨d, -, hv⟩ := Option.map_eq_some_iff.mp hvalue
  have hmem : b ∈ w.cstr keySize := by
    rw [← hv] at hb
    exact List.mem_of_mem_drop (List.mem_of_mem_take (List.mem_of_mem_drop hb))
  have hnonzero := List.mem_takeWhile_imp hmem
  simpa using hnonzero

/-- `get_key` with it, and with the end of a line behind it. -/
theorem getKey_value {w : Websocket} {v : List UInt8} (h : firstValue (w.cstr keySize) = some v) :
    w.getKey = .done (true, (w.writeKey 0 v).writeKey v.length magicStr) := by
  obtain ⟨str1, d, hname, hend, hlength, hbytes⟩ := found_of_firstValue h
  unfold getKey
  rw [hname]
  dsimp only
  rw [hend]
  dsimp only
  rw [hbytes, hlength]

/-- `get_key` with the name of the header but no end of the line reads behind the C string. -/
theorem getKey_crash {w : Websocket} (h : strstr (w.cstr keySize) keyStrBegin ≠ none)
    (hv : firstValue (w.cstr keySize) = none) : w.getKey = .crash := by
  obtain ⟨i, hi⟩ := Option.ne_none_iff_exists'.mp h
  obtain ⟨-, hle⟩ := strstr_found hi
  have hsub := w.cstr_add hle
  unfold firstValue at hv
  rw [hi, Option.bind_some, Option.map_eq_none_iff] at hv
  unfold getKey
  rw [hi]
  dsimp only
  rw [hsub, hv]

/-! ## The answer -/

/-- A copy to `buf` of no more than its size. -/
theorem Sized.copyout {w : Websocket} (hw : w.Sized) {input : List UInt8} {len : ℕ}
    (hlen : len ≤ bufSize) : (w.copyout input len).Sized := by
  refine ⟨hw.key, ?_⟩
  show (overwrite w.buf 0 (input.take len)).length = bufSize
  rw [length_overwrite, hw.buf]
  rw [List.length_take, hw.buf]
  omega

/-- `hand_shake` on a complete request leaves it to `get_key`. -/
theorem handShake_eq {w : Websocket} (hw : w.Sized) (accept : List UInt8 → List UInt8)
    {request : List UInt8} (hmax : request.length ≤ bufSize) (hend : retStr2 <:+ request) :
    w.handShake accept request =
      match (w.copyout request request.length).getKey with
      | .crash => .crash
      | .done (false, w) => .done ⟨w, [], [], false⟩
      | .done (true, w) => .done ⟨w, [], retStr1 ++ accept (w.cstr 0) ++ retStr2, true⟩ := by
  obtain ⟨pre, rfl⟩ := hend
  have hlen : (pre ++ retStr2).length = pre.length + 4 := by
    rw [List.length_append]
    rfl
  have hlast : (List.range 4).map (fun i => (w.copyout (pre ++ retStr2) (pre ++ retStr2).length).mem
      (keySize + (pre ++ retStr2).length + i - 4)) = retStr2 := by
    have hmem : ∀ i < 4, (w.copyout (pre ++ retStr2) (pre ++ retStr2).length).mem
        (keySize + (pre ++ retStr2).length + i - 4) = retStr2.getD i 0 := by
      intro i hi
      have hindex : keySize + (pre ++ retStr2).length + i - 4 = keySize + (pre.length + i) := by
        omega
      have hi' : i < retStr2.length := hi
      simp only [mem, image, copyout, overwrite, List.take_length, List.take_zero, List.nil_append,
        List.getD_eq_getElem?_getD, List.append_assoc]
      rw [hindex, List.getElem?_append_right (by rw [hw.key]; omega), hw.key,
        Nat.add_sub_cancel_left, List.getElem?_append_right (by omega), Nat.add_sub_cancel_left,
        List.getElem?_append_left hi']
    apply List.ext_getElem
    · rfl
    · intro i hi hi'
      rw [List.getElem_map, List.getElem_range, hmem i hi', List.getD_eq_getElem?_getD,
        List.getElem?_eq_getElem hi']
      rfl
  unfold handShake
  rw [if_neg (by omega)]
  dsimp only
  exact if_neg (not_not.mpr hlast)

/-- The first value of a request that has one whole is also the first value with more behind the
request. -/
theorem firstValue_append {s v : List UInt8} (h : firstValue s = some v) (t : List UInt8) :
    firstValue (s ++ t) = some v := by
  obtain ⟨i, hi, hvalue⟩ := Option.bind_eq_some_iff.mp h
  obtain ⟨d, hd, hv⟩ := Option.map_eq_some_iff.mp hvalue
  obtain ⟨-, hle⟩ := strstr_found hi
  obtain ⟨-, hdle⟩ := strstr_found hd
  unfold firstValue
  rw [strstr_append hi, Option.bind_some, List.drop_append_of_le_length hle, strstr_append hd,
    Option.map_some, List.take_append_of_le_length hdle, hv]

/-- A request that ends in a line end and has the name of the header has a first value. -/
theorem exists_firstValue {request : List UInt8} (hend : retStr2 <:+ request)
    (h : keyStrBegin <:+: request) : ∃ v, firstValue request = some v := by
  have hname : strstr request keyStrBegin ≠ none := fun hnone => strstr_eq_none_iff.mp hnone h
  obtain ⟨i, hi⟩ := Option.ne_none_iff_exists'.mp hname
  obtain ⟨hstart, hle⟩ := strstr_found hi
  have hline : keyStrEnd <:+ request := List.IsSuffix.trans ⟨[13, 10], rfl⟩ hend
  -- The name is longer than the line end, which therefore stands behind its beginning.
  have hsuffix : keyStrEnd <:+ request.drop i := by
    apply List.suffix_of_suffix_length_le hline (List.drop_suffix i request)
    have hlong : keyStrEnd.length ≤ keyStrBegin.length := by decide
    exact hlong.trans hstart.length_le
  have hfound : strstr (request.drop i) keyStrEnd ≠ none := by
    intro hnone
    exact strstr_eq_none_iff.mp hnone hsuffix.isInfix
  obtain ⟨d, hd⟩ := Option.ne_none_iff_exists'.mp hfound
  refine ⟨((request.drop i).take d).drop keyStrBegin.length, ?_⟩
  unfold firstValue
  rw [hi, Option.bind_some, hd, Option.map_some]

/-- A first value is shorter than what it stands in. -/
theorem length_firstValue_le {s v : List UInt8} (h : firstValue s = some v) :
    v.length ≤ s.length := by
  obtain ⟨i, -, hvalue⟩ := Option.bind_eq_some_iff.mp h
  obtain ⟨d, -, hv⟩ := Option.map_eq_some_iff.mp hvalue
  rw [← hv, List.length_drop, List.length_take, List.length_drop]
  omega

/-- Where the request has the header, `get_key` takes the first value that is visible. -/
theorem firstValue_cstr {w : Websocket} (hw : w.Sized) {request k : List UInt8}
    (hend : retStr2 <:+ request) (hheader : headerValue request = some k) :
    firstValue ((w.copyout request request.length).cstr keySize) = firstValue
    (visible request) := by
  rw [cstr_copyout hw]
  split_ifs with hzero
  · rfl
  · have hall := visible_of_not_mem hzero
    obtain ⟨v, hv⟩ := exists_firstValue hend (infix_of_headerValue hheader)
    rw [hall, hv]
    exact firstValue_append hv _

/-- Where it does not, nothing is found exactly when the name of the header is neither visible nor
left behind. -/
theorem strstr_cstr {w : Websocket} (hw : w.Sized) {request : List UInt8}
    (hend : retStr2 <:+ request) :
    strstr ((w.copyout request request.length).cstr keySize) keyStrBegin = none ↔
      ¬ keyStrBegin <:+: visible request ∧ (0 ∈ request ∨ ¬ keyStrBegin <:+: w.left request) := by
  rw [strstr_eq_none_iff, cstr_copyout hw]
  by_cases hzero : 0 ∈ request
  · rw [if_pos hzero]
    simp [hzero]
  · have hall := visible_of_not_mem hzero
    have hlast : [10] <:+ request := List.IsSuffix.trans ⟨[13, 10, 13], rfl⟩ hend
    have hnot : (10 : UInt8) ∉ keyStrBegin := by decide
    rw [if_neg hzero, hall, infix_append_of_last hlast hnot]
    simp [hzero]

/-- `hand_shake` gives the answer that the request asks for exactly when earlier calls have left
nothing that does harm. -/
theorem answers_iff {w : Websocket} (hw : w.Sized) {request : List UInt8}
    (hmax : request.length ≤ bufSize) (hend : retStr2 <:+ request) :
    w.Answers request ↔ w.Clean request := by
  have hsized : (w.copyout request request.length).Sized := hw.copyout hmax
  unfold Answers Clean answer
  cases hheader : headerValue request with
  | none =>
    dsimp only
    rw [← strstr_cstr hw hend]
    constructor
    · intro h
      -- Without a header of this name nothing may be found, not even in what is left behind.
      obtain ⟨e, he, hanswer⟩ := h id
      rw [handShake_eq hw _ hmax hend] at he
      by_contra hfound
      cases hvalue : firstValue ((w.copyout request request.length).cstr keySize) with
      | none =>
        rw [getKey_crash hfound hvalue] at he
        exact absurd he (by simp)
      | some v =>
        rw [getKey_value hvalue] at he
        rw [← Outcome.done.inj he] at hanswer
        exact absurd (Prod.mk.inj hanswer).1 (by simp)
    · intro hnone accept
      rw [handShake_eq hw _ hmax hend, getKey_none hnone]
      exact ⟨_, rfl, rfl⟩
  | some k =>
    dsimp only
    have hsame := firstValue_cstr hw hend hheader
    -- The value that is copied, with what `key` then has.
    have hcopied : ∀ v, firstValue (visible request) = some v → ∀ accept,
        w.handShake accept request = .done
          ⟨((w.copyout request request.length).writeKey 0 v).writeKey v.length magicStr, [],
            retStr1 ++ accept (v ++ magicStr ++ w.behind request (v.length + magicStr.length)) ++
            retStr2,
            true⟩ := by
      intro v hv accept
      have hgot := getKey_value (hsame.trans hv)
      have hnonzero := ne_zero_of_firstValue (hsame.trans hv)
      -- Both copies end within `key` and `buf`.
      have hfit : v.length + magicStr.length ≤ keySize + bufSize := by
        have hle := length_firstValue_le hv
        have hvisible : (visible request).length ≤ request.length :=
          (List.takeWhile_prefix _).length_le
        have hmagic : magicStr.length ≤ keySize := by decide
        omega
      rw [handShake_eq hw _ hmax hend, hgot]
      dsimp only
      rw [cstr_writeKey hsized hnonzero hfit]
      rfl
    constructor
    · intro h
      obtain ⟨e, he, hanswer⟩ := h id
      cases hvalue : firstValue (visible request) with
      | none =>
        rw [handShake_eq hw _ hmax hend] at he
        by_cases hfound : strstr ((w.copyout request request.length).cstr keySize) keyStrBegin =
          none
        · rw [getKey_none hfound] at he
          rw [← Outcome.done.inj he] at hanswer
          exact absurd (Prod.mk.inj hanswer).1 (by simp)
        · rw [getKey_crash hfound (hsame.trans hvalue)] at he
          exact absurd he (by simp)
      | some v =>
        rw [hcopied v hvalue] at he
        rw [← Outcome.done.inj he] at hanswer
        -- The answer is to the value and the magic string, so nothing follows them.
        have hout := (Prod.mk.inj hanswer).2
        exact ⟨v, rfl, List.append_cancel_left (List.append_cancel_right hout)⟩
    · rintro ⟨v, hvalue, heq⟩ accept
      rw [hcopied v hvalue, heq]
      exact ⟨_, rfl, rfl⟩

/-! ## Histories -/

/-- A call on the singleton, for whatever connection. -/
inductive Call where
  | handShake (request : List UInt8)
  | handlePacket (input : List UInt8)

/-- The singleton after a call, unless it crashes. -/
def call (accept : List UInt8 → List UInt8) (w : Websocket) : Call → Option Websocket
  | .handShake request =>
    match w.handShake accept request with
    | .crash => none
    | .done e => some e.ws
  | .handlePacket input => some (w.handlePacket input).ws

/-- What a sequence of calls can leave. -/
abbrev History (accept : List UInt8 → List UInt8) : Websocket → Prop :=
  Reach (call accept) init anyStep

/-- A payload length fits into the payload buffer. -/
theorem payload_length_lt (mem : WebsocketRequest → ℕ → UInt8) :
    (WebsocketRequest.reset.fetchWebsocketInfo mem).1.payload_length_ <
      WebsocketRequest.payloadSize := by
  have hkey : ∀ (r : WebsocketRequest) msg pos,
      (r.fetchMaskingKey msg pos).1.payload_length_ = r.payload_length_ := by
    intro r msg pos
    unfold WebsocketRequest.fetchMaskingKey
    split_ifs <;> rfl
  have hlength : ∀ (r : WebsocketRequest) msg pos,
      (r.fetchPayloadLength msg pos).1.payload_length_ < WebsocketRequest.payloadSize := by
    intro r msg pos
    unfold WebsocketRequest.fetchPayloadLength WebsocketRequest.payloadSize
    dsimp only
    split_ifs <;> omega
  unfold WebsocketRequest.fetchWebsocketInfo WebsocketRequest.fetchPayload
  dsimp only
  rw [hkey]
  exact hlength _ _ _

/-- `handle_packet` keeps the sizes of the buffers. -/
theorem Sized.handlePacket {w : Websocket} (hw : w.Sized) (input : List UInt8) :
    (w.handlePacket input).ws.Sized := by
  have hlen : (if bufSize < input.length then bufSize else input.length) ≤ bufSize := by
    split_ifs <;> omega
  unfold Websocket.handlePacket
  dsimp only
  generalize (if bufSize < input.length then bufSize else input.length) = len at hlen ⊢
  have hcopy : (w.copyout input len).Sized := hw.copyout hlen
  have hlength := payload_length_lt fun r i =>
    ({ w.copyout input len with request := r } : Websocket).mem (keySize + i)
  generalize WebsocketRequest.reset.fetchWebsocketInfo _ = e at hlength
  obtain ⟨r, realLen⟩ := e
  dsimp only at hlength ⊢
  have hpayload : r.payload_length_.toNat ≤ bufSize := by
    unfold WebsocketRequest.payloadSize at hlength
    unfold bufSize
    omega
  have hbuf : (overwrite (w.copyout input len).buf 0
      (r.payload_.take r.payload_length_.toNat)).length = bufSize := by
    rw [length_overwrite, hcopy.buf]
    rw [List.length_take, hcopy.buf]
    omega
  split_ifs
  · exact ⟨hcopy.key, hcopy.buf⟩
  · exact ⟨hcopy.key, hcopy.buf⟩
  · exact ⟨hcopy.key, hcopy.buf⟩
  · exact ⟨hcopy.key, hcopy.buf⟩
  · exact ⟨hcopy.key, hbuf⟩
  · exact ⟨hcopy.key, hcopy.buf⟩

/-- A write into `key` keeps the sizes of the buffers, even one that does not end within them. -/
theorem Sized.writeKey {w : Websocket} (hw : w.Sized) {off : ℕ} {bs : List UInt8} :
    (w.writeKey off bs).Sized := by
  have hlen : keySize + bufSize ≤ (overwrite (w.key ++ w.buf) off bs).length := by
    have hkey := hw.key
    have hbuf := hw.buf
    simp only [overwrite, List.length_append, List.length_take, List.length_drop]
    omega
  refine ⟨length_key_writeKey hw.key off bs, ?_⟩
  show (((overwrite (w.key ++ w.buf) off bs).drop keySize).take bufSize).length = bufSize
  rw [List.length_take, List.length_drop]
  omega

/-- `get_key` keeps the sizes of the buffers. -/
theorem Sized.getKey {w w' : Websocket} (hw : w.Sized) {found : Bool}
    (h : w.getKey = .done (found, w')) : w'.Sized := by
  unfold Websocket.getKey at h
  split at h
  · rw [← (Prod.mk.inj (Outcome.done.inj h)).2]
    exact hw
  · split at h
    · exact absurd h (by simp)
    · rw [← (Prod.mk.inj (Outcome.done.inj h)).2]
      exact hw.writeKey.writeKey

/-- `hand_shake` keeps the sizes of the buffers. -/
theorem Sized.handShake {w : Websocket} (hw : w.Sized) {accept : List UInt8 → List UInt8}
    {request : List UInt8} {e : Effect Bool} (h : w.handShake accept request = .done e) :
    e.ws.Sized := by
  unfold Websocket.handShake at h
  split at h
  · rw [← Outcome.done.inj h]
    exact hw
  rename_i hmax
  have hcopy : (w.copyout request request.length).Sized := hw.copyout (by omega)
  dsimp only at h
  split at h
  · rw [← Outcome.done.inj h]
    exact hcopy
  split at h
  · exact absurd h (by simp)
  · rename_i hkey
    rw [← Outcome.done.inj h]
    exact hcopy.getKey hkey
  · rename_i hkey
    rw [← Outcome.done.inj h]
    exact hcopy.getKey hkey

/-- The buffers have their sizes after every history. -/
theorem History.sized {accept : List UInt8 → List UInt8} {w : Websocket} (run : History accept w) :
    w.Sized := by
  apply run.invariant
  · exact ⟨List.length_replicate, List.length_replicate⟩
  · intro w c w' _ hw _ hstep
    cases c with
    | handShake request =>
      unfold call at hstep
      dsimp only at hstep
      split at hstep
      · exact absurd hstep (by simp)
      · rename_i e he
        rw [← Option.some.inj hstep]
        exact hw.handShake he
    | handlePacket input =>
      rw [← Option.some.inj hstep]
      exact hw.handlePacket input

/-- After two histories, a complete request gets the answer that it alone asks for in both exactly
when neither history has left anything that does harm. -/
theorem handShake_alone_iff {accept : List UInt8 → List UInt8} {w₁ w₂ : Websocket}
    (run₁ : History accept w₁) (run₂ : History accept w₂) {request : List UInt8}
    (hmax : request.length ≤ bufSize) (hend : retStr2 <:+ request) :
    (w₁.Answers request ∧ w₂.Answers request) ↔ (w₁.Clean request ∧ w₂.Clean request) := by
  rw [answers_iff run₁.sized hmax hend, answers_iff run₂.sized hmax hend]

/-- A request that has only the header, with the value `k`. -/
def keyRequest (k : List UInt8) : List UInt8 := keyStrBegin ++ k ++ retStr2

/-- A first handshake and one after a handshake with a key that is as long. -/
theorem handShake_alone_same_length : ∃ w, History id w ∧
    (init.Answers (keyRequest [120]) ∧ w.Answers (keyRequest [120])) := by
  have hcall : ∀ w ∈ call id init (.handShake (keyRequest [121])),
      headerValue (keyRequest [120]) = some [120] ∧
        firstValue (visible (keyRequest [120])) = some [120] ∧
        w.behind (keyRequest [120]) 37 = [] ∧ init.behind (keyRequest [120]) 37 = [] := by
    decide +kernel
  obtain ⟨w, hw⟩ := Option.isSome_iff_exists.mp
    (by decide +kernel : (call id init (.handShake (keyRequest [121]))).isSome = true)
  obtain ⟨hheader, hfirst, hbehind, hbehind'⟩ := hcall w hw
  have run : History id w := Reach.next .start trivial hw
  refine ⟨w, run, (handShake_alone_iff .start run (by decide) (by decide)).mpr ⟨?_, ?_⟩⟩
  · exact (clean_iff_of_firstValue hheader hfirst).mpr hbehind'
  · exact (clean_iff_of_firstValue hheader hfirst).mpr hbehind

/-- After a handshake with a longer key the same request gets another answer than at first. -/
theorem longer_key_left_behind : ∃ w, History id w ∧ (keyRequest [120]).length ≤ bufSize ∧
    retStr2 <:+ keyRequest [120] ∧
    ¬ (init.Answers (keyRequest [120]) ∧ w.Answers (keyRequest [120])) := by
  have hcall : ∀ w ∈ call id init (.handShake (keyRequest [120, 120])),
      headerValue (keyRequest [120]) = some [120] ∧
        firstValue (visible (keyRequest [120])) = some [120] ∧
        w.behind (keyRequest [120]) 37 ≠ [] := by
    decide +kernel
  obtain ⟨w, hw⟩ := Option.isSome_iff_exists.mp
    (by decide +kernel : (call id init (.handShake (keyRequest [120, 120]))).isSome = true)
  obtain ⟨hheader, hfirst, hbehind⟩ := hcall w hw
  have run : History id w := Reach.next .start trivial hw
  refine ⟨w, run, by decide, by decide, ?_⟩
  rintro ⟨-, hanswers⟩
  have hclean := (answers_iff run.sized (by decide) (by decide)).mp hanswers
  exact hbehind ((clean_iff_of_firstValue hheader hfirst).mp hclean)

end Websocket

end Catse
