import Mathlib.Data.List.Basic
import Mathlib.Data.List.Range
import Mathlib.Tactic.Common

/-!
# The compressor of `lz77.h`

`zip` writes a byte as itself, or a match as the escape byte `sp`, the length less `2` and the
distance less `1`. The escape byte as a literal is followed by `0`, which no length is. A match has
at most `257` bytes and begins at most `256` bytes back, so that both fields fit in a byte, and it
may run into the bytes that it produces.

`Token` is what the format writes, `Token.encode` its bytes, and `expand` what a list of tokens
stands for. The compressor's invariant is that it has written the encoding of tokens that expand to
the input up to `i`, and the decompressor turns the encoding of tokens into their expansion.

The results of `zip` and `unzip` are the flag that they return and `out[0, out_len)`. All sums of
lengths stay below the length of a buffer, so the `int`s of the source are natural numbers.
-/

namespace Catse

namespace Lz77

/-- `lz77::sp`, the escape byte. -/
def sp : UInt8 := 124

/-- `out[out_len++] = b` for each of the bytes in turn, until the buffer is full: are there all, and
what is there. -/
def put (out_cap : ℕ) (out : List UInt8) : List UInt8 → Bool × List UInt8
  | [] => (true, out)
  | b :: bs => if out_cap ≤ out.length then (false, out) else put out_cap (out ++ [b]) bs

/-- The loop over `k` in `zip`: the `k` that it breaks at, if it does. -/
def breakAt (input : List UInt8) (i j : ℕ) : Option ℕ :=
  (List.range 258).find? fun k => input.length ≤ i + k || input[i + k]? != input[j + k]?

/-- The body of the loop over `j`, on `(maxx, ans)`. -/
def searchStep (input : List UInt8) (i : ℕ) (best : ℕ × ℕ) (j : ℕ) : ℕ × ℕ :=
  match breakAt input i j with
  | none => best
  | some k => if best.1 < k then (k, i - j) else best

/-- The loop over `j` in `zip`, from `i - 1` down to `i - 256` or `0`. -/
def search (input : List UInt8) (i : ℕ) : ℕ × ℕ :=
  ((List.range (min i 256)).map fun n => i - 1 - n).foldl (searchStep input i) (0, 0)

/-- The loop of `lz77::zip`. -/
def zipLoop (out_cap : ℕ) (input : List UInt8) (i : ℕ) (out : List UInt8) : Bool × List UInt8 :=
  if h : i < input.length then
    let best := search input i
    if 2 < best.1 then
      match put out_cap out [sp, UInt8.ofNat (best.1 - 2), UInt8.ofNat (best.2 - 1)] with
      | (false, out) => (false, out)
      | (true, out) => zipLoop out_cap input (i + best.1) out
    else
      match put out_cap out (if input[i] = sp then [sp, 0] else [input[i]]) with
      | (false, out) => (false, out)
      | (true, out) => zipLoop out_cap input (i + 1) out
  else (true, out)
termination_by input.length - i
decreasing_by all_goals grind

/-- `lz77::zip`. -/
def zip (out_cap : ℕ) (input : List UInt8) : Bool × List UInt8 := zipLoop out_cap input 0 []

/-- The loop over `j` in `unzip`: `len` bytes, each the one `dist` before it. -/
def copyBack (out : List UInt8) (dist : ℕ) : ℕ → List UInt8
  | 0 => out
  | len + 1 => copyBack (out ++ [out.getD (out.length - dist) 0]) dist len

/-- The loop of `lz77::unzip` on the bytes from `in[i]` on. -/
def unzipLoop (out_cap : ℕ) (out : List UInt8) : List UInt8 → Bool × List UInt8
  | [] => (true, out)
  | b :: bs =>
    if b = sp then
      match bs with
      | [] => (false, out)
      | l :: bs =>
        if l ≠ 0 then
          let len := l.toNat + 2
          match bs with
          | [] => (false, out)
          | d :: bs =>
            let dist := d.toNat + 1
            if out.length < dist then (false, out)
            else if out_cap < out.length + len then (false, out)
            else unzipLoop out_cap (copyBack out dist len) bs
        else if out_cap ≤ out.length then (false, out)
        else unzipLoop out_cap (out ++ [sp]) bs
    else if out_cap ≤ out.length then (false, out)
    else unzipLoop out_cap (out ++ [b]) bs

/-- `lz77::unzip`. -/
def unzip (out_cap : ℕ) (input : List UInt8) : Bool × List UInt8 := unzipLoop out_cap [] input

/-! ## Tokens -/

/-- What `zip` writes at a time: a byte, or a match of length `len + 2` at distance `dist + 1`. -/
inductive Token where
  | literal (b : UInt8)
  | back (len dist : UInt8)

/-- The bytes of a token. -/
def Token.encode : Token → List UInt8
  | .literal b => if b = sp then [sp, 0] else [b]
  | .back len dist => [sp, len, dist]

/-- A match has more than two bytes. -/
def Token.Valid : Token → Prop
  | .literal _ => True
  | .back len _ => len ≠ 0

/-- The bytes that a token adds to those before it, when the match begins within them. -/
def Token.expand (out : List UInt8) : Token → Option (List UInt8)
  | .literal b => some (out ++ [b])
  | .back len dist =>
    if out.length < dist.toNat + 1 then none
    else some (copyBack out (dist.toNat + 1) (len.toNat + 2))

/-- The bytes that tokens stand for, one after the other. -/
def expand (out : List UInt8) : List Token → Option (List UInt8)
  | [] => some out
  | t :: ts => (t.expand out).bind fun out => expand out ts

/-! ## Copies -/

@[simp] theorem length_copyBack (out : List UInt8) (dist len : ℕ) :
    (copyBack out dist len).length = out.length + len := by
  induction len generalizing out with
  | zero => rfl
  | succ len ih =>
    rw [copyBack, ih, List.length_append, List.length_singleton]
    omega

/-- A copy of bytes that were compared extends a prefix of the input, also where it runs into the
bytes that it produces. -/
theorem copyBack_take (input : List UInt8) {i dist len : ℕ} (hdist : 0 < dist) (hle : dist ≤ i)
    (hfit : i + len ≤ input.length)
    (heq : ∀ k < len, input[i + k]? = input[i - dist + k]?) :
    copyBack (input.take i) dist len = input.take (i + len) := by
  -- Induction on the number of bytes left to copy: one byte makes the prefix longer by one.
  induction len generalizing i with
  | zero => rfl
  | succ len ih =>
    have hi : i < input.length := by omega
    have hlen : (input.take i).length = i := by
      rw [List.length_take]
      omega
    have hbyte : (input.take i).getD (i - dist) 0 = input[i] := by
      have h0 := heq 0 (by omega)
      rw [Nat.add_zero, Nat.add_zero, List.getElem?_eq_getElem hi] at h0
      rw [List.getD_eq_getElem?_getD, List.getElem?_take_of_lt (by omega), ← h0]
      rfl
    have hnext : input.take i ++ [input[i]] = input.take (i + 1) := by
      rw [List.take_add_one, List.getElem?_eq_getElem hi]
      rfl
    have hrest : ∀ k < len, input[i + 1 + k]? = input[i + 1 - dist + k]? := by
      intro k hk
      have h := heq (k + 1) (by omega)
      have hl : i + 1 + k = i + (k + 1) := by omega
      have hr : i + 1 - dist + k = i - dist + (k + 1) := by omega
      rw [hl, hr]
      exact h
    rw [copyBack, hlen, hbyte, hnext, ih (by omega) (by omega) hrest]
    congr 1
    omega

/-- A match that can be carried out: its distance stays within what is there. -/
theorem Token.expand_back {out out' : List UInt8} {len dist : UInt8}
    (h : (Token.back len dist).expand out = some out') :
    ¬out.length < dist.toNat + 1 ∧ copyBack out (dist.toNat + 1) (len.toNat + 2) = out' ∧
      out'.length = out.length + (len.toNat + 2) := by
  rw [Token.expand] at h
  split_ifs at h with hd
  have he := Option.some.inj h
  exact ⟨hd, he, by rw [← he, length_copyBack]⟩

/-- An expansion only adds to what is there. -/
theorem Token.length_le_of_expand {t : Token} {out out' : List UInt8}
    (h : t.expand out = some out') : out.length ≤ out'.length := by
  cases t with
  | literal b =>
    simp only [Token.expand, Option.some.injEq] at h
    rw [← h, List.length_append]
    omega
  | back len dist =>
    obtain ⟨-, -, hlen⟩ := Token.expand_back h
    omega

theorem length_le_of_expand {ts : List Token} {out out' : List UInt8}
    (h : expand out ts = some out') : out.length ≤ out'.length := by
  induction ts generalizing out with
  | nil =>
    have he : out = out' := Option.some.inj h
    rw [he]
  | cons t ts ih =>
    obtain ⟨mid, hmid, hrest⟩ := Option.bind_eq_some_iff.mp h
    have h1 := Token.length_le_of_expand hmid
    have h2 := ih hrest
    omega

/-! ## The decompressor -/

/-- The decompressor reads a token and goes on with the bytes behind it. -/
theorem unzipLoop_token {t : Token} (ht : t.Valid) {out_cap : ℕ} {out out' : List UInt8}
    (hexp : t.expand out = some out') (hcap : out'.length ≤ out_cap) (bs : List UInt8) :
    unzipLoop out_cap out (t.encode ++ bs) = unzipLoop out_cap out' bs := by
  cases t with
  | literal b =>
    have he : out ++ [b] = out' := Option.some.inj hexp
    have hroom : ¬ out_cap ≤ out.length := by
      rw [← he, List.length_append, List.length_singleton] at hcap
      omega
    by_cases hb : b = sp
    · -- The escape byte is followed by `0`.
      have henc : (Token.literal b).encode ++ bs = sp :: 0 :: bs := by
        rw [Token.encode, if_pos hb]
        rfl
      rw [henc, unzipLoop.eq_def]
      dsimp only
      rw [if_pos rfl, if_neg (by decide), if_neg hroom, ← hb, he]
    · have henc : (Token.literal b).encode ++ bs = b :: bs := by
        rw [Token.encode, if_neg hb]
        rfl
      rw [henc, unzipLoop.eq_def]
      dsimp only
      rw [if_neg hb, if_neg hroom, he]
  | back len dist =>
    have hlen : len ≠ 0 := ht
    obtain ⟨hd, he, hout⟩ := Token.expand_back hexp
    have hroom : ¬ out_cap < out.length + (len.toNat + 2) := by omega
    have henc : (Token.back len dist).encode ++ bs = sp :: len :: dist :: bs := rfl
    rw [henc, unzipLoop.eq_def]
    dsimp only
    rw [if_pos rfl, if_pos hlen, if_neg hd, if_neg hroom, he]

/-- The decompressor turns the encoding of tokens into what they stand for, in a buffer that holds
it. -/
theorem unzipLoop_encode {ts : List Token} (hts : ∀ t ∈ ts, t.Valid) {out_cap : ℕ}
    {out out' : List UInt8} (hexp : expand out ts = some out') (hcap : out'.length ≤ out_cap) :
    unzipLoop out_cap out (ts.flatMap Token.encode) = (true, out') := by
  induction ts generalizing out with
  | nil =>
    have he : out = out' := Option.some.inj hexp
    rw [he]
    rfl
  | cons t ts ih =>
    obtain ⟨mid, hmid, hrest⟩ := Option.bind_eq_some_iff.mp hexp
    have hmidcap : mid.length ≤ out_cap := (length_le_of_expand hrest).trans hcap
    rw [List.flatMap_cons, unzipLoop_token (hts t (by simp)) hmid hmidcap]
    exact ih (fun t ht => hts t (by simp [ht])) hrest

/-! ## The search -/

/-- The loop over `k` breaks at a `k` below `258` up to which the two places agree, and which ends
within the input. -/
theorem breakAt_spec {input : List UInt8} {i j k : ℕ} (hi : i < input.length)
    (h : breakAt input i j = some k) :
    k < 258 ∧ i + k ≤ input.length ∧ ∀ k' < k, input[i + k']? = input[j + k']? := by
  obtain ⟨-, n, hn, hk, hbefore⟩ := List.find?_eq_some_iff_getElem.mp h
  rw [List.length_range] at hn
  rw [List.getElem_range] at hk
  subst hk
  have hagree : ∀ k' < n, i + k' < input.length ∧ input[i + k']? = input[j + k']? := by
    intro k' hk'
    have hnot := hbefore k' hk'
    rw [List.getElem_range] at hnot
    simpa using hnot
  refine ⟨hn, ?_, fun k' hk' => (hagree k' hk').2⟩
  rcases Nat.eq_zero_or_pos n with h0 | hpos
  · omega
  · have hlast := (hagree (n - 1) (by omega)).1
    omega

/-- What `(maxx, ans)` says during the search at `i`: no match yet, or a match of `maxx` bytes at
distance `ans`, of a length and at a distance that the format has. -/
structure Found (input : List UInt8) (i maxx ans : ℕ) : Prop where
  ans_pos : 0 < ans
  ans_le : ans ≤ min i 256
  maxx_le : maxx ≤ 257
  fits : i + maxx ≤ input.length
  agree : ∀ k < maxx, input[i + k]? = input[i - ans + k]?

/-- A step of the search keeps a match or finds a longer one. -/
theorem searchStep_found {input : List UInt8} {i j : ℕ} {best : ℕ × ℕ} (hi : i < input.length)
    (hj : j < i) (hfar : i ≤ j + 256) (h : 0 < best.1 → Found input i best.1 best.2)
    (hpos : 0 < (searchStep input i best j).1) :
    Found input i (searchStep input i best j).1 (searchStep input i best j).2 := by
  unfold searchStep at hpos ⊢
  cases hbreak : breakAt input i j with
  | none =>
    rw [hbreak] at hpos
    exact h hpos
  | some k =>
    rw [hbreak] at hpos
    dsimp only at hpos ⊢
    split_ifs at hpos ⊢ with hlonger
    · obtain ⟨hk, hfits, hagree⟩ := breakAt_spec hi hbreak
      have hback : i - (i - j) = j := by omega
      constructor
      · show 0 < i - j
        omega
      · show i - j ≤ min i 256
        omega
      · show k ≤ 257
        omega
      · exact hfits
      · show ∀ k' < k, input[i + k']? = input[i - (i - j) + k']?
        rw [hback]
        exact hagree
    · exact h hpos

/-- What the search finds is a match. -/
theorem search_found {input : List UInt8} {i : ℕ} (hi : i < input.length)
    (hpos : 0 < (search input i).1) : Found input i (search input i).1 (search input i).2 := by
  unfold search at hpos ⊢
  have hrange : ∀ j ∈ (List.range (min i 256)).map fun n => i - 1 - n, j < i ∧ i ≤ j + 256 := by
    intro j hj
    obtain ⟨n, hn, rfl⟩ := List.mem_map.mp hj
    have hn' := List.mem_range.mp hn
    omega
  have hstart : 0 < (0, 0).1 → Found input i (0, 0).1 (0, 0).2 := by
    intro h
    omega
  -- Induction along the places that are searched, from any match found so far.
  revert hpos hstart
  generalize ((0, 0) : ℕ × ℕ) = best
  revert hrange
  generalize ((List.range (min i 256)).map fun n => i - 1 - n) = js
  intro hrange hpos hbest
  induction js generalizing best with
  | nil => exact hbest hpos
  | cons j js ih =>
    obtain ⟨hj, hfar⟩ := hrange j (by simp)
    rw [List.foldl_cons] at hpos ⊢
    have hrest : ∀ j' ∈ js, j' < i ∧ i ≤ j' + 256 := by
      intro j' hj'
      exact hrange j' (List.mem_cons_of_mem j hj')
    exact ih _ hrest hpos (searchStep_found hi hj hfar hbest)

/-! ## The compressor -/

/-- `put` appends all the bytes when it returns true. -/
theorem put_true {out_cap : ℕ} {bs out out' : List UInt8} (h : put out_cap out bs = (true, out')) :
    out' = out ++ bs := by
  induction bs generalizing out with
  | nil =>
    have he : out = out' := (Prod.mk.inj h).2
    rw [List.append_nil, he]
  | cons b bs ih =>
    rw [put] at h
    by_cases hfull : out_cap ≤ out.length
    · rw [if_pos hfull] at h
      exact absurd h (by simp)
    · rw [if_neg hfull] at h
      rw [ih h, List.append_assoc]
      rfl

/-- `put` does not write past the buffer. -/
theorem length_put_le {out_cap : ℕ} {bs out : List UInt8} (hout : out.length ≤ out_cap) :
    (put out_cap out bs).2.length ≤ out_cap := by
  induction bs generalizing out with
  | nil => exact hout
  | cons b bs ih =>
    rw [put]
    split_ifs with hfull
    · exact hout
    · apply ih
      rw [List.length_append, List.length_singleton]
      omega

/-- A match as a token stands for the next `maxx` bytes of the input. -/
theorem Found.expand {input : List UInt8} {i maxx ans : ℕ} (h : Found input i maxx ans)
    (hmaxx : 2 < maxx) :
    (Token.back (UInt8.ofNat (maxx - 2)) (UInt8.ofNat (ans - 1))).expand (input.take i) =
      some (input.take (i + maxx)) := by
  obtain ⟨hpos, hle, hmax, hfits, hagree⟩ := h
  have hlen : (UInt8.ofNat (maxx - 2)).toNat + 2 = maxx := by
    rw [UInt8.toNat_ofNat']
    omega
  have hdist : (UInt8.ofNat (ans - 1)).toNat + 1 = ans := by
    rw [UInt8.toNat_ofNat']
    omega
  have htake : (input.take i).length = i := by
    rw [List.length_take]
    omega
  rw [Token.expand, hlen, hdist, htake, if_neg (by omega),
    copyBack_take input hpos (by omega) hfits hagree]

/-- A match of more than two bytes is a token of the format. -/
theorem Found.valid {input : List UInt8} {i maxx ans : ℕ} (h : Found input i maxx ans)
    (hmaxx : 2 < maxx) :
    (Token.back (UInt8.ofNat (maxx - 2)) (UInt8.ofNat (ans - 1))).Valid := by
  intro h0
  have hmax := h.maxx_le
  have hzero : (UInt8.ofNat (maxx - 2)).toNat = 0 := by
    rw [h0]
    rfl
  rw [UInt8.toNat_ofNat'] at hzero
  omega

/-- From `i` on the compressor adds the encoding of tokens that expand the input up to `i` to the
whole input. -/
theorem zipLoop_tokens {out_cap : ℕ} {input out out' : List UInt8} {i : ℕ}
    (hi : i ≤ input.length) (h : zipLoop out_cap input i out = (true, out')) :
    ∃ ts : List Token, (∀ t ∈ ts, t.Valid) ∧ out' = out ++ ts.flatMap Token.encode ∧
      expand (input.take i) ts = some input := by
  -- Induction along the iterations of the loop.
  induction hn : input.length - i using Nat.strong_induction_on generalizing i out with
  | _ n ih =>
  rw [zipLoop] at h
  by_cases hlt : i < input.length
  · rw [dif_pos hlt] at h
    dsimp only at h
    by_cases hmatch : 2 < (search input i).1
    · -- A match, of more than two bytes.
      rw [if_pos hmatch] at h
      have hfound : Found input i (search input i).1 (search input i).2 :=
        search_found hlt (by omega)
      have hfits := hfound.fits
      cases hput : put out_cap out
          [sp, UInt8.ofNat ((search input i).1 - 2), UInt8.ofNat ((search input i).2 - 1)] with
      | mk all mid =>
      rw [hput] at h
      cases all with
      | false => exact absurd h (by simp)
      | true =>
        obtain ⟨ts, hvalid, hout, hexp⟩ := ih _ (by omega) hfits h rfl
        refine ⟨_ :: ts, List.forall_mem_cons.mpr ⟨hfound.valid hmatch, hvalid⟩, ?_, ?_⟩
        · rw [hout, put_true hput, List.flatMap_cons, List.append_assoc]
          rfl
        · rw [Catse.Lz77.expand, hfound.expand hmatch]
          exact hexp
    · -- A byte as itself.
      rw [if_neg hmatch] at h
      have henc : (if input[i] = sp then [sp, 0] else [input[i]]) =
          (Token.literal input[i]).encode := rfl
      have hnext : input.take i ++ [input[i]] = input.take (i + 1) := by
        rw [List.take_add_one, List.getElem?_eq_getElem hlt]
        rfl
      rw [henc] at h
      cases hput : put out_cap out (Token.literal input[i]).encode with
      | mk all mid =>
      rw [hput] at h
      cases all with
      | false => exact absurd h (by simp)
      | true =>
        obtain ⟨ts, hvalid, hout, hexp⟩ := ih _ (by omega) (by omega) h rfl
        refine ⟨.literal input[i] :: ts, List.forall_mem_cons.mpr ⟨trivial, hvalid⟩, ?_, ?_⟩
        · rw [hout, put_true hput, List.flatMap_cons, List.append_assoc]
        · rw [Catse.Lz77.expand, Token.expand, hnext]
          exact hexp
  · -- The end of the input.
    rw [dif_neg hlt] at h
    have he : out = out' := (Prod.mk.inj h).2
    refine ⟨[], by simp, by simp [he], ?_⟩
    rw [List.take_of_length_le (by omega)]
    rfl

/-- The decompressor does not write past its buffer. -/
theorem length_unzipLoop_le {out_cap : ℕ} {bs out out' : List UInt8}
    (h : unzipLoop out_cap out bs = (true, out')) (hout : out.length ≤ out_cap) :
    out'.length ≤ out_cap := by
  fun_induction unzipLoop out_cap out bs with
  | case1 out => exact (Prod.mk.inj h).2 ▸ hout
  | _ => grind [length_copyBack]

/-- What `zip` writes is the encoding of tokens that stand for the input. -/
theorem zip_tokens {out_cap : ℕ} {input out : List UInt8} (h : zip out_cap input = (true, out)) :
    ∃ ts : List Token, (∀ t ∈ ts, t.Valid) ∧ out = ts.flatMap Token.encode ∧
      expand [] ts = some input := by
  obtain ⟨ts, hvalid, hout, hexp⟩ := zipLoop_tokens (Nat.zero_le _) h
  rw [List.nil_append] at hout
  rw [List.take_zero] at hexp
  exact ⟨ts, hvalid, hout, hexp⟩

/-- What `zip` writes, `unzip` turns back into the input, in every buffer that holds the input. -/
theorem unzip_zip {out_cap cap : ℕ} {input out : List UInt8} (h : zip out_cap input = (true, out))
    (hcap : input.length ≤ cap) : unzip cap out = (true, input) := by
  obtain ⟨ts, hvalid, rfl, hexp⟩ := zip_tokens h
  rw [unzip]
  exact unzipLoop_encode hvalid hexp hcap

/-- The escape byte five times, of which the last four are a match at distance `1`. -/
theorem unzip_zip_escapes : unzip 5 [124, 0, 124, 2, 0] = (true, [124, 124, 124, 124, 124]) := by
  have hzip : zip 5 [124, 124, 124, 124, 124] = (true, [124, 0, 124, 2, 0]) := by decide +kernel
  exact unzip_zip hzip (by decide)

/-- The buffers that hold the input are the ones in which it comes back. -/
theorem unzip_eq_iff {out_cap cap : ℕ} {input out : List UInt8}
    (h : zip out_cap input = (true, out)) :
    unzip cap out = (true, input) ↔ input.length ≤ cap := by
  constructor
  · intro hunzip
    exact length_unzipLoop_le hunzip (Nat.zero_le _)
  · intro hcap
    obtain ⟨ts, hvalid, rfl, hexp⟩ := zip_tokens h
    rw [unzip]
    exact unzipLoop_encode hvalid hexp hcap

end Lz77

end Catse
