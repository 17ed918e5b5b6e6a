import Catse.Logic.Lz77
import Catse.Lib.Bytes
import Catse.Lib.Transition

/-!
# `unzip` on any bytes

`unzip` as it works on memory: an access outside of `in[0, in_len)` or `out[0, out_cap)`, or to a
byte of `out` that is not written yet, is a fault, after which there is no result. The sum of an
`int` and a length is reduced to `int`.

`UnzipState.Holds` ties a state to the bytes produced and the bytes left. An iteration at a token
that fits carries it out (`unzipBody_token`), and one at a place that is rejected returns false,
unless a match ends beyond the range of an `int` (`unzipBody_rejected`): then the test against
`out_cap` passes, and the copy leaves the buffer. So `unzip` is safe where it does not come to such
a match (`unzip_safe_iff`), and always for the buffers of this program (`unzip_safe`).
-/

namespace Catse

namespace Lz77

/-! ## The code -/

/-- The bytes of `out` that are written. -/
abbrev OutBuffer := ℤ → Option UInt8

/-- The variables of `unzip`. -/
structure UnzipState where
  i : ℤ
  out_len : ℤ
  out : OutBuffer

/-- `in[k]`. -/
def readIn (in_len : ℤ) (input : ℕ → UInt8) (k : ℤ) : Option UInt8 :=
  if 0 ≤ k ∧ k < in_len then some (input k.toNat) else none

/-- `out[k] = b`. -/
def storeOut (out_cap : ℤ) (out : OutBuffer) (k : ℤ) (b : UInt8) : Option OutBuffer :=
  if 0 ≤ k ∧ k < out_cap then some (Function.update out k (some b)) else none

/-- The loop over `j`, from `j` on with `n` iterations left. -/
def copyLoop (out_cap out_len dist : ℤ) : ℕ → ℤ → OutBuffer → Option OutBuffer
  | 0, _, out => some out
  | n + 1, j, out => do
    -- Both subscripts are sums of `int`s, which wrap.
    let b ← out (toInt32 (out_len - dist + j))
    let out ← storeOut out_cap out (toInt32 (out_len + j)) b
    copyLoop out_cap out_len dist n (j + 1) out

/-- What an iteration comes to. -/
inductive UnzipNext where
  | returned (ret : Bool)
  | goesOn (s : UnzipState)

/-- An iteration of the loop of `lz77::unzip`. -/
def unzipBody (out_cap in_len : ℤ) (input : ℕ → UInt8) (s : UnzipState) : Option UnzipNext := do
  let c ← readIn in_len input s.i
  if c = sp then
    if in_len ≤ s.i + 1 then some (.returned false)
    else
      let l ← readIn in_len input (s.i + 1)
      -- The byte behind the escape byte is the length less `2`, or `0` for the escape byte itself.
      if l ≠ 0 then
        let len : ℤ := l.toNat + 2
        if in_len ≤ s.i + 2 then some (.returned false)
        else
          let d ← readIn in_len input (s.i + 2)
          let dist : ℤ := d.toNat + 1
          if s.out_len < dist then some (.returned false)
          else if out_cap < toInt32 (s.out_len + len) then some (.returned false)
          else
            let out ← copyLoop out_cap s.out_len dist (l.toNat + 2) 0 s.out
            some (.goesOn ⟨s.i + 3, toInt32 (s.out_len + len), out⟩)
      else if out_cap ≤ s.out_len then some (.returned false)
      else
        let out ← storeOut out_cap s.out s.out_len sp
        some (.goesOn ⟨s.i + 2, s.out_len + 1, out⟩)
  else if out_cap ≤ s.out_len then some (.returned false)
  else
    let out ← storeOut out_cap s.out s.out_len c
    some (.goesOn ⟨s.i + 1, s.out_len + 1, out⟩)

/-- A test that returns has failed where the iteration goes on. -/
theorem UnzipNext.of_guard {c : Prop} [Decidable c] {ret : Bool} {rest : Option UnzipNext}
    {s : UnzipState} (h : (if c then some (.returned ret) else rest) = some (.goesOn s)) :
    ¬ c ∧ rest = some (.goesOn s) := by
  by_cases hc : c
  · rw [if_pos hc] at h
    cases h
  · rw [if_neg hc] at h
    exact ⟨hc, h⟩

/-- An iteration moves on in the input. -/
theorem lt_of_unzipBody {out_cap in_len : ℤ} {input : ℕ → UInt8} {s s' : UnzipState}
    (h : unzipBody out_cap in_len input s = some (.goesOn s')) : s.i < s'.i := by
  obtain ⟨c, -, h⟩ := Option.bind_eq_some_iff.mp h
  by_cases hc : c = sp
  · rw [if_pos hc] at h
    obtain ⟨-, h⟩ := UnzipNext.of_guard h
    obtain ⟨l, -, h⟩ := Option.bind_eq_some_iff.mp h
    by_cases hl : l ≠ 0
    · rw [if_pos hl] at h
      obtain ⟨-, h⟩ := UnzipNext.of_guard h
      obtain ⟨d, -, h⟩ := Option.bind_eq_some_iff.mp h
      obtain ⟨-, h⟩ := UnzipNext.of_guard h
      obtain ⟨-, h⟩ := UnzipNext.of_guard h
      obtain ⟨out, -, h⟩ := Option.bind_eq_some_iff.mp h
      cases h
      -- A match takes three bytes of the input.
      show s.i < s.i + 3
      omega
    · rw [if_neg hl] at h
      obtain ⟨-, h⟩ := UnzipNext.of_guard h
      obtain ⟨out, -, h⟩ := Option.bind_eq_some_iff.mp h
      cases h
      -- The escape byte takes two.
      show s.i < s.i + 2
      omega
  · rw [if_neg hc] at h
    obtain ⟨-, h⟩ := UnzipNext.of_guard h
    obtain ⟨out, -, h⟩ := Option.bind_eq_some_iff.mp h
    cases h
    exact Int.lt_succ s.i

/-- The loop of `lz77::unzip`: the value returned, with `out_len`. -/
def unzipFrom (out_cap in_len : ℤ) (input : ℕ → UInt8) (s : UnzipState) : Option (Bool × ℤ) :=
  if s.i < in_len then
    match _h : unzipBody out_cap in_len input s with
    | none => none
    | some (.returned ret) => some (ret, s.out_len)
    | some (.goesOn s') => unzipFrom out_cap in_len input s'
  else some (true, s.out_len)
termination_by (in_len - s.i).toNat
decreasing_by
  have hlt := lt_of_unzipBody _h
  omega

/-- The variables at the start. -/
def UnzipState.init : UnzipState := ⟨0, 0, fun _ => none⟩

/-- One iteration, when there is another one behind it. -/
def unzipStep (out_cap in_len : ℤ) (input : ℕ → UInt8) (s : UnzipState) (_ : Unit) :
    Option UnzipState :=
  if s.i < in_len then
    match unzipBody out_cap in_len input s with
    | some (.goesOn s') => some s'
    | _ => none
  else none

/-! ## Memory as lists -/

/-- The bytes `in[0, in_len)`. -/
def bytesOf (in_len : ℤ) (input : ℕ → UInt8) : List UInt8 := (List.range in_len.toNat).map input

/-- A buffer into which these bytes are written, from its start. -/
def bufferOf (out : List UInt8) : OutBuffer := fun k => if 0 ≤ k then out[k.toNat]? else none

theorem getElem?_bytesOf (in_len : ℤ) (input : ℕ → UInt8) (n : ℕ) :
    (bytesOf in_len input)[n]? = if (n : ℤ) < in_len then some (input n) else none := by
  rw [bytesOf, List.getElem?_map]
  by_cases hn : (n : ℤ) < in_len
  · rw [if_pos hn, List.getElem?_range (by omega)]
    rfl
  · rw [if_neg hn, List.getElem?_eq_none (by rw [List.length_range]; omega)]
    rfl

/-- A byte behind those that are written makes them one more. -/
theorem storeOut_bufferOf {out_cap : ℤ} {out : List UInt8} (b : UInt8)
    (hroom : (out.length : ℤ) < out_cap) :
    storeOut out_cap (bufferOf out) out.length b = some (bufferOf (out ++ [b])) := by
  rw [storeOut, if_pos ⟨Int.natCast_nonneg _, hroom⟩]
  congr 1
  funext k
  -- Only the cell behind the bytes that are written changes.
  by_cases hk : k = out.length
  · rw [hk, Function.update_self, bufferOf, if_pos (Int.natCast_nonneg _), Int.toNat_natCast]
    simp
  · rw [Function.update_of_ne hk, bufferOf, bufferOf]
    by_cases hneg : 0 ≤ k
    · rw [if_pos hneg, if_pos hneg, List.getElem?_append]
      by_cases hlt : k.toNat < out.length
      · rw [if_pos hlt]
      · rw [if_neg hlt, List.getElem?_eq_none (by omega), List.getElem?_eq_none]
        rw [List.length_singleton]
        omega
    · rw [if_neg hneg, if_neg hneg]

/-- The copy makes the bytes of `copyBack` when they fit into the buffer, and runs out of it when
they do not. -/
theorem copyLoop_bufferOf {out_cap : ℤ} (out_len : ℤ) (out : List UInt8) {dist : ℕ}
    (hint : out_cap < 2^31) (hdist : 0 < dist) (hback : (dist : ℤ) ≤ out_len) (n : ℕ) {j : ℤ}
    (hj : 0 ≤ j) (hlen : (out.length : ℤ) = out_len + j) (hfull : (out.length : ℤ) ≤ out_cap) :
    copyLoop out_cap out_len dist n j (bufferOf out) =
      if (out.length : ℤ) + n ≤ out_cap then some (bufferOf (copyBack out dist n)) else none := by
  -- Induction on the iterations that are left.
  induction n generalizing j out with
  | zero =>
    rw [copyLoop, if_pos (by omega)]
    rfl
  | succ n ih =>
    -- The byte that is read is written already, by the copy itself where it overlaps.
    have hread : bufferOf out (toInt32 (out_len - dist + j)) =
        some (out.getD (out.length - dist) 0) := by
      have hat : (out_len - dist + j).toNat = out.length - dist := by omega
      rw [toInt32_of_range (by omega), bufferOf, if_pos (by omega), hat,
        List.getD_eq_getElem?_getD, List.getElem?_eq_getElem (by omega)]
      rfl
    have hwrite : toInt32 (out_len + j) = out.length := by
      rw [toInt32_of_range (by omega), hlen]
    rw [copyLoop, hread, hwrite]
    by_cases hroom : (out.length : ℤ) < out_cap
    · -- The copy goes on behind one byte more.
      have hlen' : ((out ++ [out.getD (out.length - dist) 0]).length : ℤ) = out.length + 1 := by
        rw [List.length_append, List.length_singleton]
        push_cast
        rfl
      change (storeOut _ _ _ _).bind _ = _
      rw [storeOut_bufferOf _ hroom, Option.bind_some, ih _ (by omega) (by omega) (by omega), hlen',
        copyBack]
      congr 1
      rw [eq_iff_iff]
      push_cast
      omega
    · -- The buffer ends here.
      have hout : storeOut out_cap (bufferOf out) out.length (out.getD (out.length - dist) 0) =
          none := if_neg fun h => hroom h.2
      change (storeOut _ _ _ _).bind _ = _
      rw [hout, if_neg (by push_cast; omega)]
      rfl

/-- The state in which `out` is produced and `rest` is left to be read. -/
structure UnzipState.Holds (in_len : ℤ) (input : ℕ → UInt8) (s : UnzipState)
    (out rest : List UInt8) : Prop where
  i_nonneg : 0 ≤ s.i
  rest_eq : rest = (bytesOf in_len input).drop s.i.toNat
  len_eq : s.out_len = out.length
  out_eq : s.out = bufferOf out

namespace UnzipState.Holds

variable {in_len : ℤ} {input : ℕ → UInt8} {s : UnzipState} {out rest : List UInt8}

/-- The bytes from `in[i]` on are those left to be read. -/
theorem readIn_add (h : s.Holds in_len input out rest) (n : ℕ) :
    readIn in_len input (s.i + n) = rest[n]? := by
  have hi := h.i_nonneg
  have hat : (s.i + n).toNat = s.i.toNat + n := by omega
  rw [h.rest_eq, List.getElem?_drop, getElem?_bytesOf, readIn, hat]
  congr 1
  rw [eq_iff_iff]
  push_cast
  omega

/-- The tests for the end of the input count the bytes left. -/
theorem lt_iff (h : s.Holds in_len input out rest) (n : ℕ) :
    s.i + n < in_len ↔ n < rest.length := by
  have hi := h.i_nonneg
  have hlen : (bytesOf in_len input).length = in_len.toNat := by
    rw [bytesOf, List.length_map, List.length_range]
  rw [h.rest_eq, List.length_drop, hlen]
  omega

/-- The bytes left after some of them. -/
theorem drop_eq (h : s.Holds in_len input out rest) (n : ℕ) :
    rest.drop n = (bytesOf in_len input).drop (s.i + n).toNat := by
  have hi := h.i_nonneg
  have hat : (s.i + n).toNat = s.i.toNat + n := by omega
  rw [h.rest_eq, List.drop_drop, hat]

end UnzipState.Holds

/-- At the start nothing is produced. -/
theorem UnzipState.init_holds (in_len : ℤ) (input : ℕ → UInt8) :
    UnzipState.init.Holds in_len input [] (bytesOf in_len input) := by
  constructor
  · exact le_refl 0
  · rfl
  · rfl
  · funext k
    rw [bufferOf, List.getElem?_nil, ite_self]
    rfl

/-! ## What is rejected -/

/-- Tokens lead from the bytes produced and the bytes left to others of which `P` holds, all of them
within the buffer. -/
def Reaches (P : List UInt8 → List UInt8 → Prop) (out_cap : ℤ) (out rest : List UInt8) : Prop :=
  ∃ ts out' rest', (∀ t ∈ ts, t.Valid) ∧ rest = ts.flatMap Token.encode ++ rest' ∧
    expand out ts = some out' ∧ (out'.length : ℤ) ≤ out_cap ∧ P out' rest'

/-- The bytes left begin with no token that can be carried out. -/
inductive RejectedAt (out_cap : ℤ) (out : List UInt8) : List UInt8 → Prop
  /-- The input ends behind the escape byte. -/
  | escape : RejectedAt out_cap out [sp]
  /-- The input ends behind the length. -/
  | length (l : UInt8) (hl : l ≠ 0) : RejectedAt out_cap out [sp, l]
  /-- The match begins before the bytes produced. -/
  | distance (l d : UInt8) (rest : List UInt8) (hl : l ≠ 0) (hd : out.length < d.toNat + 1) :
    RejectedAt out_cap out ((Token.back l d).encode ++ rest)
  /-- The output is longer than the buffer. -/
  | room (t : Token) (out' rest : List UInt8) (ht : t.Valid) (hexp : t.expand out = some out')
    (hfull : out_cap < out'.length) : RejectedAt out_cap out (t.encode ++ rest)

/-- The bytes left begin with a match whose end is beyond the range of an `int`. -/
def OverflowsAt (out rest : List UInt8) : Prop :=
  ∃ l d rest', l ≠ 0 ∧ rest = (Token.back l d).encode ++ rest' ∧ d.toNat + 1 ≤ out.length ∧
    2^31 ≤ out.length + (l.toNat + 2)

/-- No token is the beginning of another one. -/
theorem Token.encode_append_inj {t u : Token} (ht : t.Valid) (hu : u.Valid)
    {rest rest' : List UInt8} (h : t.encode ++ rest = u.encode ++ rest') :
    t = u ∧ rest = rest' := by
  cases t with
  | literal b =>
    cases u with
    | literal c =>
      simp only [Token.encode] at h
      -- Only the escape byte takes two bytes, of which the second one is `0`.
      split_ifs at h with hb hc hc
      · simp_all
      · simp_all
      · simp_all
      · simp_all
    | back l d =>
      -- A match has a length other than `0` there, which tells it from an escaped byte.
      have hl : l ≠ 0 := hu
      simp only [Token.encode] at h
      split_ifs at h with hb
      · simp_all
      · simp_all
  | back l d =>
    have hl : l ≠ 0 := ht
    cases u with
    | literal c =>
      simp only [Token.encode] at h
      split_ifs at h with hc
      · simp_all
      · simp_all
    | back l' d' =>
      simp only [Token.encode, List.cons_append, List.cons.injEq] at h
      obtain ⟨-, rfl, rfl, h⟩ := h
      exact ⟨rfl, h⟩

theorem Token.encode_ne_nil (t : Token) : t.encode ≠ [] := by
  cases t with
  | literal b =>
    rw [Token.encode]
    split_ifs <;> simp
  | back len dist => simp [Token.encode]

/-- A token at a place that is rejected does not fit. -/
theorem RejectedAt.lt_of_token {out_cap : ℤ} {out out' rest : List UInt8} {t : Token} (ht : t.Valid)
    (hexp : t.expand out = some out') (h : RejectedAt out_cap out (t.encode ++ rest)) :
    out_cap < out'.length := by
  generalize hbytes : t.encode ++ rest = bytes at h
  cases h with
  | escape =>
    -- A token has a byte behind the escape byte.
    cases t with
    | literal b =>
      rw [Token.encode] at hbytes
      split_ifs at hbytes with hb
      · simp at hbytes
      · simp_all
    | back l d => simp [Token.encode] at hbytes
  | length l hl =>
    cases t with
    | literal b =>
      rw [Token.encode] at hbytes
      split_ifs at hbytes with hb
      · simp_all
      · simp_all
    | back l d => simp [Token.encode] at hbytes
  | distance l d rest' hl hd =>
    have hvalid : (Token.back l d).Valid := hl
    -- The token is this match, which cannot be carried out.
    obtain ⟨rfl, -⟩ := Token.encode_append_inj ht hvalid hbytes
    rw [Token.expand, if_pos hd] at hexp
    cases hexp
  | room u out'' rest' hu hexp' hfull =>
    obtain ⟨rfl, -⟩ := Token.encode_append_inj ht hu hbytes
    rw [hexp] at hexp'
    cases hexp'
    exact hfull

/-- Something is left where something is rejected. -/
theorem RejectedAt.ne_nil {out_cap : ℤ} {out rest : List UInt8} (h : RejectedAt out_cap out rest) :
    rest ≠ [] := by
  cases h with
  | escape => simp
  | length l hl => simp
  | distance l d rest hl hd => simp [Token.encode]
  | room t out' rest ht hexp hfull => simp [t.encode_ne_nil]

/-- A match beyond the range of an `int` is beyond the buffer. -/
theorem OverflowsAt.rejectedAt {out_cap : ℤ} (hint : out_cap < 2^31) {out rest : List UInt8}
    (h : OverflowsAt out rest) : RejectedAt out_cap out rest := by
  obtain ⟨l, d, rest', hl, rfl, hd, hlong⟩ := h
  refine .room _ (copyBack out (d.toNat + 1) (l.toNat + 2)) _ hl (if_neg (by omega)) ?_
  rw [length_copyBack]
  omega

section Reaches

variable {P : List UInt8 → List UInt8 → Prop} {out_cap : ℤ} {out out' rest : List UInt8}

/-- No token is needed to reach a place. -/
theorem Reaches.here (hcap : (out.length : ℤ) ≤ out_cap) (h : P out rest) :
    Reaches P out_cap out rest :=
  ⟨[], out, rest, by simp, rfl, rfl, hcap, h⟩

/-- Where no token fits there is only one place to reach. -/
theorem Reaches.of_stuck (h : Reaches P out_cap out rest)
    (hstuck : ∀ (t : Token) (out' rest' : List UInt8), t.Valid → rest = t.encode ++ rest' →
      t.expand out = some out' → out_cap < out'.length) : P out rest := by
  obtain ⟨ts, out', rest', hts, hrest, hexp, hcap, hP⟩ := h
  cases ts with
  | nil =>
    cases hexp
    rw [hrest]
    exact hP
  | cons t ts =>
    obtain ⟨mid, hmid, hexp⟩ := Option.bind_eq_some_iff.mp hexp
    rw [List.flatMap_cons, List.append_assoc] at hrest
    -- The first token would lead beyond the buffer, and the others make it no shorter.
    have hlong := hstuck t mid _ (hts t (by simp)) hrest hmid
    have hle := length_le_of_expand hexp
    omega

/-- A token that fits leads on. -/
theorem reaches_token {t : Token} (ht : t.Valid) (hexp : t.expand out = some out')
    (hnot : ¬ P out (t.encode ++ rest)) :
    Reaches P out_cap out (t.encode ++ rest) ↔ Reaches P out_cap out' rest := by
  constructor
  · rintro ⟨ts, out'', rest', hts, hrest, hexp', hcap', hP⟩
    cases ts with
    | nil =>
      cases hexp'
      rw [hrest] at hnot
      exact absurd hP hnot
    | cons u us =>
      -- The bytes begin with one token only.
      obtain ⟨mid, hmid, hexp'⟩ := Option.bind_eq_some_iff.mp hexp'
      rw [List.flatMap_cons, List.append_assoc] at hrest
      have hu : u.Valid := hts u (by simp)
      obtain ⟨rfl, htail⟩ := Token.encode_append_inj ht hu hrest
      rw [hexp] at hmid
      cases hmid
      exact ⟨us, out'', rest', fun v hv => hts v (by simp [hv]), htail, hexp', hcap', hP⟩
  · rintro ⟨ts, out'', rest', hts, hrest, hexp', hcap', hP⟩
    refine ⟨t :: ts, out'', rest', List.forall_mem_cons.mpr ⟨ht, hts⟩, ?_, ?_, hcap', hP⟩
    · rw [hrest, List.flatMap_cons, List.append_assoc]
    · rw [expand, hexp]
      exact hexp'

/-- At a place that is rejected the matches beyond the range of an `int` are the one there. -/
theorem RejectedAt.overflows_iff (h : RejectedAt out_cap out rest)
    (hcap : (out.length : ℤ) ≤ out_cap) :
    Reaches OverflowsAt out_cap out rest ↔ OverflowsAt out rest := by
  constructor
  · intro hreach
    refine hreach.of_stuck ?_
    rintro t out' rest' ht rfl hexp
    exact h.lt_of_token ht hexp
  · exact Reaches.here hcap

/-- Behind all the tokens nothing is rejected. -/
theorem not_reaches_nil (hnil : ¬ P out []) : ¬ Reaches P out_cap out [] := by
  intro hreach
  refine hnil (hreach.of_stuck ?_)
  intro t out' rest' ht hrest
  exact absurd (List.append_eq_nil_iff.mp hrest.symm).1 t.encode_ne_nil

end Reaches

/-! ## An iteration -/

section Iteration

variable {out_cap in_len : ℤ} {input : ℕ → UInt8} {s : UnzipState} {out rest : List UInt8}

/-- The bytes that an iteration looks at, as far as there are any. -/
theorem UnzipState.Holds.reads (h : s.Holds in_len input out rest) :
    readIn in_len input s.i = rest[0]? ∧ readIn in_len input (s.i + 1) = rest[1]? ∧
      readIn in_len input (s.i + 2) = rest[2]? := by
  have h0 := h.readIn_add 0
  rw [Nat.cast_zero, add_zero] at h0
  exact ⟨h0, h.readIn_add 1, h.readIn_add 2⟩

/-- The tests for the end of the input that an iteration makes. -/
theorem UnzipState.Holds.ends (h : s.Holds in_len input out rest) :
    (in_len ≤ s.i + 1 ↔ rest.length ≤ 1) ∧ (in_len ≤ s.i + 2 ↔ rest.length ≤ 2) := by
  have h1 := h.lt_iff 1
  have h2 := h.lt_iff 2
  push_cast at h1 h2
  omega

/-- An iteration at the escape byte as the last one. -/
theorem unzipBody_escape (h : s.Holds in_len input out [sp]) :
    unzipBody out_cap in_len input s = some (.returned false) := by
  have hend : in_len ≤ s.i + 1 := h.ends.1.mpr (by simp)
  rw [unzipBody, h.reads.1]
  simp only [List.getElem?_cons_zero, Option.bind_eq_bind, Option.bind_some]
  rw [if_pos trivial, if_pos hend]

/-- An iteration at a length as the last byte. -/
theorem unzipBody_length {l : UInt8} (hl : l ≠ 0) (h : s.Holds in_len input out [sp, l]) :
    unzipBody out_cap in_len input s = some (.returned false) := by
  have hmore : ¬ in_len ≤ s.i + 1 := fun hle => absurd (h.ends.1.mp hle) (by simp)
  have hend : in_len ≤ s.i + 2 := h.ends.2.mpr (by simp)
  rw [unzipBody, h.reads.1, h.reads.2.1]
  simp only [List.getElem?_cons_zero, List.getElem?_cons_succ, Option.bind_eq_bind,
    Option.bind_some]
  rw [if_pos trivial, if_neg hmore, if_pos hl, if_pos hend]

/-- An iteration at a match. -/
theorem unzipBody_back {l d : UInt8} (hl : l ≠ 0)
    (h : s.Holds in_len input out ((Token.back l d).encode ++ rest)) :
    unzipBody out_cap in_len input s =
      if s.out_len < d.toNat + 1 then some (.returned false)
      else if out_cap < toInt32 (s.out_len + (l.toNat + 2)) then some (.returned false)
      else (copyLoop out_cap s.out_len (d.toNat + 1) (l.toNat + 2) 0 s.out).bind fun out =>
        some (.goesOn ⟨s.i + 3, toInt32 (s.out_len + (l.toNat + 2)), out⟩) := by
  have hmore : ¬ in_len ≤ s.i + 1 := fun hle => absurd (h.ends.1.mp hle) (by simp [Token.encode])
  have hmore' : ¬ in_len ≤ s.i + 2 := fun hle => absurd (h.ends.2.mp hle) (by simp [Token.encode])
  rw [unzipBody, h.reads.1, h.reads.2.1, h.reads.2.2]
  simp only [Token.encode, List.cons_append, List.getElem?_cons_zero, List.getElem?_cons_succ,
    Option.bind_eq_bind, Option.bind_some]
  rw [if_pos trivial, if_neg hmore, if_pos hl, if_neg hmore']

/-- An iteration at a byte that stands for itself. -/
theorem unzipBody_literal {b : UInt8}
    (h : s.Holds in_len input out ((Token.literal b).encode ++ rest)) :
    unzipBody out_cap in_len input s =
      if out_cap ≤ s.out_len then some (.returned false)
      else (storeOut out_cap s.out s.out_len b).bind fun out =>
        some (.goesOn ⟨s.i + (Token.literal b).encode.length, s.out_len + 1, out⟩) := by
  by_cases hb : b = sp
  · -- The escape byte is followed by `0`.
    have henc : (Token.literal b).encode = [sp, 0] := if_pos hb
    rw [henc] at h ⊢
    have hmore : ¬ in_len ≤ s.i + 1 := fun hle => absurd (h.ends.1.mp hle) (by simp)
    rw [unzipBody, h.reads.1, h.reads.2.1]
    simp only [List.cons_append, List.getElem?_cons_zero, List.getElem?_cons_succ,
      Option.bind_eq_bind, Option.bind_some]
    rw [if_pos trivial, if_neg hmore, if_neg (by decide), hb]
    rfl
  · have henc : (Token.literal b).encode = [b] := if_neg hb
    rw [henc] at h ⊢
    rw [unzipBody, h.reads.1]
    simp only [List.cons_append, List.getElem?_cons_zero, Option.bind_eq_bind, Option.bind_some]
    rw [if_neg hb]
    rfl

/-- The state after a token. -/
theorem UnzipState.Holds.next {out' : List UInt8} {t : Token} {s' : UnzipState}
    (h : s.Holds in_len input out (t.encode ++ rest)) (hi : s'.i = s.i + t.encode.length)
    (hlen : s'.out_len = out'.length) (hout : s'.out = bufferOf out') :
    s'.Holds in_len input out' rest := by
  constructor
  · have hi0 := h.i_nonneg
    omega
  · have hdrop := h.drop_eq t.encode.length
    rw [List.drop_left, ← hi] at hdrop
    exact hdrop
  · exact hlen
  · exact hout

/-- An iteration at a token that fits carries it out. -/
theorem unzipBody_token {out' : List UInt8} {t : Token} (ht : t.Valid)
    (hexp : t.expand out = some out') (hint : out_cap < 2^31) (hcap : (out'.length : ℤ) ≤ out_cap)
    (h : s.Holds in_len input out (t.encode ++ rest)) :
    ∃ s', unzipBody out_cap in_len input s = some (.goesOn s') ∧
      s'.Holds in_len input out' rest := by
  have hlen := h.len_eq
  cases t with
  | literal b =>
    have he : out ++ [b] = out' := Option.some.inj hexp
    -- The byte goes behind those that are written.
    have hout' : out'.length = out.length + 1 := by
      rw [← he, List.length_append, List.length_singleton]
    rw [unzipBody_literal h, if_neg (by omega), hlen, h.out_eq, storeOut_bufferOf b (by omega), he]
    refine ⟨_, rfl, h.next rfl ?_ rfl⟩
    rw [hout']
    push_cast
    rfl
  | back l d =>
    obtain ⟨hd, he, hout'⟩ := Token.expand_back hexp
    -- The end of the match is within the buffer, so the sum does not wrap.
    have hsum : toInt32 (s.out_len + (l.toNat + 2)) = out'.length := by
      rw [toInt32_of_range (by omega)]
      omega
    have hcopy := copyLoop_bufferOf s.out_len out hint
      (Nat.succ_pos d.toNat) (by push_cast; omega) (l.toNat + 2) le_rfl (by omega) (by omega)
    rw [if_pos (by push_cast; omega), he] at hcopy
    push_cast at hcopy
    rw [unzipBody_back ht h, if_neg (by omega), hsum, if_neg (by omega), h.out_eq, hcopy]
    exact ⟨_, rfl, h.next rfl rfl rfl⟩

/-- An iteration where no token fits returns false, unless the end of a match is beyond the range of
an `int`: then it writes behind the buffer. -/
theorem unzipBody_rejected (hint : out_cap < 2^31) (hcap : (out.length : ℤ) ≤ out_cap)
    (hrej : RejectedAt out_cap out rest) (h : s.Holds in_len input out rest) :
    (OverflowsAt out rest → unzipBody out_cap in_len input s = none) ∧
      (¬ OverflowsAt out rest → unzipBody out_cap in_len input s = some (.returned false)) := by
  have hlen := h.len_eq
  cases hrej with
  | escape =>
    refine ⟨?_, fun _ => unzipBody_escape h⟩
    rintro ⟨l, d, rest', -, hrest, -⟩
    cases hrest
  | length l hl =>
    refine ⟨?_, fun _ => unzipBody_length hl h⟩
    rintro ⟨l', d, rest', -, hrest, -⟩
    cases hrest
  | distance l d rest' hl hd =>
    -- The distance is tested before the length, so such a match is refused whatever its end is.
    constructor
    · rintro ⟨l', d', rest'', -, hrest, hd', -⟩
      cases hrest
      omega
    · intro _
      rw [unzipBody_back hl h, if_pos (by omega)]
  | room t out' rest' ht hexp hfull =>
    cases t with
    | literal b =>
      have he : out ++ [b] = out' := Option.some.inj hexp
      rw [← he, List.length_append, List.length_singleton] at hfull
      constructor
      · rintro ⟨l, d, rest'', hl, hrest, -⟩
        -- A literal is no match.
        have hback : (Token.back l d).Valid := hl
        obtain ⟨hne, -⟩ := Token.encode_append_inj ht hback hrest
        cases hne
      · intro _
        rw [unzipBody_literal h, if_pos (by push_cast at hfull; omega)]
    | back l d =>
      obtain ⟨hd, he, hout'⟩ := Token.expand_back hexp
      rw [hout'] at hfull
      push_cast at hfull
      have hl256 := l.toNat_lt
      have hbody : unzipBody out_cap in_len input s = _ := unzipBody_back ht h
      rw [if_neg (by omega)] at hbody
      constructor
      · -- The sum wraps to a negative number, which the test lets pass.
        rintro ⟨l', d', rest'', -, hrest, -, hlong⟩
        cases hrest
        have hwrap : toInt32 (s.out_len + (l.toNat + 2)) < 0 := by
          rw [toInt32, Int.bmod_def]
          split_ifs <;> omega
        have hcopy := copyLoop_bufferOf s.out_len out hint
          (Nat.succ_pos d.toNat) (by push_cast; omega) (l.toNat + 2) le_rfl (by omega) hcap
        rw [if_neg (by push_cast; omega)] at hcopy
        push_cast at hcopy
        rw [hbody, if_neg (by omega), h.out_eq, hcopy]
        rfl
      · intro hnot
        -- The sum is in range, and the test sees that the match does not fit.
        have hlong : out.length + (l.toNat + 2) < 2^31 := by
          by_contra hlong
          exact hnot ⟨l, d, rest', ht, rfl, by omega, by omega⟩
        rw [hbody, toInt32_of_range (by omega), if_pos (by omega)]

end Iteration

/-! ## The loop -/

section Loop

variable {out_cap in_len : ℤ} {input : ℕ → UInt8} {s : UnzipState} {out rest : List UInt8}

/-- The bytes left begin with a token that fits, or they are rejected, or there are none. -/
theorem token_or_rejected (out_cap : ℤ) (out rest : List UInt8) :
    rest = [] ∨ RejectedAt out_cap out rest ∨ ∃ (t : Token) (out' rest' : List UInt8), t.Valid ∧
      rest = t.encode ++ rest' ∧ t.expand out = some out' ∧ (out'.length : ℤ) ≤ out_cap := by
  -- A token that can be carried out is rejected for want of room only.
  have hfits : ∀ (t : Token) (out' rest' : List UInt8), t.Valid → t.expand out = some out' →
      RejectedAt out_cap out (t.encode ++ rest') ∨ (out'.length : ℤ) ≤ out_cap := by
    intro t out' rest' ht hexp
    rcases lt_or_ge out_cap (out'.length : ℤ) with hfull | hcap
    · exact .inl (.room t out' rest' ht hexp hfull)
    · exact .inr hcap
  have hliteral : ∀ (b : UInt8) (rest' : List UInt8), rest = (Token.literal b).encode ++ rest' →
      RejectedAt out_cap out rest ∨ ∃ (t : Token) (out' rest' : List UInt8), t.Valid ∧
        rest = t.encode ++ rest' ∧ t.expand out = some out' ∧ (out'.length : ℤ) ≤ out_cap := by
    rintro b rest' rfl
    refine (hfits (.literal b) _ rest' trivial rfl).imp_right fun hcap => ?_
    exact ⟨.literal b, _, rest', trivial, rfl, rfl, hcap⟩
  rcases rest with _ | ⟨c, rest⟩
  · exact .inl rfl
  right
  by_cases hc : c = sp
  · subst hc
    rcases rest with _ | ⟨l, rest⟩
    · exact .inl .escape
    -- Behind the escape byte: `0`, or a length with a distance behind it.
    by_cases hl : l = 0
    · exact hliteral sp rest (by rw [hl]; rfl)
    · rcases rest with _ | ⟨d, rest⟩
      · exact .inl (.length l hl)
      by_cases hd : out.length < d.toNat + 1
      · exact .inl (.distance l d rest hl hd)
      · have hexp : (Token.back l d).expand out =
            some (copyBack out (d.toNat + 1) (l.toNat + 2)) := if_neg hd
        refine (hfits (.back l d) _ rest hl hexp).imp_right fun hcap => ?_
        exact ⟨.back l d, _, rest, hl, rfl, hexp, hcap⟩
  · have henc : (Token.literal c).encode = [c] := if_neg hc
    exact hliteral c rest (by rw [henc]; rfl)

/-- `unzipLoop` returns false where no token fits. -/
theorem RejectedAt.unzipLoop_eq {out_cap : ℕ} (h : RejectedAt out_cap out rest) :
    unzipLoop out_cap out rest = (false, out) := by
  cases h with
  | escape => rfl
  | length l hl =>
    rw [unzipLoop.eq_def]
    dsimp only
    rw [if_pos rfl, if_pos hl]
  | distance l d rest hl hd =>
    rw [unzipLoop.eq_def]
    dsimp only [Token.encode, List.cons_append]
    rw [if_pos rfl, if_pos hl, List.nil_append, if_pos hd]
  | room t out' rest ht hexp hfull =>
    cases t with
    | literal b =>
      have he : out ++ [b] = out' := Option.some.inj hexp
      rw [← he, List.length_append, List.length_singleton] at hfull
      have hroom : out_cap ≤ out.length := by omega
      rw [unzipLoop.eq_def]
      -- The test for room is the same for an escaped byte and any other.
      by_cases hb : b = sp
      · rw [Token.encode, if_pos hb]
        dsimp only [List.cons_append]
        rw [if_pos rfl, if_neg (by decide), if_pos hroom]
      · rw [Token.encode, if_neg hb]
        dsimp only [List.cons_append]
        rw [if_neg hb, if_pos hroom]
    | back l d =>
      have hl : l ≠ 0 := ht
      obtain ⟨hd, he, hout'⟩ := Token.expand_back hexp
      rw [hout'] at hfull
      have hroom : out_cap < out.length + (l.toNat + 2) := by omega
      rw [unzipLoop.eq_def]
      dsimp only [Token.encode, List.cons_append]
      rw [if_pos rfl, if_pos hl, if_neg hd, if_pos hroom]

/-- The loop goes as its iterations do. -/
theorem unzipFrom_eq (hlt : s.i < in_len) :
    unzipFrom out_cap in_len input s = (unzipBody out_cap in_len input s).bind fun
      | .returned ret => some (ret, s.out_len)
      | .goesOn s' => unzipFrom out_cap in_len input s' := by
  rw [unzipFrom, if_pos hlt]
  split <;> simp_all

/-- `unzip` ends without a result exactly when it comes to a match whose end is beyond the range of
an `int`. Otherwise it returns what `unzipLoop` does, and it returns false exactly when it comes to
a place that is rejected. -/
theorem unzipFrom_spec (out_cap : ℕ) (hint : (out_cap : ℤ) < 2^31)
    (h : s.Holds in_len input out rest) (hcap : (out.length : ℤ) ≤ out_cap) :
    (Reaches OverflowsAt out_cap out rest ∧ unzipFrom out_cap in_len input s = none) ∨
    (¬ Reaches OverflowsAt out_cap out rest ∧ ∃ ret out',
      unzipFrom out_cap in_len input s = some (ret, (out'.length : ℤ)) ∧
      unzipLoop out_cap out rest = (ret, out') ∧ (out'.length : ℤ) ≤ out_cap ∧
      (ret = false ↔ Reaches (RejectedAt out_cap) out_cap out rest)) := by
  -- Induction on the bytes left: every token has some.
  induction hn : rest.length using Nat.strong_induction_on generalizing s out rest with
  | _ n ih =>
  have hmore : s.i < in_len ↔ 0 < rest.length := by
    have hlt := h.lt_iff 0
    rwa [Nat.cast_zero, add_zero] at hlt
  rcases token_or_rejected out_cap out rest with rfl | hrej | ⟨t, out', rest', ht, rfl, hexp, hcap'⟩
  · -- The end of the input.
    right
    have hover : ¬ OverflowsAt out [] := by
      rintro ⟨l, d, rest', -, hrest, -⟩
      cases hrest
    have hrej : ¬ RejectedAt out_cap out [] := fun hrej => hrej.ne_nil rfl
    refine ⟨not_reaches_nil hover, true, out, ?_, rfl, hcap, ?_⟩
    · rw [unzipFrom, if_neg (by rw [hmore]; exact lt_irrefl 0), h.len_eq]
    · exact iff_of_false Bool.noConfusion (not_reaches_nil hrej)
  · -- A place that is rejected.
    have hpos : s.i < in_len := hmore.mpr (List.length_pos_iff.mpr hrej.ne_nil)
    obtain ⟨hfault, hfalse⟩ := unzipBody_rejected hint hcap hrej h
    rw [unzipFrom_eq hpos, hrej.overflows_iff hcap]
    by_cases hover : OverflowsAt out rest
    · left
      rw [hfault hover]
      exact ⟨hover, rfl⟩
    · right
      refine ⟨hover, false, out, ?_, hrej.unzipLoop_eq, hcap, iff_of_true rfl (.here hcap hrej)⟩
      rw [hfalse hover, ← h.len_eq]
      rfl
  · -- A token: the places that are reached are those behind it.
    have hrej : ¬ RejectedAt out_cap out (t.encode ++ rest') := by
      intro hrej
      have hfull := hrej.lt_of_token ht hexp
      omega
    have hover : ¬ OverflowsAt out (t.encode ++ rest') := fun hover => hrej (hover.rejectedAt hint)
    have hlen : 0 < t.encode.length := List.length_pos_iff.mpr t.encode_ne_nil
    rw [List.length_append] at hmore hn
    obtain ⟨s', hbody, h'⟩ := unzipBody_token ht hexp hint hcap' h
    have hrest := ih rest'.length (by omega) h' hcap' rfl
    rw [unzipFrom_eq (hmore.mpr (by omega)), hbody, reaches_token ht hexp hover,
      reaches_token ht hexp hrej, unzipLoop_token ht hexp (by exact_mod_cast hcap')]
    exact hrest

end Loop

/-! ## Hostile input -/

/-- What `unzip` keeps to on any bytes: there is a result, so that no access was outside of the
buffers or to a byte of `out` that is not written; `out_len` is in range whenever the test of the
loop is made, and at the end; and the input is rejected for the reasons of the format only. -/
structure UnzipSafe (out_cap in_len : ℤ) (input : ℕ → UInt8) : Prop where
  out_len_le : ∀ s, Reach (unzipStep out_cap in_len input) .init anyStep s →
    0 ≤ s.out_len ∧ s.out_len ≤ out_cap
  returns : ∃ ret out_len, unzipFrom out_cap in_len input .init = some (ret, out_len) ∧
    0 ≤ out_len ∧ out_len ≤ out_cap ∧
    (ret = false ↔ Reaches (RejectedAt out_cap) out_cap [] (bytesOf in_len input))

/-- The iterations keep to the states of the format. -/
theorem exists_holds {out_cap in_len : ℤ} {input : ℕ → UInt8} {s : UnzipState} (h0 : 0 ≤ out_cap)
    (hint : out_cap < 2^31) (run : Reach (unzipStep out_cap in_len input) .init anyStep s) :
    ∃ out rest, s.Holds in_len input out rest ∧ (out.length : ℤ) ≤ out_cap := by
  refine run.invariant
    (I := fun s => ∃ out rest, s.Holds in_len input out rest ∧ (out.length : ℤ) ≤ out_cap)
    ⟨[], _, UnzipState.init_holds in_len input, h0⟩ ?_
  rintro s a s' - ⟨out, rest, h, hcap⟩ - hstep
  unfold unzipStep at hstep
  by_cases hlt : s.i < in_len
  · rw [if_pos hlt] at hstep
    rcases token_or_rejected out_cap out rest with
      rfl | hrej | ⟨t, out', rest', ht, rfl, hexp, hcap'⟩
    · -- There is a byte left.
      have hpos := h.lt_iff 0
      rw [Nat.cast_zero, add_zero] at hpos
      exact absurd (hpos.mp hlt) (lt_irrefl 0)
    · -- Nothing behind an iteration that returns or does not end.
      obtain ⟨hfault, hfalse⟩ := unzipBody_rejected hint hcap hrej h
      by_cases hover : OverflowsAt out rest
      · rw [hfault hover] at hstep
        cases hstep
      · rw [hfalse hover] at hstep
        cases hstep
    · obtain ⟨s'', hbody, h'⟩ := unzipBody_token ht hexp hint hcap' h
      rw [hbody] at hstep
      cases hstep
      exact ⟨out', rest', h', hcap'⟩
  · rw [if_neg hlt] at hstep
    cases hstep

section Safe

variable {out_cap in_len : ℤ} {input : ℕ → UInt8}

/-- `unzip` from its start, as `unzipFrom_spec` has it. -/
theorem unzipFrom_init (in_len : ℤ) (input : ℕ → UInt8) (h0 : 0 ≤ out_cap) (hint : out_cap < 2^31) :
    (Reaches OverflowsAt out_cap [] (bytesOf in_len input) ∧
      unzipFrom out_cap in_len input .init = none) ∨
    (¬ Reaches OverflowsAt out_cap [] (bytesOf in_len input) ∧ ∃ ret out',
      unzipFrom out_cap in_len input .init = some (ret, (out'.length : ℤ)) ∧
      unzip out_cap.toNat (bytesOf in_len input) = (ret, out') ∧ (out'.length : ℤ) ≤ out_cap ∧
      (ret = false ↔ Reaches (RejectedAt out_cap) out_cap [] (bytesOf in_len input))) := by
  have hnat : (out_cap.toNat : ℤ) = out_cap := Int.toNat_of_nonneg h0
  have hspec := unzipFrom_spec out_cap.toNat (by omega)
    (UnzipState.init_holds in_len input) (by simp)
  rwa [hnat] at hspec

/-- Without a match whose end is beyond the range of an `int` there is a result. -/
theorem unzipSafe_of_not_reaches (h0 : 0 ≤ out_cap) (hint : out_cap < 2^31)
    (hnot : ¬ Reaches OverflowsAt out_cap [] (bytesOf in_len input)) :
    UnzipSafe out_cap in_len input := by
  obtain ⟨hover, -⟩ | ⟨-, ret, out', hret, -, hcap, hrej⟩ := unzipFrom_init in_len input h0 hint
  · exact absurd hover hnot
  constructor
  · intro s run
    -- `out_len` counts the bytes that are written.
    obtain ⟨out, rest, h, hfits⟩ := exists_holds h0 hint run
    have hlen := h.len_eq
    omega
  · exact ⟨ret, out'.length, hret, Int.natCast_nonneg _, hcap, hrej⟩

/-- With one there is none. -/
theorem not_unzipSafe_of_reaches (h0 : 0 ≤ out_cap) (hint : out_cap < 2^31)
    (hover : Reaches OverflowsAt out_cap [] (bytesOf in_len input)) :
    ¬ UnzipSafe out_cap in_len input := by
  rintro ⟨-, ret, out_len, hret, -⟩
  obtain ⟨-, hnone⟩ | ⟨hnot, -⟩ := unzipFrom_init in_len input h0 hint
  · rw [hret] at hnone
    cases hnone
  · exact hnot hover

/-- A buffer this small is full before a sum leaves the range of an `int`. -/
theorem not_reaches_of_le (hsmall : out_cap ≤ 2^31 - 258) (bytes : List UInt8) :
    ¬ Reaches OverflowsAt out_cap [] bytes := by
  rintro ⟨ts, out, rest, -, -, -, hcap, l, d, rest', -, -, -, hlong⟩
  have hl := l.toNat_lt
  omega

/-- `unzip` is safe on any bytes for a buffer of less than `2^31 - 257` bytes, such as `bufRead`. -/
theorem unzip_safe (h0 : 0 ≤ out_cap) (hsmall : out_cap ≤ 2^31 - 258) :
    UnzipSafe out_cap in_len input :=
  unzipSafe_of_not_reaches h0 (by omega) (not_reaches_of_le hsmall _)

/-- `unzip` is safe on exactly the inputs without a match, behind tokens that fit into the buffer,
whose end is beyond the range of an `int`. -/
theorem unzip_safe_iff (h0 : 0 ≤ out_cap) (hint : out_cap < 2^31) (input : ℕ → UInt8) :
    UnzipSafe out_cap in_len input ↔ ¬ Reaches OverflowsAt out_cap [] (bytesOf in_len input) := by
  constructor
  · intro hsafe hover
    exact not_unzipSafe_of_reaches h0 hint hover hsafe
  · exact unzipSafe_of_not_reaches h0 hint

end Safe

/-- A match at distance `2` behind one byte. -/
theorem unzip_safe_short : UnzipSafe 8 4 fun n => [97, 124, 1, 1].getD n 0 :=
  (unzip_safe_iff (by decide) (by decide) _).mpr (not_reaches_of_le (by decide) _)

/-- A byte, and so many matches of all it takes. -/
def repeated (n : ℕ) : List UInt8 := 97 :: (List.replicate n (Token.back 255 0).encode).flatten

/-- A list as memory. -/
theorem bytesOf_getD (bytes : List UInt8) : bytesOf bytes.length (bytes.getD · 0) = bytes := by
  apply List.ext_getElem?
  intro n
  rw [getElem?_bytesOf, List.getD_eq_getElem?_getD]
  by_cases hn : n < bytes.length
  · rw [if_pos (by exact_mod_cast hn), List.getElem?_eq_getElem hn]
    rfl
  · rw [if_neg (by exact_mod_cast hn), List.getElem?_eq_none (by omega)]

/-- Every match makes `257` bytes of the byte before it. -/
theorem expand_replicate (n : ℕ) (out : List UInt8) (hout : out ≠ []) :
    ∃ out', expand out (List.replicate n (.back 255 0)) = some out' ∧
      out'.length = out.length + 257 * n := by
  induction n generalizing out with
  | zero => exact ⟨out, rfl, rfl⟩
  | succ n ih =>
    have hpos := List.length_pos_iff.mpr hout
    have hmid : (copyBack out 1 257).length = out.length + 257 := length_copyBack out 1 257
    have hne : copyBack out 1 257 ≠ [] := List.length_pos_iff.mp (by omega)
    -- There is a byte at distance `1`.
    have hback : (Token.back 255 0).expand out = some (copyBack out 1 257) :=
      if_neg (by have h0 : (0 : UInt8).toNat = 0 := rfl; omega)
    obtain ⟨out', hexp, hlen⟩ := ih _ hne
    refine ⟨out', ?_, by omega⟩
    rw [List.replicate_succ, expand, hback]
    exact hexp

/-- The matches fit up to the last one, whose end is beyond the range of an `int`. -/
theorem reaches_repeated {out_cap : ℤ} (n : ℕ) (hfits : 1 + 257 * (n : ℤ) ≤ out_cap)
    (hlong : 2^31 ≤ 1 + 257 * (n + 1)) :
    Reaches OverflowsAt out_cap [] (repeated (n + 1)) := by
  obtain ⟨out', hexp, hlen⟩ := expand_replicate n [97] (by simp)
  have hlen' : out'.length = 1 + 257 * n := hlen
  refine ⟨.literal 97 :: List.replicate n (.back 255 0), out', (Token.back 255 0).encode ++ [],
    ?_, ?_, hexp, by omega, 255, 0, [], by decide, rfl, ?_, ?_⟩
  · intro t ht
    rcases List.mem_cons.mp ht with rfl | ht
    · trivial
    · rw [List.eq_of_mem_replicate ht]
      exact (by decide : (255 : UInt8) ≠ 0)
  · rw [repeated, List.replicate_succ', List.flatten_append, List.flatMap_cons, List.flatMap,
      List.map_replicate]
    rfl
  · have h0 : (0 : UInt8).toNat = 0 := rfl
    omega
  · have h255 : (255 : UInt8).toNat = 255 := rfl
    omega

/-- The largest buffer, and a byte with `8355968` matches of `257` bytes: the last one would end at
`2^31 + 129`. -/
theorem repeated_not_safe :
    ¬ UnzipSafe 2147483647 (repeated 8355968).length ((repeated 8355968).getD · 0) := by
  apply not_unzipSafe_of_reaches (by decide) (by decide)
  rw [bytesOf_getD]
  exact reaches_repeated 8355967 (by norm_num) (by norm_num)

end Lz77

end Catse
