import Catse.Lib.Huffman
import Catse.Myxml2.Inflate

/-!
# Reading bits and symbols

`tinfReadBits` reads the field at the current position and moves on behind it, whatever the position
is within a byte (`tinfReadBits_at`). `tinfBuildTree` counts the lengths and sorts the symbols by
them (`tinfBuildTree_sorted`). On the first bits of a code, `cur` in `tinfDecodeSymbol` is how far
the number that was read is above the codes that are used up, and `sum` is how many symbols have
codes that are no longer. As soon as `cur` is negative the bits are the code of a symbol, and
`sum + cur` is its place among the sorted ones.
-/

namespace Catse.Myxml2

open Huffman

/-! ## Positions -/

namespace TinfData

/-- How many bits of the input have been read. -/
def pos (d : TinfData) : ℕ :=
  if d.bitcount = 0 then 8 * d.source else 8 * (d.source - 1) + d.bitcount

/-- The same state, with `p` bits of the input read. -/
def seek (d : TinfData) (p : ℕ) : TinfData :=
  { d with
    source := (p + 7) / 8
    bitcount := p % 8
    bitcount_lt := Nat.mod_lt _ (by decide)
    started := by omega }

/-- The pointer and the count are determined by the position. -/
theorem seek_pos (d : TinfData) : d.seek d.pos = d := by
  have hlt := d.bitcount_lt
  have hstart := d.started
  unfold pos
  split_ifs with h
  · ext1
    · show (8 * d.source + 7) / 8 = d.source
      omega
    · show 8 * d.source % 8 = d.bitcount
      omega
    · rfl
    · rfl
    · rfl
  · have hpos := hstart h
    ext1
    · show (8 * (d.source - 1) + d.bitcount + 7) / 8 = d.source
      omega
    · show (8 * (d.source - 1) + d.bitcount) % 8 = d.bitcount
      omega
    · rfl
    · rfl
    · rfl

@[simp] theorem pos_seek (d : TinfData) (p : ℕ) : (d.seek p).pos = p := by
  unfold pos
  show (if p % 8 = 0 then 8 * ((p + 7) / 8) else 8 * ((p + 7) / 8 - 1) + p % 8) = p
  split_ifs <;> omega

end TinfData

/-- The two parts of a field, as they are put together. -/
theorem field_or (src : List UInt8) (q j k sum weight : ℕ) :
    (sum ||| field src q j <<< weight) ||| field src (q + j) k <<< (weight + j) =
      sum ||| field src q (j + k) <<< weight := by
  have hparts : field src q (j + k) = field src q j ||| field src (q + j) k <<< j := by
    rw [field_add, add_comm, Nat.two_pow_add_eq_or_of_lt (field_lt src q j), Nat.lor_comm,
      Nat.shiftLeft_eq, mul_comm]
  rw [hparts, Nat.shiftLeft_or_distrib, ← Nat.shiftLeft_add, add_comm j weight, Nat.lor_assoc]

/-- The loop reads a field, whose first bits are in the current byte. -/
theorem tinfReadLoop_spec (src : List UInt8) (d : TinfData) (hsource : 0 < d.source) {num : ℕ}
    (hnum : 0 < num) (hlen : 8 * (d.source - 1) + d.bitcount + num ≤ 8 * src.length)
    (sum weight : ℕ) :
    tinfReadLoop src d hsource num sum weight =
      .ok (sum ||| field src (8 * (d.source - 1) + d.bitcount) num <<< weight,
        d.seek (8 * (d.source - 1) + d.bitcount + num)) := by
  fun_induction tinfReadLoop src d hsource num sum weight with
  | case1 d hsource num sum weight hnone =>
    have := List.getElem?_eq_none_iff.mp hnone
    omega
  | case2 d hsource num sum weight b hb hfit =>
    -- The field ends in this byte. The byte after it is fetched when the next field is read.
    have hbyte : src.getD (d.source - 1) 0 = b := by rw [List.getD, hb]; rfl
    have hbits : b.toNat >>> d.bitcount &&& (1 <<< num) - 1 =
        field src (8 * (d.source - 1) + d.bitcount) num := by
      rw [Nat.shiftRight_eq_div_pow, Nat.one_shiftLeft, Nat.and_two_pow_sub_one_eq_mod, ← hbyte,
        byte_shift src _ (by omega)]
    have hmask : d.bitcount + num &&& 7 = (d.bitcount + num) % 8 :=
      Nat.and_two_pow_sub_one_eq_mod _ 3
    have hstate : ∀ h₁ h₂, ({ d with
        bitcount := d.bitcount + num &&& 7
        bitcount_lt := h₁
        started := h₂ } : TinfData) = d.seek (8 * (d.source - 1) + d.bitcount + num) := by
      intro h₁ h₂
      ext1
      · show d.source = (8 * (d.source - 1) + d.bitcount + num + 7) / 8
        omega
      · show d.bitcount + num &&& 7 = (8 * (d.source - 1) + d.bitcount + num) % 8
        omega
      · rfl
      · rfl
      · rfl
    rw [hbits, hstate]
  | case3 d hsource num sum weight b hb hfit ih =>
    -- The field goes on in the next byte: what is left of this one are its low bits.
    have hlt := d.bitcount_lt
    have hbyte : src.getD (d.source - 1) 0 = b := by rw [List.getD, hb]; rfl
    have hbits : b.toNat >>> d.bitcount =
        field src (8 * (d.source - 1) + d.bitcount) (8 - d.bitcount) := by
      have hb8 := b.toNat_lt
      have hsmall : b.toNat / 2^d.bitcount < 2^(8 - d.bitcount) := by
        rw [Nat.div_lt_iff_lt_mul (Nat.two_pow_pos _), ← pow_add, Nat.sub_add_cancel hlt.le]
        exact hb8
      rw [Nat.shiftRight_eq_div_pow, ← byte_shift src _ (by omega), hbyte, Nat.mod_eq_of_lt hsmall]
    have hnext : 8 * (d.source + 1 - 1) + 0 =
        8 * (d.source - 1) + d.bitcount + (8 - d.bitcount) := by
      omega
    have hrest := ih (by omega) (by dsimp only; omega)
    dsimp only at hrest
    rw [hrest, hnext, hbits, field_or]
    have hnum' : 8 - d.bitcount + (num - (8 - d.bitcount)) = num := by omega
    rw [add_assoc (8 * (d.source - 1) + d.bitcount), hnum']
    rfl

/-- `tinfReadBits` reads a field and moves on behind it. -/
theorem tinfReadBits_seek {src : List UInt8} {p num : ℕ} (hnum : num < 14)
    (hlen : p + num ≤ 8 * src.length) (d : TinfData) :
    tinfReadBits src (d.seek p) num = .ok (field src p num, d.seek (p + num)) := by
  unfold tinfReadBits
  by_cases h0 : num = 0
  · rw [if_pos h0, h0, field_zero]
    rfl
  · have hpos : 8 * ((d.seek p).enter.source - 1) + (d.seek p).enter.bitcount = p := by
      show 8 * ((if p % 8 = 0 then (p + 7) / 8 + 1 else (p + 7) / 8) - 1) + p % 8 = p
      split_ifs <;> omega
    rw [if_neg h0, if_neg (not_not.mpr hnum), tinfReadLoop_spec src _ _ (by omega) (by omega), hpos,
      Nat.zero_or, Nat.shiftLeft_zero]
    rfl

/-! ## Trees -/

/-- A tree for a code: how many codes there are of each length, and the symbols, sorted by the
lengths of their codes. -/
structure TinfTree.For (t : TinfTree) (ls : List ℕ) : Prop where
  table : ∀ k < 16, t.table k = count ls k
  trans : ∀ s < ls.length, ls.getD s 0 ≠ 0 → t.trans (shorter ls (ls.getD s 0) + rank ls s) = s

theorem foldl_count (ls : List ℕ) (t : ℕ → ℕ) (k : ℕ) :
    ls.foldl (fun t l => Function.update t l (t l + 1)) t k = t k + ls.count k := by
  induction ls generalizing t with
  | nil => rfl
  | cons l ls ih =>
    rw [List.foldl_cons, ih, List.count_cons]
    by_cases hl : k = l
    · rw [hl, Function.update_self, beq_self_eq_true, if_pos rfl]
      omega
    · have hne : (l == k) = false := beq_eq_false_iff_ne.mpr (Ne.symm hl)
      rw [Function.update_of_ne hl, hne]
      rfl

theorem tinfCount_eq (ls : List ℕ) : tinfCount ls = count ls := by
  funext k
  unfold tinfCount count
  by_cases hk : k = 0
  · rw [hk, Function.update_self, if_pos rfl]
  · rw [Function.update_of_ne hk, foldl_count, if_neg hk, zero_add]

theorem tinfOffsets_eq (ls : List ℕ) {k : ℕ} (hk : k < 16) :
    (tinfOffsets (count ls)).1 k = shorter ls k := by
  have hrun : ∀ n, ((List.range n).foldl
      (fun r i => (Function.update r.1 i r.2, r.2 + count ls i)) ((fun _ => 0 : ℕ → ℕ), 0)).2 =
        shorter ls n ∧ ∀ i < n, ((List.range n).foldl
      (fun r i => (Function.update r.1 i r.2, r.2 + count ls i)) ((fun _ => 0 : ℕ → ℕ), 0)).1 i =
        shorter ls i := by
    intro n
    induction n with
    | zero => exact ⟨rfl, fun i hi => absurd hi (Nat.not_lt_zero i)⟩
    | succ n ih =>
      rw [List.range_succ, List.foldl_concat]
      refine ⟨by rw [ih.1]; rfl, fun i hi => ?_⟩
      dsimp only
      by_cases hin : i = n
      · rw [hin, Function.update_self, ih.1]
      · rw [Function.update_of_ne hin, ih.2 i (by omega)]
  exact (hrun 16).2 k hk

theorem shorter_le (ls : List ℕ) {j k : ℕ} (h : j ≤ k) : shorter ls j ≤ shorter ls k := by
  induction k, h using Nat.le_induction with
  | base => exact le_rfl
  | succ k _ ih => exact ih.trans (Nat.le_add_right _ _)

/-- The symbols have different places. -/
theorem place_lt {ls : List ℕ} {s n : ℕ} (hs : s < n) (hn : n < ls.length)
    (hls : ls.getD s 0 ≠ 0) (hln : ls.getD n 0 ≠ 0) :
    shorter ls (ls.getD s 0) + rank ls s ≠ shorter ls (ls.getD n 0) + rank ls n := by
  have hranks := rank_lt (hs.trans hn) hls
  have hrankn := rank_lt hn hln
  rcases Nat.lt_trichotomy (ls.getD s 0) (ls.getD n 0) with hlt | heq | hgt
  · have hle := shorter_le ls (Nat.succ_le_of_lt hlt)
    rw [shorter] at hle
    omega
  · -- Of two symbols with codes of one length, the later one has a symbol more before it.
    have hrank : rank ls s < rank ls n := by
      have hsplit : ls.take n = ls.take s ++ ls.getD s 0 :: (ls.take n).drop (s + 1) := by
        have hmem : s < (ls.take n).length := by
          rw [List.length_take]
          omega
        have hget : (ls.take n)[s] = ls.getD s 0 := by
          rw [List.getElem_take, List.getD_eq_getElem _ _ (hs.trans hn)]
        have hdrop := List.take_append_drop s (ls.take n)
        rw [List.drop_eq_getElem_cons hmem, hget, List.take_take, min_eq_left hs.le] at hdrop
        exact hdrop.symm
      have hcount := congrArg (List.count (ls.getD s 0)) hsplit
      rw [List.count_append, List.count_cons_self] at hcount
      rw [rank, rank, ← heq]
      omega
    rw [heq]
    omega
  · have hle := shorter_le ls (Nat.succ_le_of_lt hgt)
    rw [shorter] at hle
    omega

/-- The third loop of `tinfBuildTree` after the first `n` symbols: `offs` is where the next symbol
of a length goes, and the symbols so far are in their places. -/
structure Placed (ls : List ℕ) (n : ℕ) (r : (ℕ → ℕ) × (ℕ → ℕ)) : Prop where
  offs : ∀ l < 16, l ≠ 0 → r.2 l = shorter ls l + (ls.take n).count l
  trans : ∀ s < n, ls.getD s 0 ≠ 0 → r.1 (shorter ls (ls.getD s 0) + rank ls s) = s

theorem Placed.step {ls : List ℕ} {n : ℕ} {r : (ℕ → ℕ) × (ℕ → ℕ)} (h : Placed ls n r)
    (hn : n < ls.length) (hlt : ls.getD n 0 < 16) :
    Placed ls (n + 1) (tinfPlace r (ls.getD n 0) n) := by
  have hcount : ∀ l, (ls.take (n + 1)).count l =
      (ls.take n).count l + if ls.getD n 0 = l then 1 else 0 := by
    intro l
    rw [List.take_succ_eq_append_getElem hn, List.count_append, List.count_singleton,
      List.getD_eq_getElem _ _ hn]
    simp only [beq_iff_eq]
  unfold tinfPlace
  by_cases h0 : ls.getD n 0 = 0
  · rw [if_neg (not_not.mpr h0)]
    refine ⟨fun l hl hl0 => ?_, fun s hs hls => h.trans s ?_ hls⟩
    · rw [h.offs l hl hl0, hcount, if_neg (fun he => hl0 (he.symm.trans h0)), add_zero]
    · rcases Nat.lt_succ_iff_lt_or_eq.mp hs with hlt | heq
      · exact hlt
      · exact absurd (heq ▸ h0) hls
  · have hplace : r.2 (ls.getD n 0) = shorter ls (ls.getD n 0) + rank ls n := h.offs _ hlt h0
    rw [if_pos h0]
    refine ⟨fun l hl hl0 => ?_, fun s hs hls => ?_⟩
    · dsimp only
      rw [hcount]
      by_cases hln : ls.getD n 0 = l
      · rw [hln, Function.update_self, if_pos rfl, h.offs l hl hl0, add_assoc]
      · rw [Function.update_of_ne (Ne.symm hln), if_neg hln, h.offs l hl hl0, add_zero]
    · dsimp only
      rw [hplace]
      rcases Nat.lt_succ_iff_lt_or_eq.mp hs with hsn | rfl
      · rw [Function.update_of_ne (place_lt hsn hn hls h0), h.trans s hsn hls]
      · rw [Function.update_self]

/-- `tinfBuildTree` makes a tree for the code with the lengths that it is given. -/
theorem tinfBuildTree_sorted (t : TinfTree) {ls : List ℕ} (h15 : ∀ l ∈ ls, l ≤ 15) :
    (tinfBuildTree t ls).For ls := by
  have hrun : ∀ n ≤ ls.length, Placed ls n ((ls.zipIdx.take n).foldl
      (fun r li => tinfPlace r li.1 li.2) (t.trans, (tinfOffsets (count ls)).1)) := by
    intro n hn
    induction n with
    | zero =>
      refine ⟨fun l hl _ => ?_, fun s hs => absurd hs (Nat.not_lt_zero s)⟩
      rw [List.take_zero, List.take_zero, List.count_nil, add_zero]
      exact tinfOffsets_eq ls hl
    | succ n ih =>
      have hget : ls.getD n 0 = ls[n] := List.getD_eq_getElem _ _ hn
      have htake : ls.zipIdx.take (n + 1) = ls.zipIdx.take n ++ [(ls.getD n 0, n)] := by
        rw [List.take_succ_eq_append_getElem (by rw [List.length_zipIdx]; exact hn),
          List.getElem_zipIdx, hget, zero_add]
      have hlt : ls.getD n 0 < 16 := by
        have hmem := h15 ls[n] (List.getElem_mem hn)
        omega
      rw [htake, List.foldl_concat]
      exact (ih (by omega)).step hn hlt
  have hall := hrun ls.length le_rfl
  rw [← List.length_zipIdx, List.take_length, List.length_zipIdx] at hall
  refine ⟨fun k _ => ?_, fun s hs hls => ?_⟩
  · show tinfCount ls k = count ls k
    rw [tinfCount_eq]
  · show (ls.zipIdx.foldl (fun r li => tinfPlace r li.1 li.2)
      (t.trans, (tinfOffsets (tinfCount ls)).1)).1 _ = s
    rw [tinfCount_eq]
    exact hall.trans s hs hls

/-! ## Symbols -/

/-- There are as many places as there are symbols with codes. -/
theorem shorter_le_length (ls : List ℕ) (k : ℕ) : shorter ls k ≤ ls.length := by
  have hcount : shorter ls k = ls.countP fun l => l ≠ 0 ∧ l < k := by
    induction k with
    | zero => exact (List.countP_eq_zero.mpr fun l _ => by simp).symm
    | succ k ih =>
      rw [shorter, ih, count]
      clear ih
      induction ls with
      | nil => split_ifs <;> rfl
      | cons l ls ih =>
        rw [List.countP_cons, List.countP_cons, List.count_cons, ← ih]
        by_cases hk : k = 0
        · simp [hk]
        · by_cases hl : l = k
          · simp [hl, hk]
            omega
          · have hlt : l < k + 1 ↔ l < k := by omega
            simp [hl, hk, hlt]
            omega
  rw [hcount]
  exact List.countP_le_length

/-- One turn of the loop of `tinfDecodeSymbol`. -/
theorem tinfDecodeLoop_succ {src : List UInt8} {p : ℕ} (hlen : p + 1 ≤ 8 * src.length)
    (t : TinfTree) (k : ℕ) (d : TinfData) (sum cur : ℤ) (len : ℕ) :
    tinfDecodeLoop src t (k + 1) (d.seek p) sum cur len =
      if 0 ≤ 2 * cur + (bitAt src p).toNat - t.table (len + 1) then
        tinfDecodeLoop src t k (d.seek (p + 1)) (sum + t.table (len + 1))
          (2 * cur + (bitAt src p).toNat - t.table (len + 1)) (len + 1)
      else if 0 ≤ sum + t.table (len + 1) + (2 * cur + (bitAt src p).toNat - t.table (len + 1)) ∧
          sum + t.table (len + 1) + (2 * cur + (bitAt src p).toNat - t.table (len + 1)) < 288 then
        .ok (t.trans (sum + t.table (len + 1) +
          (2 * cur + (bitAt src p).toNat - t.table (len + 1))).toNat, d.seek (p + 1))
      else .error .outside := by
  rw [tinfDecodeLoop, tinfReadBits_seek (by decide) hlen, field_one]
  rfl

section Symbol

variable {src : List UInt8} {t : TinfTree} {ls : List ℕ} (ht : t.For ls) (h15 : ∀ l ∈ ls, l ≤ 15)
  (h288 : ls.length ≤ 288) {p s : ℕ} (hcode : CodeAt src p ls s)
include ht h15 hcode

/-- The variables of `tinfDecodeSymbol` before and after the next bit of a code, of which `j` bits
have been read and `m + 1` are left. -/
theorem tinfDecodeLoop_bit (d : TinfData) {j m : ℕ} (hj : j + m + 1 = ls.getD s 0) :
    tinfDecodeLoop src t (15 - j) (d.seek (p + j)) (shorter ls (j + 1))
        ((code ls s / 2^(m + 1) : ℕ) - spent ls j) j =
      if (0 : ℤ) ≤ (code ls s / 2^m : ℕ) - spent ls (j + 1) then
        tinfDecodeLoop src t (15 - (j + 1)) (d.seek (p + (j + 1))) (shorter ls (j + 1 + 1))
          ((code ls s / 2^m : ℕ) - spent ls (j + 1)) (j + 1)
      else if 0 ≤ (shorter ls (j + 1 + 1) : ℤ) + ((code ls s / 2^m : ℕ) - spent ls (j + 1)) ∧
          (shorter ls (j + 1 + 1) : ℤ) + ((code ls s / 2^m : ℕ) - spent ls (j + 1)) < 288 then
        .ok (t.trans ((shorter ls (j + 1 + 1) : ℤ) +
          ((code ls s / 2^m : ℕ) - spent ls (j + 1))).toNat, d.seek (p + (j + 1)))
      else .error .outside := by
  have hl15 : ls.getD s 0 ≤ 15 := by
    rw [List.getD_eq_getElem _ _ hcode.lt_length]
    exact h15 _ (List.getElem_mem _)
  have hwithin := hcode.within
  have hbit : (bitAt src (p + j)).toNat = code ls s / 2^m % 2 := by
    rw [hcode.bit_eq j (by omega), Nat.toNat_testBit]
    congr 3
    omega
  -- The code so far, with the bit behind it.
  have hvalue : code ls s / 2^m = 2 * (code ls s / 2^(m + 1)) + code ls s / 2^m % 2 := by
    rw [pow_succ, ← Nat.div_div_eq_div_mul]
    omega
  -- Both counts of the source are those of the canonical codes.
  have hcur : 2 * (((code ls s / 2^(m + 1) : ℕ) : ℤ) - spent ls j) + (bitAt src (p + j)).toNat -
      t.table (j + 1) = (code ls s / 2^m : ℕ) - spent ls (j + 1) := by
    rw [ht.table _ (by omega), spent_succ, hbit]
    generalize code ls s / 2^m % 2 = b at hvalue
    generalize code ls s / 2^m = w at hvalue
    generalize code ls s / 2^(m + 1) = v at hvalue
    omega
  have hsum : (shorter ls (j + 1) : ℤ) + t.table (j + 1) = shorter ls (j + 1 + 1) := by
    rw [ht.table _ (by omega), shorter]
    exact (Nat.cast_add _ _).symm
  obtain ⟨k, hk⟩ : ∃ k, 15 - j = k + 1 := ⟨14 - j, by omega⟩
  have hk' : k = 15 - (j + 1) := by omega
  rw [hk, tinfDecodeLoop_succ (by omega), hcur, hsum, hk']
  rfl

include h288 in
/-- The loop of `tinfDecodeSymbol` from where the first `j` bits of a code have been read, and
`m + 1` are left: it ends with the code. -/
theorem tinfDecodeLoop_spec (d : TinfData) {j m : ℕ} (hj : j + m + 1 = ls.getD s 0) :
    tinfDecodeLoop src t (15 - j) (d.seek (p + j)) (shorter ls (j + 1))
      ((code ls s / 2^(m + 1) : ℕ) - spent ls j) j = .ok (s, d.seek (p + ls.getD s 0)) := by
  rw [tinfDecodeLoop_bit ht h15 hcode d hj]
  induction m generalizing j with
  | zero =>
    -- The code is complete, and it is one of those that are used up at its length.
    have hrank := rank_lt hcode.lt_length hcode.ne_zero
    have hlast : ls.getD s 0 = j + 1 := by omega
    have hcode_eq : code ls s / 2^0 = firstCode ls (j + 1) + rank ls s := by
      rw [pow_zero, Nat.div_one, code, hlast]
    have hspent : spent ls (j + 1) = firstCode ls (j + 1) + count ls (j + 1) := rfl
    have hshorter : shorter ls (j + 1 + 1) = shorter ls (j + 1) + count ls (j + 1) := rfl
    have hbound := shorter_le_length ls (j + 1 + 1)
    have htrans := ht.trans s hcode.lt_length hcode.ne_zero
    rw [hlast] at hrank htrans ⊢
    have hplace : (shorter ls (j + 1 + 1) : ℤ) + ((code ls s / 2^0 : ℕ) - spent ls (j + 1)) =
        (shorter ls (j + 1) + rank ls s : ℕ) := by
      rw [hcode_eq, hspent, hshorter]
      omega
    rw [if_neg (by omega), hplace, if_pos ⟨by omega, by omega⟩, Int.toNat_natCast, htrans]
  | succ m ih =>
    have hle := spent_le_code ls (s := s) (k := j + 1) (by omega)
    have hsub : ls.getD s 0 - (j + 1) = m + 1 := by omega
    have hnext : j + 1 + m + 1 = ls.getD s 0 := by omega
    rw [hsub] at hle
    rw [if_pos (by omega), tinfDecodeLoop_bit ht h15 hcode d hnext]
    exact ih hnext

include h288 in
/-- `tinfDecodeSymbol` reads the code of a symbol. -/
theorem tinfDecodeSymbol_seek (hkraft : kraftSum ls ≤ 1) (d : TinfData) :
    tinfDecodeSymbol src (d.seek p) t = .ok (s, d.seek (p + ls.getD s 0)) := by
  obtain ⟨m, hm⟩ := Nat.exists_eq_succ_of_ne_zero hcode.ne_zero
  have hstart := tinfDecodeLoop_spec ht h15 h288 hcode d (j := 0) (m := m) (by omega)
  have hzero : code ls s / 2^(m + 1) = 0 := by
    rw [← Nat.succ_eq_add_one, ← hm]
    exact Nat.div_eq_of_lt (code_lt hkraft hcode.lt_length hcode.ne_zero)
  rw [hzero] at hstart
  exact hstart

end Symbol

/-- With the tree that `tinfBuildTree` makes of lengths whose Kraft sum is at most 1,
`tinfDecodeSymbol` reads the code of a symbol at any position: it returns the symbol, and has read
just its code. -/
theorem tinfDecodeSymbol_buildTree (t : TinfTree) {lengths : List ℕ} (h15 : ∀ l ∈ lengths, l ≤ 15)
    (h288 : lengths.length ≤ 288) (hkraft : kraftSum lengths ≤ 1) {src : List UInt8} {d : TinfData}
    {s : ℕ} (hcode : CodeAt src d.pos lengths s) :
    ∃ d', tinfDecodeSymbol src d (tinfBuildTree t lengths) = .ok (s, d') ∧
      d'.pos = d.pos + lengths.getD s 0 ∧ d'.dest = d.dest := by
  have htree := tinfBuildTree_sorted t h15
  have hread := tinfDecodeSymbol_seek htree h15 h288 hcode hkraft d
  rw [d.seek_pos] at hread
  exact ⟨_, hread, d.pos_seek _, rfl⟩

/-- A code of two bits that begins at the fourth bit of a byte. -/
theorem tinfDecodeSymbol_fourth :
    ∃ d', tinfDecodeSymbol [200] ((TinfData.init ⟨fun _ => 0, fun _ => 0⟩).seek 3)
      (tinfBuildTree ⟨fun _ => 0, fun _ => 0⟩ [1, 2, 2]) = .ok (1, d') ∧ d'.pos = 5 := by
  have hkraft : kraftSum [1, 2, 2] ≤ 1 := by norm_num [kraftSum]
  have hcode : CodeAt [200] ((TinfData.init ⟨fun _ => 0, fun _ => 0⟩).seek 3).pos [1, 2, 2] 1 :=
    ⟨by decide, by decide, by decide, by decide⟩
  obtain ⟨d', hread, hpos, -⟩ := tinfDecodeSymbol_buildTree ⟨fun _ => 0, fun _ => 0⟩ (by decide)
    (by decide) hkraft hcode
  exact ⟨d', hread, hpos⟩

end Catse.Myxml2
