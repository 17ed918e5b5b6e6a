import Catse.Lib.Deflate
import Catse.Myxml2.InflateSymbols

/-!
# Unpacking a stream

`tinfUncompress` puts out what a DEFLATE stream holds, and reads nothing behind the stream
(`tinfUncompress_stream`). The proof goes along the format: for each part of it there is an equation
for the function that reads this part, from a position in the stream to the position behind it.
-/

namespace Catse.Myxml2

open Huffman Deflate

/-- The same state with another output. -/
def TinfData.put (d : TinfData) (out : List UInt8) : TinfData := { d with dest := out }

/-! ## Blocks of codes -/

theorem entryAt_lengths {c : ℕ} (hc : c ≤ 28) :
    entryAt lengthBits c = .ok (lengthExtra c) ∧ entryAt lengthBase c = .ok (lengthStart c) ∧
      lengthExtra c < 14 := by
  have hall : ∀ c < 29, lengthBits[c]? = some (lengthExtra c) ∧
      lengthBase[c]? = some (lengthStart c) ∧ lengthExtra c < 14 := by decide
  obtain ⟨hbits, hbase, hlt⟩ := hall c (by omega)
  exact ⟨by rw [entryAt, hbits], by rw [entryAt, hbase], hlt⟩

theorem entryAt_dists {e : ℕ} (he : e ≤ 29) :
    entryAt distBits e = .ok (distExtra e) ∧ entryAt distBase e = .ok (distStart e) ∧
      distExtra e < 14 := by
  have hall : ∀ e < 30, distBits[e]? = some (distExtra e) ∧
      distBase[e]? = some (distStart e) ∧ distExtra e < 14 := by decide
  obtain ⟨hbits, hbase, hlt⟩ := hall e (by omega)
  exact ⟨by rw [entryAt, hbits], by rw [entryAt, hbase], hlt⟩

/-- The loop copies from what is there, byte by byte. -/
theorem tinfCopy_eq {offs : ℕ} (hoffs : 0 < offs) (n : ℕ) {out : List UInt8}
    (hback : offs ≤ out.length) : tinfCopy offs n out = .ok (copyBack offs n out) := by
  induction n generalizing out with
  | zero => rfl
  | succ n ih =>
    have hlt : out.length - offs < out.length := by omega
    have hget : entryAt out (out.length - offs) = .ok (out.getD (out.length - offs) 0) := by
      rw [entryAt, List.getElem?_eq_getElem hlt, List.getD_eq_getElem _ _ hlt]
    rw [tinfCopy, if_neg (not_lt.mpr hback), hget, copyBack]
    exact ih (by rw [List.length_append]; omega)

section Data

variable {src : List UInt8} {lt dt : TinfTree} {lit dist : List ℕ}

/-- A tree and the code that it is for, which has as many symbols and bits as there is room for. -/
structure TinfTree.Reads (t : TinfTree) (ls : List ℕ) : Prop where
  tree : t.For ls
  le_15 : ∀ l ∈ ls, l ≤ 15
  le_288 : ls.length ≤ 288
  kraft : kraftSum ls ≤ 1

theorem TinfTree.Reads.symbol {t : TinfTree} {ls : List ℕ} (h : t.Reads ls) {p s : ℕ}
    (hcode : CodeAt src p ls s) (d : TinfData) :
    tinfDecodeSymbol src (d.seek p) t = .ok (s, d.seek (p + ls.getD s 0)) :=
  tinfDecodeSymbol_seek h.tree h.le_15 h.le_288 hcode h.kraft d

variable (hlt : lt.Reads lit) (hdt : dt.Reads dist)
include hlt

theorem inflate_stop {p : ℕ} (hcode : CodeAt src p lit 256) (n : ℕ) (d : TinfData) :
    tinfInflateBlockData src lt dt (n + 1) (d.seek p) = .ok (d.seek (p + lit.getD 256 0)) := by
  rw [tinfInflateBlockData, hlt.symbol hcode]
  rfl

theorem inflate_byte {p : ℕ} (b : UInt8) (hcode : CodeAt src p lit b.toNat) (n : ℕ)
    (d : TinfData) (out : List UInt8) :
    tinfInflateBlockData src lt dt (n + 1) ((d.put out).seek p) =
      tinfInflateBlockData src lt dt n
        ((d.put (out ++ [b])).seek (p + lit.getD b.toNat 0)) := by
  have hb := b.toNat_lt
  rw [tinfInflateBlockData, hlt.symbol hcode]
  show (if b.toNat = 256 then _ else if b.toNat < 256 then _ else _) = _
  rw [if_neg (by omega), if_pos (by omega), UInt8.ofNat_toNat]
  rfl

include hdt in
theorem inflate_copy {p q r c e : ℕ} (hc : c ≤ 28) (he : e ≤ 29) {out : List UInt8}
    (hcode : CodeAt src p lit (257 + c)) (hq : q = p + lit.getD (257 + c) 0 + lengthExtra c)
    (hdist : CodeAt src q dist e) (hr : r = q + dist.getD e 0 + distExtra e)
    (hback : distStart e + field src (q + dist.getD e 0) (distExtra e) ≤ out.length)
    (hlen : r ≤ 8 * src.length) (n : ℕ) (d : TinfData) :
    tinfInflateBlockData src lt dt (n + 1) ((d.put out).seek p) =
      tinfInflateBlockData src lt dt n ((d.put
        (copyBack (distStart e + field src (q + dist.getD e 0) (distExtra e))
          (lengthStart c + field src (p + lit.getD (257 + c) 0) (lengthExtra c)) out)).seek r) := by
  obtain ⟨hlbits, hlbase, hl14⟩ := entryAt_lengths hc
  obtain ⟨hdbits, hdbase, hd14⟩ := entryAt_dists he
  have hpos : 0 < distStart e := by
    rw [distStart]
    omega
  have hc' : 257 + c - 257 = c := by omega
  have hcopy := tinfCopy_eq (Nat.add_pos_left hpos _)
    (lengthStart c + field src (p + lit.getD (257 + c) 0) (lengthExtra c)) hback
  have hwithin := hdist.within
  have hlast : q + dist.getD e 0 + distExtra e ≤ 8 * src.length := hr ▸ hlen
  have hfirst : p + lit.getD (257 + c) 0 + lengthExtra c ≤ 8 * src.length := by omega
  rw [tinfInflateBlockData, hlt.symbol hcode]
  show (if 257 + c = 256 then _ else if 257 + c < 256 then _ else _) = _
  rw [if_neg (by omega), if_neg (by omega), hc', hlbits, hlbase]
  show (tinfReadBits src ((d.put out).seek _) _ >>= _) = _
  rw [tinfReadBits_seek hl14 hfirst, ← hq]
  show (tinfDecodeSymbol src ((d.put out).seek q) dt >>= _) = _
  rw [hdt.symbol hdist]
  show (entryAt distBits e >>= _) = _
  rw [hdbits, hdbase]
  show (tinfReadBits src ((d.put out).seek _) _ >>= _) = _
  rw [tinfReadBits_seek hd14 hlast, ← hr]
  show (tinfCopy _ _ out >>= _) = _
  rw [add_comm _ (distStart e), add_comm _ (lengthStart c), hcopy]
  rfl

include hdt in
/-- A block of codes is read to its end. Each turn reads a bit at least. -/
theorem inflate_data {p p' n : ℕ} {out out' : List UInt8} (h : Data src lit dist p out p' out')
    (hn : 8 * src.length < p + n) (d : TinfData) :
    tinfInflateBlockData src lt dt n ((d.put out).seek p) = .ok ((d.put out').seek p') := by
  induction h generalizing n with
  | stop hcode =>
    have hp := codeAt_lt hcode
    obtain ⟨n, rfl⟩ : ∃ m, n = m + 1 := ⟨n - 1, by omega⟩
    exact inflate_stop hlt hcode n _
  | byte b hcode _ ih =>
    have hp := codeAt_lt hcode
    obtain ⟨n, rfl⟩ : ∃ m, n = m + 1 := ⟨n - 1, by omega⟩
    rw [inflate_byte hlt b hcode]
    exact ih (by omega)
  | copy c e hc he hcode hq hdist hr hback hrest ih =>
    have hp := codeAt_lt hcode
    have hq' := codeAt_lt hdist
    have hlen := hrest.lt
    obtain ⟨n, rfl⟩ : ∃ m, n = m + 1 := ⟨n - 1, by omega⟩
    rw [inflate_copy hlt hdt hc he hcode hq hdist hr hback (by omega)]
    exact ih (by omega)

end Data

/-! ## Stored blocks -/

theorem tinfShort_eq {src : List UInt8} {i : ℕ} (hi : i + 1 < src.length) :
    tinfShort src i = .ok (field src (8 * i) 16) := by
  have hlow : entryAt src i = .ok (src.getD i 0) := by
    rw [entryAt, List.getElem?_eq_getElem (Nat.lt_of_succ_lt hi),
      List.getD_eq_getElem _ _ (Nat.lt_of_succ_lt hi)]
  have hhigh : entryAt src (i + 1) = .ok (src.getD (i + 1) 0) := by
    rw [entryAt, List.getElem?_eq_getElem hi, List.getD_eq_getElem _ _ hi]
  have hfield : field src (8 * i) 16 = (src.getD i 0).toNat + 2^8 * (src.getD (i + 1) 0).toNat := by
    have hparts := field_add src (8 * i) 8 8
    rwa [field_byte, ← mul_add_one, field_byte] at hparts
  rw [tinfShort, hlow, hhigh, hfield]
  rfl

/-- A stored block begins at the next whole byte, wherever its head ends. -/
theorem tinfStored_eq {src : List UInt8} {p q len : ℕ} (hq : q = (p + 7) / 8)
    (hlen : field src (8 * q) 16 = len) (hcomplement : field src (8 * q + 16) 16 = 2^16 - 1 - len)
    (hwithin : q + 4 + len ≤ src.length) (d : TinfData) (out : List UInt8) :
    tinfStored src ((d.put out).seek p) =
      .ok ((d.put (out ++ (src.drop (q + 4)).take len)).seek (8 * (q + 4 + len))) := by
  have hlt : len < 2^16 := hlen ▸ field_lt _ _ _
  have hnext : 8 * (q + 2) = 8 * q + 16 := by omega
  have hsource : ((d.put out).seek p).source = q := hq.symm
  have hfirst : tinfShort src ((d.put out).seek p).source = .ok len := by
    rw [hsource, tinfShort_eq (by omega), hlen]
  have hsecond : tinfShort src (((d.put out).seek p).source + 2) = .ok (2^16 - 1 - len) := by
    rw [hsource, tinfShort_eq (by omega), hnext, hcomplement]
  rw [tinfStored, hfirst, hsecond]
  show (if len ≠ 2^16 - 1 - (2^16 - 1 - len) then _
    else if src.length < ((d.put out).seek p).source + 4 + len then _ else _) = _
  have hroom : ¬src.length < ((d.put out).seek p).source + 4 + len := by omega
  rw [if_neg (by omega), if_neg hroom]
  congr 1
  ext1
  · show ((d.put out).seek p).source + 4 + len = (8 * (q + 4 + len) + 7) / 8
    omega
  · show 0 = 8 * (q + 4 + len) % 8
    omega
  · show out ++ (src.drop (((d.put out).seek p).source + 4)).take len = _
    rw [hsource]
    rfl
  · rfl
  · rfl

/-! ## Codes that are given by their lengths -/

theorem codeLengths_length (src : List UInt8) (p n : ℕ) : (codeLengths src p n).length = 19 := by
  rw [codeLengths, List.length_map, List.length_range]

theorem codeLengths_getElem (src : List UInt8) (p n : ℕ) {s : ℕ}
    (hs : s < (codeLengths src p n).length) : (codeLengths src p n)[s] =
      if order.idxOf s < n then field src (p + 3 * order.idxOf s) 3 else 0 := by
  simp only [codeLengths, List.getElem_map, List.getElem_range]

/-- The next of the lengths of the codes for lengths. -/
theorem codeLengths_succ (src : List UInt8) (p : ℕ) {n c : ℕ} (hc : order[n]? = some c) :
    codeLengths src p (n + 1) = (codeLengths src p n).set c (field src (p + 3 * n) 3) := by
  have hn : n < 19 := (List.getElem?_eq_some_iff.mp hc).1
  have hidx : ∀ n < 19, ∀ s < 19, order.idxOf s = n ↔ order[n]? = some s := by decide
  refine List.ext_getElem (by rw [List.length_set, codeLengths_length, codeLengths_length])
    fun s hs _ => ?_
  rw [codeLengths_length] at hs
  have hsame := hidx n hn s hs
  rw [hc, Option.some_inj] at hsame
  rw [List.getElem_set, codeLengths_getElem, codeLengths_getElem]
  by_cases hcs : c = s
  · rw [if_pos hcs, hsame.mpr hcs, if_pos (Nat.lt_succ_self n)]
  · have hne : order.idxOf s ≠ n := fun h => hcs (hsame.mp h)
    have hiff : order.idxOf s < n + 1 ↔ order.idxOf s < n := by omega
    simp only [if_neg hcs, hiff]

theorem tinfLengthsA_eq {src : List UInt8} {p n : ℕ} (hn : n ≤ 19)
    (hlen : p + 3 * n ≤ 8 * src.length) (d : TinfData) :
    tinfLengthsA src (clcidx.take n) (d.seek p) (List.replicate 19 0) =
      .ok (codeLengths src p n, d.seek (p + 3 * n)) := by
  have hrun : ∀ m k, k + m = n → tinfLengthsA src ((order.take n).drop k) (d.seek (p + 3 * k))
      (codeLengths src p k) = .ok (codeLengths src p n, d.seek (p + 3 * n)) := by
    intro m
    induction m with
    | zero =>
      rintro k rfl
      rw [add_zero, List.drop_of_length_le (by rw [List.length_take]; exact min_le_left _ _)]
      rfl
    | succ m ih =>
      intro k hk
      have hlt : k < (order.take n).length := by
        rw [List.length_take]
        exact lt_min (by omega) (lt_of_lt_of_le (by omega) hn)
      have hget : order[k]? = some (order.take n)[k] := by
        rw [List.getElem_take, List.getElem?_eq_getElem]
      rw [List.drop_eq_getElem_cons hlt, tinfLengthsA, tinfReadBits_seek (by decide) (by omega)]
      have hrest := ih (k + 1) (by omega)
      rw [codeLengths_succ src p hget, mul_add_one, ← add_assoc] at hrest
      exact hrest
  have hzero : codeLengths src p 0 = List.replicate 19 0 := rfl
  rw [← hzero]
  exact hrun n 0 (zero_add n)

/-- The lengths so far, in their array. -/
def pad (ls : List ℕ) : List ℕ := ls ++ List.replicate (320 - ls.length) 0

theorem pad_length {ls : List ℕ} (h : ls.length ≤ 320) : (pad ls).length = 320 := by
  rw [pad, List.length_append, List.length_replicate]
  omega

theorem pad_zeros {ls : List ℕ} {n : ℕ} (h : ls.length + n ≤ 320) :
    pad (ls ++ List.replicate n 0) = pad ls := by
  have hrest : 320 - ls.length = n + (320 - (ls.length + n)) := by omega
  rw [pad, pad, List.length_append, List.length_replicate, List.append_assoc,
    List.replicate_append_replicate, ← hrest]

theorem pad_set {ls : List ℕ} {l : ℕ} (h : ls.length < 320) :
    (pad ls).set ls.length l = pad (ls ++ [l]) := by
  obtain ⟨m, hm⟩ : ∃ m, 320 - ls.length = m + 1 := ⟨319 - ls.length, by omega⟩
  have hm' : 320 - (ls.length + 1) = m := by omega
  rw [pad, pad, hm, List.length_append, List.length_singleton, hm',
    List.set_append_right _ _ le_rfl, Nat.sub_self, List.replicate_succ, List.set_cons_zero,
    List.append_assoc]
  rfl

theorem pad_splice {ls : List ℕ} {n l : ℕ} :
    (pad ls).take ls.length ++ List.replicate n l ++ (pad ls).drop (ls.length + n) =
      pad (ls ++ List.replicate n l) := by
  have hrest : 320 - (ls.length + n) = 320 - ls.length - n := by omega
  rw [pad, pad, List.take_left, ← List.drop_drop, List.drop_left, List.drop_replicate,
    List.length_append, List.length_replicate, hrest]

theorem pad_last {ls : List ℕ} {l : ℕ} (h : ls.getLast? = some l) :
    entryAt (pad ls) (ls.length - 1) = .ok l := by
  have hpos : ls ≠ [] := by
    rintro rfl
    cases h
  have hlast : ls.length - 1 < ls.length := Nat.sub_one_lt (List.length_pos_of_ne_nil hpos).ne'
  rw [List.getLast?_eq_getElem?] at h
  rw [entryAt, pad, List.getElem?_append_left hlast, h]

/-- The lengths of the two trees are one behind the other. -/
theorem pad_trees (lit dist : List ℕ) :
    (pad (lit ++ dist)).take lit.length = lit ∧
      ((pad (lit ++ dist)).drop lit.length).take dist.length = dist := by
  rw [pad, List.append_assoc, List.take_left, List.drop_left, List.take_left]
  exact ⟨rfl, rfl⟩

section Lengths

variable {src : List UInt8} {t : TinfTree} {cl : List ℕ} (ht : t.Reads cl)
include ht

/-- The lengths are read one after the other. A run of zeros is skipped, since the array has zeros
there. -/
theorem tinfLengthsB_eq {p p' : ℕ} {ls ls' : List ℕ} (h : Lengths src cl p ls p' ls')
    (h320 : ls'.length ≤ 320) (d : TinfData) :
    tinfLengthsB src t ls'.length ls.length (d.seek p) (pad ls) = .ok (pad ls', d.seek p') := by
  induction h with
  | stop =>
    rw [tinfLengthsB, if_neg (lt_irrefl _)]
  | @length p p' l ls ls' hl hcode hrest ih =>
    have hle := hrest.le.2
    rw [List.length_append, List.length_singleton] at hle
    rw [tinfLengthsB, if_pos (by omega), ht.symbol hcode]
    show (if l = 16 then _ else if l = 17 then _ else if l = 18 then _
      else if (pad ls).length < ls.length + 1 then _ else _) = _
    rw [if_neg (by omega), if_neg (by omega), if_neg (by omega), pad_length (by omega),
      if_neg (by omega), pad_set (by omega)]
    rw [List.length_append, List.length_singleton] at ih
    exact ih h320
  | @again p q p' l ls ls' hl hcode hq hwithin hrest ih =>
    -- The length before is there to be repeated, as the format asks for one.
    have hle := hrest.le.2
    rw [List.length_append, List.length_replicate] at hle ih
    have hpos : ls.length ≠ 0 := by
      intro h0
      rw [List.length_eq_zero_iff.mp h0] at hl
      cases hl
    rw [tinfLengthsB, if_pos (by omega), ht.symbol hcode, ← hq]
    show (tinfReadBits src (d.seek q) 2 >>= _) = _
    rw [tinfReadBits_seek (by decide) hwithin]
    show (if ls.length = 0 ∨ (pad ls).length < ls.length + (field src q 2 + 3) then _ else _) = _
    rw [add_comm _ 3, pad_length (by omega), if_neg (by omega), pad_last hl]
    show tinfLengthsB src t ls'.length _ (d.seek (q + 2)) _ = _
    rw [pad_splice]
    exact ih h320
  | @zeros p q p' ls ls' hcode hq hwithin hrest ih =>
    -- Nothing is written for zeros, which `pad` has there already.
    have hle := hrest.le.2
    rw [List.length_append, List.length_replicate] at hle ih
    rw [tinfLengthsB, if_pos (by omega), ht.symbol hcode, ← hq]
    show (tinfReadBits src (d.seek q) 3 >>= _) = _
    rw [tinfReadBits_seek (by decide) hwithin]
    show tinfLengthsB src t ls'.length (ls.length + (field src q 3 + 3)) (d.seek (q + 3)) _ = _
    rw [add_comm _ 3]
    rw [pad_zeros (by omega)] at ih
    exact ih h320
  | @manyZeros p q p' ls ls' hcode hq hwithin hrest ih =>
    have hle := hrest.le.2
    rw [List.length_append, List.length_replicate] at hle ih
    rw [tinfLengthsB, if_pos (by omega), ht.symbol hcode, ← hq]
    show (tinfReadBits src (d.seek q) 7 >>= _) = _
    rw [tinfReadBits_seek (by decide) hwithin]
    show tinfLengthsB src t ls'.length (ls.length + (field src q 7 + 11)) (d.seek (q + 7)) _ = _
    rw [add_comm _ 11]
    rw [pad_zeros (by omega)] at ih
    exact ih h320

end Lengths

/-- A length for the codes of lengths has three bits. -/
theorem codeLengths_le_15 (src : List UInt8) (p n : ℕ) : ∀ l ∈ codeLengths src p n, l ≤ 15 := by
  intro l hl
  obtain ⟨s, hs, rfl⟩ := List.getElem_of_mem hl
  have hthree := field_lt src (p + 3 * order.idxOf s) 3
  rw [codeLengths_getElem]
  split_ifs <;> omega

/-- The trees of a block with its own codes. -/
theorem tinfDynamic_eq {src : List UInt8} {p p' : ℕ} {lit dist : List ℕ}
    (h : Header src p p' lit dist) (junk : TinfTree) (d : TinfData) :
    tinfDynamic src junk (d.seek p) = .ok { d.seek p' with
      ltree := tinfBuildTree d.ltree lit
      dtree := tinfBuildTree d.dtree dist } := by
  have hlit : lit.length = field src p 5 + 257 := h.length_lit.trans (add_comm _ _)
  have hdist : dist.length = field src (p + 5) 5 + 1 := h.length_dist.trans (add_comm _ _)
  have hsum : (lit ++ dist).length = field src p 5 + 257 + (field src (p + 5) 5 + 1) := by
    rw [List.length_append, hlit, hdist]
  have hwithin := h.within
  have hfive := field_lt src p 5
  have hfive' := field_lt src (p + 5) 5
  have hfour := field_lt src (p + 10) 4
  have hcodes : (tinfBuildTree junk (codeLengths src (p + 14) (4 + field src (p + 10) 4))).Reads
      (codeLengths src (p + 14) (4 + field src (p + 10) 4)) :=
    ⟨tinfBuildTree_sorted junk (codeLengths_le_15 src _ _), codeLengths_le_15 src _ _,
      by rw [codeLengths_length]; decide, h.kraft_codeLengths⟩
  have hB := tinfLengthsB_eq hcodes h.lengths (by omega) d
  rw [hsum, List.length_nil] at hB
  obtain ⟨htake, hdrop⟩ := pad_trees lit dist
  rw [hlit] at htake hdrop
  rw [hdist] at hdrop
  -- The three counts, the lengths of the codes for lengths, and then the lengths themselves.
  rw [tinfDynamic, tinfReadBits_seek (by decide) (by omega)]
  show (tinfReadBits src (d.seek (p + 5)) 5 >>= _) = _
  rw [tinfReadBits_seek (by decide) (by omega)]
  show (tinfReadBits src (d.seek (p + 10)) 4 >>= _) = _
  rw [tinfReadBits_seek (by decide) (by omega)]
  show (tinfLengthsA src (clcidx.take (field src (p + 10) 4 + 4)) (d.seek (p + 14)) _ >>= _) = _
  rw [add_comm _ 4, tinfLengthsA_eq (by omega) hwithin]
  show (tinfLengthsB src (tinfBuildTree junk _) (field src p 5 + 257 + (field src (p + 5) 5 + 1)) 0
    (d.seek _) (pad []) >>= _) = _
  rw [hB]
  show Except.ok { d.seek p' with
    ltree := tinfBuildTree d.ltree ((pad (lit ++ dist)).take (field src p 5 + 257))
    dtree := tinfBuildTree d.dtree
      (((pad (lit ++ dist)).drop (field src p 5 + 257)).take (field src (p + 5) 5 + 1)) } = _
  rw [htake, hdrop]

/-! ## The fixed codes -/

theorem fixedLit_length : fixedLit.length = 288 := by decide +kernel

theorem fixedLit_getD (s : ℕ) : fixedLit.getD s 0 =
    if s < 144 then 8 else if s < 256 then 9 else if s < 280 then 7 else if s < 288 then 8
    else 0 := by
  rw [fixedLit, List.getD_eq_getElem?_getD]
  simp only [List.getElem?_append, List.length_append, List.length_replicate,
    List.getElem?_replicate]
  split_ifs <;> first | rfl | omega

/-- How many of the first `s` symbols have codes of `l` bits. -/
theorem fixedLit_count (s l : ℕ) : (fixedLit.take s).count l =
    if l = 8 then min s 144 + (min s 288 - 280) else if l = 9 then min s 256 - 144
    else if l = 7 then min s 280 - 256 else 0 := by
  simp only [fixedLit, List.take_append, List.take_replicate, List.count_append,
    List.count_replicate, List.length_append, List.length_replicate, beq_iff_eq]
  split_ifs <;> omega

theorem sltree_trans {i : ℕ} (hi : i < 288) : sltree.trans i =
    if i < 24 then 256 + i else if i < 168 then i - 24 else if i < 176 then 112 + i
    else i - 32 := by
  show (List.range' 256 24 ++ List.range' 0 144 ++ List.range' 280 8 ++
    List.range' 144 112).getD i 0 = _
  rw [List.getD_eq_getElem _ _ (by simpa using hi)]
  simp only [List.getElem_append, List.length_append, List.length_range', List.getElem_range']
  split_ifs <;> omega

/-- The order of the symbols in `sltree` is that of their fixed codes. -/
theorem sltree_for : sltree.For fixedLit where
  table := by decide +kernel
  trans s hs _ := by
    rw [fixedLit_length] at hs
    obtain ⟨h7, h8, h9⟩ : shorter fixedLit 7 = 0 ∧ shorter fixedLit 8 = 24 ∧
        shorter fixedLit 9 = 176 := by
      decide +kernel
    have hget := fixedLit_getD s
    rw [rank, fixedLit_count]
    rcases (by omega : s < 144 ∨ 144 ≤ s ∧ s < 256 ∨ 256 ≤ s ∧ s < 280 ∨ 280 ≤ s) with
      h | h | h | h
    · have hl : fixedLit.getD s 0 = 8 := by rw [hget, if_pos h]
      rw [hl, h8, if_pos rfl, sltree_trans (by omega)]
      split_ifs <;> omega
    · have hl : fixedLit.getD s 0 = 9 := by rw [hget, if_neg (by omega), if_pos h.2]
      rw [hl, h9, if_neg (by decide), if_pos rfl, sltree_trans (by omega)]
      split_ifs <;> omega
    · have hl : fixedLit.getD s 0 = 7 := by
        rw [hget, if_neg (by omega), if_neg (by omega), if_pos h.2]
      rw [hl, h7, if_neg (by decide), if_neg (by decide), if_pos rfl, sltree_trans (by omega)]
      split_ifs <;> omega
    · have hl : fixedLit.getD s 0 = 8 := by
        rw [hget, if_neg (by omega), if_neg (by omega), if_neg (by omega), if_pos hs]
      rw [hl, h8, if_pos rfl, sltree_trans (by omega)]
      split_ifs <;> omega

theorem sltree_reads : sltree.Reads fixedLit where
  tree := sltree_for
  le_15 := by decide +kernel
  le_288 := fixedLit_length.le
  kraft := by norm_num [kraftSum, fixedLit]

theorem sdtree_reads : sdtree.Reads fixedDist where
  tree := ⟨by decide +kernel, by decide +kernel⟩
  le_15 := by decide +kernel
  le_288 := by decide +kernel
  kraft := by norm_num [kraftSum, fixedDist]

/-! ## Streams -/

theorem buildTree_reads {src : List UInt8} {p p' : ℕ} {lit dist : List ℕ}
    (h : Header src p p' lit dist) (t t' : TinfTree) :
    (tinfBuildTree t lit).Reads lit ∧ (tinfBuildTree t' dist).Reads dist := by
  have hlit := h.length_lit
  have hdist := h.length_dist
  have hfive := field_lt src p 5
  have hfive' := field_lt src (p + 5) 5
  have h15 := h.lengths.le_15 fun l hl => absurd hl List.not_mem_nil
  have hlit15 : ∀ l ∈ lit, l ≤ 15 := fun l hl => h15 l (List.mem_append_left _ hl)
  have hdist15 : ∀ l ∈ dist, l ≤ 15 := fun l hl => h15 l (List.mem_append_right _ hl)
  exact ⟨⟨tinfBuildTree_sorted t hlit15, hlit15, by omega, h.kraft_lit⟩,
    ⟨tinfBuildTree_sorted t' hdist15, hdist15, by omega, h.kraft_dist⟩⟩

/-- One turn of the loop of `tinfUncompress`, with a block of any type. -/
theorem tinfBlocks_block {src : List UInt8} {p p' : ℕ} {out out' : List UInt8}
    (h : Block src (p + 1) out p' out') (junk : TinfTree) (n : ℕ) (d : TinfData) :
    ∃ d' : TinfData, tinfBlocks src junk (n + 1) ((d.put out).seek p) =
      if field src p 1 = 0 then tinfBlocks src junk n ((d'.put out').seek p')
      else .ok ((d'.put out').seek p') := by
  have hp := h.lt
  rw [tinfBlocks, tinfReadBits_seek (by decide) (by omega)]
  show ∃ d', (tinfReadBits src ((d.put out).seek (p + 1)) 2 >>= _) = _
  rw [tinfReadBits_seek (by decide) (by omega)]
  show ∃ d', (if field src (p + 1) 2 = 0 then tinfStored src ((d.put out).seek (p + 1 + 2)) >>= _
    else if field src (p + 1) 2 = 1 then tinfInflateBlockData src sltree sdtree
      (8 * src.length + 1) ((d.put out).seek (p + 1 + 2)) >>= _
    else if field src (p + 1) 2 = 2 then
      tinfDynamic src junk ((d.put out).seek (p + 1 + 2)) >>= _ else _) = _
  cases h with
  | stored htype hq hlen hcomplement hwithin =>
    rw [if_pos htype, tinfStored_eq hq hlen hcomplement hwithin]
    exact ⟨d, rfl⟩
  | fixed htype hdata =>
    rw [htype, if_neg (by decide), if_pos rfl,
      inflate_data sltree_reads sdtree_reads hdata (by omega)]
    exact ⟨d, rfl⟩
  | @dynamic q _ _ _ lit dist htype hheader hdata =>
    obtain ⟨hlt, hdt⟩ := buildTree_reads hheader d.ltree d.dtree
    have hread := inflate_data hlt hdt hdata (n := 8 * src.length + 1) (by omega)
      { d with ltree := tinfBuildTree d.ltree lit, dtree := tinfBuildTree d.dtree dist }
    rw [htype, if_neg (by decide), if_neg (by decide), if_pos rfl, tinfDynamic_eq hheader]
    exact ⟨_, congrArg (· >>= _) hread⟩

/-- The blocks are read up to the last one. Each has a bit at least. -/
theorem tinfBlocks_eq {src : List UInt8} {p p' n : ℕ} {out out' : List UInt8}
    (h : Blocks src p out p' out') (hn : 8 * src.length < p + n) (junk : TinfTree)
    (d : TinfData) :
    ∃ d' : TinfData, tinfBlocks src junk n ((d.put out).seek p) = .ok ((d'.put out').seek p') := by
  induction h generalizing n d with
  | last hlast hblock =>
    have hp := hblock.lt
    obtain ⟨n, rfl⟩ : ∃ m, n = m + 1 := ⟨n - 1, by omega⟩
    obtain ⟨d', hd'⟩ := tinfBlocks_block hblock junk n d
    rw [hlast, if_neg Nat.one_ne_zero] at hd'
    exact ⟨d', hd'⟩
  | more hmore hblock _ ih =>
    have hp := hblock.lt
    obtain ⟨n, rfl⟩ : ∃ m, n = m + 1 := ⟨n - 1, by omega⟩
    obtain ⟨d', hd'⟩ := tinfBlocks_block hblock junk n d
    rw [hmore, if_pos rfl] at hd'
    rw [hd']
    exact ih (by omega) d'

/-- A stream is unpacked to what it holds, and nothing behind the stream is read: with the stream
alone there is nothing to be read there. -/
theorem tinfUncompress_stream {src out : List UInt8} (h : Stream src out) (junk : TinfTree) :
    tinfUncompress src junk = .ok (out, out.length) := by
  obtain ⟨p, hblocks, -, -⟩ := h
  obtain ⟨d, hd⟩ := tinfBlocks_eq hblocks (n := 8 * src.length + 1) (by omega) junk (.init junk)
  rw [tinfUncompress]
  exact congrArg (· >>= _) hd

/-- A stored block with two letters, and a block with its own codes whose only copy goes back into
the stored one, over more bytes than lie between. -/
theorem tinfUncompress_two_blocks : tinfUncompress [0x00, 0x02, 0x00, 0xfd, 0xff, 0x61, 0x62, 0x0d,
    0xc1, 0x85, 0x00, 0x00, 0x00, 0x00, 0x00, 0x20, 0x7f, 0xeb, 0x66] ⟨fun _ => 0, fun _ => 0⟩ =
    .ok ([97, 98, 97, 98, 97], 5) := by
  let src : List UInt8 := [0x00, 0x02, 0x00, 0xfd, 0xff, 0x61, 0x62, 0x0d,
    0xc1, 0x85, 0x00, 0x00, 0x00, 0x00, 0x00, 0x20, 0x7f, 0xeb, 0x66]
  have hcode : ∀ {p s : ℕ} {ls : List ℕ}, s < ls.length ∧ ls.getD s 0 ≠ 0 ∧
      p + ls.getD s 0 ≤ 8 * src.length ∧ (∀ i < ls.getD s 0,
        bitAt src (p + i) = (code ls s).testBit (ls.getD s 0 - 1 - i)) → CodeAt src p ls s :=
    fun h => ⟨h.1, h.2.1, h.2.2.1, h.2.2.2⟩
  have hlen : field src 8 16 = 2 := by decide +kernel
  have hstored : Block src 1 [] 56 [97, 98] :=
    .stored (q := 1) (by decide) (by decide) hlen (by decide +kernel) (by decide)
  -- The codes of the end of the block, of the copy and of the two distances have one bit each.
  let lit : List ℕ := List.replicate 256 0 ++ [1, 1]
  have hlengths : Lengths src (codeLengths src 73 18) 127 [] 149 (lit ++ [1, 1]) := by
    have hfields : field src 128 7 = 127 ∧ field src 136 7 = 107 ∧ field src 147 2 = 0 := by
      decide +kernel
    have hall : [] ++ List.replicate (11 + 127) 0 ++ List.replicate (11 + 107) 0 ++ [1] ++
        List.replicate (3 + 0) 1 = lit ++ [1, 1] := by decide +kernel
    refine .manyZeros (q := 128) (hcode ?_) ?_ ?_ (.manyZeros (q := 136) (hcode ?_) ?_ ?_
      (.length (l := 1) ?_ (hcode ?_) (.again (l := 1) (q := 147) List.getLast?_concat (hcode ?_)
        ?_ ?_ ?rest)))
    case rest =>
      rw [hfields.1, hfields.2.1, hfields.2.2, hall]
      exact .stop
    all_goals decide +kernel
  have hheader : Header src 59 149 lit [1, 1] := by
    have hcounts : field src 59 5 = 1 ∧ field src 64 5 = 1 ∧ field src 69 4 = 14 := by
      decide +kernel
    have hcodes : codeLengths src 73 18 =
        [0, 2, 0, 0, 0, 0, 0, 0, 0, 0, 0, 0, 0, 0, 0, 0, 2, 0, 1] := by decide +kernel
    refine ⟨?_, ?_, ?_, ?_, ?_, ?_, ?_⟩
    · rw [hcounts.1]
      decide +kernel
    · rw [hcounts.2.1]
      rfl
    · rw [hcounts.2.2]
      decide
    · rw [hcounts.2.2]
      exact hlengths
    · rw [hcounts.2.2, hcodes]
      norm_num [kraftSum]
    · norm_num [kraftSum, lit]
    · norm_num [kraftSum]
  have hdata : Data src lit [1, 1] 149 [97, 98] 152 [97, 98, 97, 98, 97] := by
    have hcopy : copyBack (distStart 1 + field src (150 + [1, 1].getD 1 0) (distExtra 1))
        (lengthStart 0 + field src (149 + lit.getD (257 + 0) 0) (lengthExtra 0)) [97, 98] =
        [97, 98, 97, 98, 97] := by decide +kernel
    have hend : lit.getD 256 0 = 1 := by decide +kernel
    have hstop : Data src lit [1, 1] 151 [97, 98, 97, 98, 97] (151 + lit.getD 256 0)
        [97, 98, 97, 98, 97] := .stop (hcode (by decide +kernel))
    rw [hend] at hstop
    refine .copy 0 1 (q := 150) (r := 151) ?_ ?_ (hcode ?_) ?_ (hcode ?_) ?_ ?_ (hcopy ▸ hstop)
    all_goals decide +kernel
  have hstream : Stream src [97, 98, 97, 98, 97] := by
    refine ⟨152, .more ?_ hstored (.last ?_ (.dynamic ?_ hheader hdata)), ?_, ?_⟩
    all_goals decide +kernel
  exact tinfUncompress_stream hstream _

end Catse.Myxml2
