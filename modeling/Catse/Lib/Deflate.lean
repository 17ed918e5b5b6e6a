import Catse.Lib.Huffman

/-!
# The DEFLATE format

What the bits of a compressed stream stand for, as a relation between positions in the stream and
what has been put out by then. A stream is a sequence of blocks, the last of which is marked. A
block holds bytes as they are, or codes for bytes and for copies of what is already there, and the
codes are fixed ones or given by their lengths at the start of the block. Fields have their least
significant bit first, and codes their most significant one.

Everything that the format leaves to the encoder is left open here: how blocks are cut, which copies
are taken, which codes are used, and the bits that are skipped before a stored block and at the end
of the stream.
-/

namespace Catse

namespace Deflate

open Huffman

/-! ## Lengths and distances -/

/-- How many extra bits the symbol `257 + c` for a length has. -/
def lengthExtra (c : ℕ) : ℕ := if c < 8 ∨ c = 28 then 0 else (c - 4) / 4

/-- The first length of the symbol `257 + c`: after those of the symbols before it, but for the last
symbol, which is for the greatest length. -/
def lengthStart (c : ℕ) : ℕ :=
  if c = 28 then 258 else 3 + ((List.range c).map fun i => 2^lengthExtra i).sum

/-- How many extra bits the symbol `c` for a distance has. -/
def distExtra (c : ℕ) : ℕ := (c - 2) / 2

/-- The first distance of the symbol `c`, after those of the symbols before it. -/
def distStart (c : ℕ) : ℕ := 1 + ((List.range c).map fun i => 2^distExtra i).sum

/-- A copy of what was put out `dist` bytes before, byte by byte, so that it can go on with what it
has copied itself. -/
def copyBack (dist : ℕ) : ℕ → List UInt8 → List UInt8
  | 0, out => out
  | n + 1, out => copyBack dist n (out ++ [out.getD (out.length - dist) 0])

/-! ## Blocks of codes -/

section Data

variable (src : List UInt8) (lit dist : List ℕ)

/-- Codes for bytes, copies, and at last the end of the block: `lit` are the lengths of the codes
for bytes, lengths and the end, and `dist` those of the codes for distances. -/
inductive Data : ℕ → List UInt8 → ℕ → List UInt8 → Prop where
  | stop {p : ℕ} {out : List UInt8} (hcode : CodeAt src p lit 256) :
      Data p out (p + lit.getD 256 0) out
  | byte {p p' : ℕ} {out out' : List UInt8} (b : UInt8) (hcode : CodeAt src p lit b.toNat)
      (hrest : Data (p + lit.getD b.toNat 0) (out ++ [b]) p' out') : Data p out p' out'
  | copy {p q r p' : ℕ} {out out' : List UInt8} (c e : ℕ) (hc : c ≤ 28) (he : e ≤ 29)
      (hcode : CodeAt src p lit (257 + c)) (hq : q = p + lit.getD (257 + c) 0 + lengthExtra c)
      (hdist : CodeAt src q dist e) (hr : r = q + dist.getD e 0 + distExtra e)
      (hback : distStart e + field src (q + dist.getD e 0) (distExtra e) ≤ out.length)
      (hrest : Data r
        (copyBack (distStart e + field src (q + dist.getD e 0) (distExtra e))
          (lengthStart c + field src (p + lit.getD (257 + c) 0) (lengthExtra c)) out) p' out') :
      Data p out p' out'

end Data

/-- The lengths of the fixed codes for bytes, lengths and the end of the block. -/
def fixedLit : List ℕ :=
  List.replicate 144 8 ++ List.replicate 112 9 ++ List.replicate 24 7 ++ List.replicate 8 8

/-- The lengths of the fixed codes for distances. -/
def fixedDist : List ℕ := List.replicate 32 5

/-! ## Codes that are given by their lengths -/

/-- The order in which the lengths of the codes for lengths are given. -/
def order : List ℕ := [16, 17, 18, 0, 8, 7, 9, 6, 10, 5, 11, 4, 12, 3, 13, 2, 14, 1, 15]

/-- The lengths of the codes for lengths: the first `n` in that order have three bits each from bit
`p` on, and the others are 0. -/
def codeLengths (src : List UInt8) (p n : ℕ) : List ℕ :=
  (List.range 19).map fun s =>
    if order.idxOf s < n then field src (p + 3 * order.idxOf s) 3 else 0

/-- Lengths that are given by codes with the lengths `cl`: each as it is, as repetitions of the one
before, or as a run of zeros. -/
inductive Lengths (src : List UInt8) (cl : List ℕ) : ℕ → List ℕ → ℕ → List ℕ → Prop where
  | stop {p : ℕ} {ls : List ℕ} : Lengths src cl p ls p ls
  | length {p p' l : ℕ} {ls ls' : List ℕ} (hl : l ≤ 15) (hcode : CodeAt src p cl l)
      (hrest : Lengths src cl (p + cl.getD l 0) (ls ++ [l]) p' ls') : Lengths src cl p ls p' ls'
  | again {p q p' l : ℕ} {ls ls' : List ℕ} (hl : ls.getLast? = some l) (hcode : CodeAt src p cl 16)
      (hq : q = p + cl.getD 16 0) (hwithin : q + 2 ≤ 8 * src.length)
      (hrest : Lengths src cl (q + 2) (ls ++ List.replicate (3 + field src q 2) l) p' ls') :
      Lengths src cl p ls p' ls'
  | zeros {p q p' : ℕ} {ls ls' : List ℕ} (hcode : CodeAt src p cl 17)
      (hq : q = p + cl.getD 17 0) (hwithin : q + 3 ≤ 8 * src.length)
      (hrest : Lengths src cl (q + 3) (ls ++ List.replicate (3 + field src q 3) 0) p' ls') :
      Lengths src cl p ls p' ls'
  | manyZeros {p q p' : ℕ} {ls ls' : List ℕ} (hcode : CodeAt src p cl 18)
      (hq : q = p + cl.getD 18 0) (hwithin : q + 7 ≤ 8 * src.length)
      (hrest : Lengths src cl (q + 7) (ls ++ List.replicate (11 + field src q 7) 0) p' ls') :
      Lengths src cl p ls p' ls'

/-- The start of a block with its own codes: how many lengths there are of each kind, the codes for
lengths, and the lengths. No more of the code space is used than there is. -/
structure Header (src : List UInt8) (p p' : ℕ) (lit dist : List ℕ) : Prop where
  length_lit : lit.length = 257 + field src p 5
  length_dist : dist.length = 1 + field src (p + 5) 5
  within : p + 14 + 3 * (4 + field src (p + 10) 4) ≤ 8 * src.length
  lengths : Lengths src (codeLengths src (p + 14) (4 + field src (p + 10) 4))
    (p + 14 + 3 * (4 + field src (p + 10) 4)) [] p' (lit ++ dist)
  kraft_codeLengths : kraftSum (codeLengths src (p + 14) (4 + field src (p + 10) 4)) ≤ 1
  kraft_lit : kraftSum lit ≤ 1
  kraft_dist : kraftSum dist ≤ 1

/-! ## Streams -/

/-- A block, after the bit that says whether it is the last one. -/
inductive Block (src : List UInt8) : ℕ → List UInt8 → ℕ → List UInt8 → Prop where
  /-- Bytes, from the next whole byte on, after their number and its complement. -/
  | stored {p q len : ℕ} {out : List UInt8} (htype : field src p 2 = 0) (hq : q = (p + 2 + 7) / 8)
      (hlen : field src (8 * q) 16 = len) (hcomplement : field src (8 * q + 16) 16 = 2^16 - 1 - len)
      (hwithin : q + 4 + len ≤ src.length) :
      Block src p out (8 * (q + 4 + len)) (out ++ (src.drop (q + 4)).take len)
  /-- Fixed codes. -/
  | fixed {p p' : ℕ} {out out' : List UInt8} (htype : field src p 2 = 1)
      (hdata : Data src fixedLit fixedDist (p + 2) out p' out') : Block src p out p' out'
  /-- Codes that are given at the start of the block. -/
  | dynamic {p q p' : ℕ} {out out' : List UInt8} {lit dist : List ℕ} (htype : field src p 2 = 2)
      (hheader : Header src (p + 2) q lit dist) (hdata : Data src lit dist q out p' out') :
      Block src p out p' out'

/-- Blocks up to the last one. -/
inductive Blocks (src : List UInt8) : ℕ → List UInt8 → ℕ → List UInt8 → Prop where
  | last {p p' : ℕ} {out out' : List UInt8} (hlast : field src p 1 = 1)
      (hblock : Block src (p + 1) out p' out') : Blocks src p out p' out'
  | more {p q p' : ℕ} {out mid out' : List UInt8} (hmore : field src p 1 = 0)
      (hblock : Block src (p + 1) out q mid) (hrest : Blocks src q mid p' out') :
      Blocks src p out p' out'

/-- A stream that holds `out`. It ends with the byte in which its last block ends. -/
def Stream (src out : List UInt8) : Prop :=
  ∃ p, Blocks src 0 [] p out ∧ p ≤ 8 * src.length ∧ 8 * src.length < p + 8

/-! ## Positions -/

section Within

variable {src : List UInt8} {lit dist cl : List ℕ} {p p' : ℕ} {out out' : List UInt8}

theorem codeAt_lt {ls : List ℕ} {s : ℕ} (h : CodeAt src p ls s) :
    p < p + ls.getD s 0 ∧ p + ls.getD s 0 ≤ 8 * src.length :=
  ⟨Nat.lt_add_of_pos_right (Nat.pos_of_ne_zero h.ne_zero), h.within⟩

/-- A block of codes takes up bits, and they are there. -/
theorem Data.lt (h : Data src lit dist p out p' out') : p < p' ∧ p' ≤ 8 * src.length := by
  induction h with
  | stop hcode => exact codeAt_lt hcode
  | byte b hcode _ ih => exact ⟨(codeAt_lt hcode).1.trans ih.1, ih.2⟩
  | copy c e _ _ hcode hq hdist hr _ _ ih =>
    have hp := codeAt_lt hcode
    have hq' := codeAt_lt hdist
    exact ⟨by omega, ih.2⟩

theorem Lengths.le {ls ls' : List ℕ} (h : Lengths src cl p ls p' ls') :
    p ≤ p' ∧ ls.length ≤ ls'.length := by
  induction h with
  | stop => exact ⟨le_rfl, le_rfl⟩
  | length _ hcode _ ih =>
    rw [List.length_append, List.length_singleton] at ih
    omega
  | again _ hcode hq _ _ ih =>
    rw [List.length_append] at ih
    omega
  | zeros hcode hq _ _ ih =>
    rw [List.length_append] at ih
    omega
  | manyZeros hcode hq _ _ ih =>
    rw [List.length_append] at ih
    omega

/-- Whatever way a length is given in, it is at most 15. -/
theorem Lengths.le_15 {ls ls' : List ℕ} (h : Lengths src cl p ls p' ls') (hls : ∀ l ∈ ls, l ≤ 15) :
    ∀ l ∈ ls', l ≤ 15 := by
  have happend : ∀ {ls more : List ℕ}, (∀ l ∈ ls, l ≤ 15) → (∀ l ∈ more, l ≤ 15) →
      ∀ l ∈ ls ++ more, l ≤ 15 :=
    fun hls hmore l hl => (List.mem_append.mp hl).elim (hls l) (hmore l)
  have hreplicate : ∀ {n l : ℕ}, l ≤ 15 → ∀ x ∈ List.replicate n l, x ≤ 15 :=
    fun hl x hx => List.eq_of_mem_replicate hx ▸ hl
  induction h with
  | stop => exact hls
  | length hl _ _ ih => exact ih (happend hls fun x hx => List.mem_singleton.mp hx ▸ hl)
  | again hl _ _ _ _ ih => exact ih (happend hls (hreplicate (hls _ (List.mem_of_getLast? hl))))
  | zeros _ _ _ _ ih => exact ih (happend hls (hreplicate (Nat.zero_le 15)))
  | manyZeros _ _ _ _ ih => exact ih (happend hls (hreplicate (Nat.zero_le 15)))

theorem Block.lt (h : Block src p out p' out') : p + 2 < p' ∧ p' ≤ 8 * src.length := by
  cases h with
  | stored htype hq hlen hcomplement hwithin => omega
  | fixed htype hdata =>
    have := hdata.lt
    omega
  | dynamic htype hheader hdata =>
    have := hdata.lt
    have := hheader.lengths.le
    omega

end Within

end Deflate

end Catse
