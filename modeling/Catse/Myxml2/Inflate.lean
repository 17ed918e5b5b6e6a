import Catse.Lib.Bits
import Mathlib.Data.Nat.Bitwise
import Mathlib.Logic.Function.Basic

/-!
# Inflating

The functions with which `myxml2` unpacks an entry of an xlsx file: `tinfBuildTree`, `tinfReadBits`,
`tinfDecodeSymbol`, `tinfInflateBlockData` and `tinfUncompress`. The input is a byte string, and a
read behind its end, or of an array outside of its bounds, is the fault `outside`. The position in
the input is `source`, which is one past the byte that is being read, and `bitcount`, the bits of
that byte that are read already; with a `bitcount` of 0 the byte is done, and `source` is the next
one. The output is what has been written of it.

The two loops without a bound take as many turns as there are bits in the input, and one more,
before they give up: each turn reads a bit at least.
-/

namespace Catse.Myxml2

/-- Why unpacking fails. -/
inductive TinfFault where
  /-- An `assert` does not hold. -/
  | assertion
  /-- A read or write outside of an array. -/
  | outside
  /-- The length of a stored block and its complement do not agree. -/
  | checksum
  /-- A block of the fourth type. -/
  | blockType
  /-- The input is read to its end and the loop still goes on. -/
  | endless
  deriving DecidableEq

/-- `struct tinfTree`. -/
structure TinfTree where
  table : ℕ → ℕ
  trans : ℕ → ℕ

/-- `struct tinfData`. -/
@[ext]
structure TinfData where
  source : ℕ
  bitcount : ℕ
  dest : List UInt8
  ltree : TinfTree
  dtree : TinfTree
  bitcount_lt : bitcount < 8
  started : bitcount ≠ 0 → 0 < source

/-! ## Trees -/

/-- The first loop of `tinfBuildTree`, and what follows it: how many symbols have which length. -/
def tinfCount (lengths : List ℕ) : ℕ → ℕ :=
  Function.update
    (lengths.foldl (fun table l => Function.update table l (table l + 1)) fun _ => 0) 0 0

/-- The second loop of `tinfBuildTree`: `offs` and `sum`. -/
def tinfOffsets (table : ℕ → ℕ) : (ℕ → ℕ) × ℕ :=
  (List.range 16).foldl (fun r i => (Function.update r.1 i r.2, r.2 + table i)) (fun _ => 0, 0)

/-- One turn of the third loop of `tinfBuildTree`, on `trans` and `offs`. -/
def tinfPlace (r : (ℕ → ℕ) × (ℕ → ℕ)) (l i : ℕ) : (ℕ → ℕ) × (ℕ → ℕ) :=
  if l ≠ 0 then (Function.update r.1 (r.2 l) i, Function.update r.2 l (r.2 l + 1)) else r

/-- `tinfBuildTree`, for lengths below 16. What is not written of `trans` stays as it was. -/
def tinfBuildTree (t : TinfTree) (lengths : List ℕ) : TinfTree :=
  let table := tinfCount lengths
  let r := lengths.zipIdx.foldl (fun r li => tinfPlace r li.1 li.2) (t.trans, (tinfOffsets table).1)
  ⟨table, r.1⟩

/-! ## Reading -/

/-- The loop of `tinfReadBits`. The bits of the byte above those that are wanted are masked, so it
does not matter that a `char` is signed. -/
def tinfReadLoop (src : List UInt8) (d : TinfData) (hsource : 0 < d.source) (num sum weight : ℕ) :
    Except TinfFault (ℕ × TinfData) :=
  match src[d.source - 1]? with
  | none => .error .outside
  | some b =>
    if hnum : d.bitcount + num < 9 then
      .ok (sum ||| (b.toNat >>> d.bitcount &&& (1 <<< num) - 1) <<< weight,
        { d with
          bitcount := (d.bitcount + num) &&& 7
          bitcount_lt := Nat.and_lt_two_pow _ (n := 3) (by decide)
          started := fun _ => hsource })
    else
      tinfReadLoop src
        { d with
          source := d.source + 1
          bitcount := 0
          bitcount_lt := by decide
          started := fun h => absurd rfl h }
        (Nat.succ_pos _) (num - (8 - d.bitcount)) (sum ||| (b.toNat >>> d.bitcount) <<< weight)
        (weight + (8 - d.bitcount))
termination_by num
decreasing_by
  have := d.bitcount_lt
  omega

/-- The start of `tinfReadBits`: a byte that is done is followed by the next. -/
def TinfData.enter (d : TinfData) : TinfData :=
  { d with
    source := if d.bitcount = 0 then d.source + 1 else d.source
    started := fun h => by rw [if_neg h]; exact d.started h }

theorem TinfData.enter_pos (d : TinfData) : 0 < d.enter.source := by
  unfold enter
  dsimp only
  split_ifs with h
  · exact Nat.succ_pos _
  · exact d.started h

/-- `tinfReadBits`. -/
def tinfReadBits (src : List UInt8) (d : TinfData) (num : ℕ) : Except TinfFault (ℕ × TinfData) :=
  if num = 0 then .ok (0, d)
  else if ¬num < 14 then .error .assertion
  else tinfReadLoop src d.enter d.enter_pos num 0 0

/-- The loop of `tinfDecodeSymbol`, where `table` has `k` entries behind entry `len`. When `cur` is
shifted its last bit is 0, so adding the next bit is the same as setting it. -/
def tinfDecodeLoop (src : List UInt8) (t : TinfTree) :
    ℕ → TinfData → ℤ → ℤ → ℕ → Except TinfFault (ℕ × TinfData)
  | 0, _, _, _, _ => .error .outside
  | k + 1, d, sum, cur, len => do
    let (bit, d) ← tinfReadBits src d 1
    let sum := sum + t.table (len + 1)
    let cur := 2 * cur + bit - t.table (len + 1)
    if 0 ≤ cur then tinfDecodeLoop src t k d sum cur (len + 1)
    else if 0 ≤ sum + cur ∧ sum + cur < 288 then .ok (t.trans (sum + cur).toNat, d)
    else .error .outside

/-- `tinfDecodeSymbol`. -/
def tinfDecodeSymbol (src : List UInt8) (d : TinfData) (t : TinfTree) :
    Except TinfFault (ℕ × TinfData) := tinfDecodeLoop src t 15 d 0 0 0

/-! ## Blocks -/

/-- `lengthBits`. -/
def lengthBits : List ℕ :=
  [0, 0, 0, 0, 0, 0, 0, 0, 1, 1, 1, 1, 2, 2, 2, 2, 3, 3, 3, 3, 4, 4, 4, 4, 5, 5, 5, 5, 0, 6]

/-- `lengthBase`. -/
def lengthBase : List ℕ :=
  [3, 4, 5, 6, 7, 8, 9, 10, 11, 13, 15, 17, 19, 23, 27, 31, 35, 43, 51, 59, 67, 83, 99, 115, 131,
    163, 195, 227, 258, 323]

/-- `distBits`. -/
def distBits : List ℕ :=
  [0, 0, 0, 0, 1, 1, 2, 2, 3, 3, 4, 4, 5, 5, 6, 6, 7, 7, 8, 8, 9, 9, 10, 10, 11, 11, 12, 12, 13, 13]

/-- `distBase`. -/
def distBase : List ℕ :=
  [1, 2, 3, 4, 5, 7, 9, 13, 17, 25, 33, 49, 65, 97, 129, 193, 257, 385, 513, 769, 1025, 1537, 2049,
    3073, 4097, 6145, 8193, 12289, 16385, 24577]

/-- The entry of an array. -/
def entryAt {α : Type} (l : List α) (i : ℕ) : Except TinfFault α :=
  match l[i]? with
  | some x => .ok x
  | none => .error .outside

/-- The loop that copies: byte by byte, from what the output is by then. -/
def tinfCopy (offs : ℕ) : ℕ → List UInt8 → Except TinfFault (List UInt8)
  | 0, dest => .ok dest
  | length + 1, dest => do
    if dest.length < offs then .error .outside
    else
      let b ← entryAt dest (dest.length - offs)
      tinfCopy offs length (dest ++ [b])

/-- `tinfInflateBlockData`, for a number of turns. -/
def tinfInflateBlockData (src : List UInt8) (lt dt : TinfTree) :
    ℕ → TinfData → Except TinfFault TinfData
  | 0, _ => .error .endless
  | n + 1, d => do
    let (sym, d) ← tinfDecodeSymbol src d lt
    if sym = 256 then .ok d
    else if sym < 256 then
      tinfInflateBlockData src lt dt n { d with dest := d.dest ++ [UInt8.ofNat sym] }
    else
      let bits ← entryAt lengthBits (sym - 257)
      let base ← entryAt lengthBase (sym - 257)
      let (extra, d) ← tinfReadBits src d bits
      let length := extra + base
      let (dist, d) ← tinfDecodeSymbol src d dt
      let bits ← entryAt distBits dist
      let base ← entryAt distBase dist
      let (extra, d) ← tinfReadBits src d bits
      let offs := extra + base
      let dest ← tinfCopy offs length d.dest
      tinfInflateBlockData src lt dt n { d with dest := dest }

/-- The number in two bytes of the input. -/
def tinfShort (src : List UInt8) (i : ℕ) : Except TinfFault ℕ := do
  let low ← entryAt src i
  let high ← entryAt src (i + 1)
  .ok (low.toNat + 2^8 * high.toNat)

/-- A stored block, which begins at the next whole byte. -/
def tinfStored (src : List UInt8) (d : TinfData) : Except TinfFault TinfData := do
  let length ← tinfShort src d.source
  let complement ← tinfShort src (d.source + 2)
  if length ≠ 2^16 - 1 - complement then .error .checksum
  else if src.length < d.source + 4 + length then .error .outside
  else
    .ok { d with
      dest := d.dest ++ (src.drop (d.source + 4)).take length
      source := d.source + 4 + length
      bitcount := 0
      bitcount_lt := by decide
      started := fun h => absurd rfl h }

/-- `sltree`. -/
def sltree : TinfTree where
  table i := ([0, 0, 0, 0, 0, 0, 0, 24, 152, 112] : List ℕ).getD i 0
  trans i :=
    (List.range' 256 24 ++ List.range' 0 144 ++ List.range' 280 8 ++ List.range' 144 112).getD i 0

/-- `sdtree`. -/
def sdtree : TinfTree where
  table i := ([0, 0, 0, 0, 0, 32] : List ℕ).getD i 0
  trans i := (List.range 32).getD i 0

/-- `clcidx`. -/
def clcidx : List ℕ := [16, 17, 18, 0, 8, 7, 9, 6, 10, 5, 11, 4, 12, 3, 13, 2, 14, 1, 15]

/-- The loop that reads the lengths of the codes for lengths. -/
def tinfLengthsA (src : List UInt8) : List ℕ → TinfData → List ℕ →
    Except TinfFault (List ℕ × TinfData)
  | [], d, lengthsA => .ok (lengthsA, d)
  | c :: cs, d, lengthsA => do
    let (l, d) ← tinfReadBits src d 3
    tinfLengthsA src cs d (lengthsA.set c l)

/-- The loop that reads the lengths of the codes for literals, lengths and distances. -/
def tinfLengthsB (src : List UInt8) (codeTree : TinfTree) (len : ℕ) (num : ℕ) (d : TinfData)
    (lengthsB : List ℕ) : Except TinfFault (List ℕ × TinfData) :=
  if num < len then do
    let (sym, d) ← tinfDecodeSymbol src d codeTree
    if sym = 16 then
      let (extra, d) ← tinfReadBits src d 2
      let length := extra + 3
      if num = 0 ∨ lengthsB.length < num + length then .error .outside
      else
        let l ← entryAt lengthsB (num - 1)
        tinfLengthsB src codeTree len (num + length) d
          (lengthsB.take num ++ List.replicate length l ++ lengthsB.drop (num + length))
    else if sym = 17 then
      let (extra, d) ← tinfReadBits src d 3
      tinfLengthsB src codeTree len (num + (extra + 3)) d lengthsB
    else if sym = 18 then
      let (extra, d) ← tinfReadBits src d 7
      tinfLengthsB src codeTree len (num + (extra + 11)) d lengthsB
    else if lengthsB.length < num + 1 then .error .outside
    else tinfLengthsB src codeTree len (num + 1) d (lengthsB.set num sym)
  else .ok (lengthsB, d)
termination_by len - num

/-- The trees of a dynamic block. `junk` is what is on the stack where `codeTree` is. -/
def tinfDynamic (src : List UInt8) (junk : TinfTree) (d : TinfData) :
    Except TinfFault TinfData := do
  let (x, d) ← tinfReadBits src d 5
  let hlit := x + 257
  let (x, d) ← tinfReadBits src d 5
  let hdist := x + 1
  let (x, d) ← tinfReadBits src d 4
  let hclen := x + 4
  let (lengthsA, d) ← tinfLengthsA src (clcidx.take hclen) d (List.replicate 19 0)
  let codeTree := tinfBuildTree junk lengthsA
  let (lengthsB, d) ← tinfLengthsB src codeTree (hlit + hdist) 0 d (List.replicate 320 0)
  .ok { d with
    ltree := tinfBuildTree d.ltree (lengthsB.take hlit)
    dtree := tinfBuildTree d.dtree ((lengthsB.drop hlit).take hdist) }

/-- The loop of `tinfUncompress`, for a number of turns. -/
def tinfBlocks (src : List UInt8) (junk : TinfTree) : ℕ → TinfData → Except TinfFault TinfData
  | 0, _ => .error .endless
  | n + 1, d => do
    let (bfinal, d) ← tinfReadBits src d 1
    let (btype, d) ← tinfReadBits src d 2
    let d ←
      if btype = 0 then tinfStored src d
      else if btype = 1 then tinfInflateBlockData src sltree sdtree (8 * src.length + 1) d
      else if btype = 2 then do
        let d ← tinfDynamic src junk d
        tinfInflateBlockData src d.ltree d.dtree (8 * src.length + 1) d
      else .error .blockType
    if bfinal = 0 then tinfBlocks src junk n d else .ok d

/-- The variables at the start of `tinfUncompress`. `junk` is what is on the stack where the trees
are. -/
def TinfData.init (junk : TinfTree) : TinfData where
  source := 0
  bitcount := 0
  dest := []
  ltree := junk
  dtree := junk
  bitcount_lt := by decide
  started := fun h => absurd rfl h

/-- `tinfUncompress`: the output and `*destLen`. -/
def tinfUncompress (src : List UInt8) (junk : TinfTree) : Except TinfFault (List UInt8 × ℕ) := do
  let d ← tinfBlocks src junk (8 * src.length + 1) (.init junk)
  .ok (d.dest, d.dest.length)

end Catse.Myxml2
