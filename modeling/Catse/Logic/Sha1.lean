import Catse.Lib.Answers
import Catse.Lib.Loops
import Catse.Lib.Memory
import Catse.Lib.Sha1

/-!
# The class `SHA1` of `sha1.cpp`

`SHA1` has the members of the class. The length is counted in two words, and a message of `2^64`
bits or more corrupts the object, as input after `Result` does. `Abstract` is what the class is for,
a message that grows until its digest is asked for, and `sha1_answers` says that the class answers
every sequence of calls as that does, with the digest of the standard.
-/

namespace Catse

open Fips180 (Words5)

/-- `SHA1`. `Message_Block` is memory from its start on. -/
structure SHA1 where
  H : Words5
  Length_Low : UInt32
  Length_High : UInt32
  Message_Block : ℕ → UInt8
  Message_Block_Index : ℕ
  Computed : Bool
  Corrupted : Bool

namespace SHA1

/-- `SHA1::Reset`, which leaves `Message_Block` as it is. -/
def reset (s : SHA1) : SHA1 :=
  { s with
    H := ⟨0x67452301, 0xEFCDAB89, 0x98BADCFE, 0x10325476, 0xC3D2E1F0⟩
    Length_Low := 0
    Length_High := 0
    Message_Block_Index := 0
    Computed := false
    Corrupted := false }

/-- `SHA1::CircularShift`. -/
def circularShift (bits : ℕ) (word : UInt32) : UInt32 :=
  ((word <<< UInt32.ofNat bits) &&& 0xFFFFFFFF) |||
    ((word &&& 0xFFFFFFFF) >>> UInt32.ofNat (32 - bits))

/-! ## `ProcessMessageBlock` -/

/-- The first loop, for one `t`. -/
def loadWord (block : ℕ → UInt8) (W : List UInt32) (t : ℕ) : List UInt32 :=
  W.set t
    ((((block (t * 4)).toUInt32 <<< 24 ||| (block (t * 4 + 1)).toUInt32 <<< 16) |||
      (block (t * 4 + 2)).toUInt32 <<< 8) ||| (block (t * 4 + 3)).toUInt32)

/-- The second loop, for one `t`. -/
def extendWord (W : List UInt32) (t : ℕ) : List UInt32 :=
  W.set t (circularShift 1 (W.getD (t - 3) 0 ^^^ W.getD (t - 8) 0 ^^^ W.getD (t - 14) 0 ^^^
    W.getD (t - 16) 0))

/-- `W[80]` after both loops. -/
def words (block : ℕ → UInt8) (W : List UInt32) : List UInt32 :=
  (List.range' 16 64).foldl extendWord ((List.range' 0 16).foldl (loadWord block) W)

/-- The body of one of the four loops over `t`, with its function of `B`, `C` and `D` and its
constant `K`. -/
def turn (g : UInt32 → UInt32 → UInt32 → UInt32) (K : UInt32) (W : List UInt32) (r : Words5)
    (t : ℕ) : Words5 :=
  let temp := circularShift 5 r.a + g r.b r.c r.d + r.e + W.getD t 0 + K
  ⟨temp &&& 0xFFFFFFFF, r.a, circularShift 30 r.b, r.c, r.d⟩

/-- The four loops. -/
def turns (W : List UInt32) (r : Words5) : Words5 :=
  let r := (List.range' 0 20).foldl
    (turn (fun B C D => (B &&& C) ||| (~~~B &&& D)) 0x5A827999 W) r
  let r := (List.range' 20 20).foldl (turn (fun B C D => B ^^^ C ^^^ D) 0x6ED9EBA1 W) r
  let r := (List.range' 40 20).foldl
    (turn (fun B C D => (B &&& C) ||| (B &&& D) ||| (C &&& D)) 0x8F1BBCDC W) r
  (List.range' 60 20).foldl (turn (fun B C D => B ^^^ C ^^^ D) 0xCA62C1D6 W) r

/-- `SHA1::ProcessMessageBlock`. Both loops write `W[t]` before it is read, so that it starts with
zeros makes no difference. -/
def processMessageBlock (s : SHA1) : SHA1 :=
  let r := turns (words s.Message_Block (List.replicate 80 0)) s.H
  { s with
    H := ⟨(s.H.a + r.a) &&& 0xFFFFFFFF, (s.H.b + r.b) &&& 0xFFFFFFFF, (s.H.c + r.c) &&& 0xFFFFFFFF,
      (s.H.d + r.d) &&& 0xFFFFFFFF, (s.H.e + r.e) &&& 0xFFFFFFFF⟩
    Message_Block_Index := 0 }

/-! ## `Input` and `Result` -/

/-- `Message_Block[Message_Block_Index++] = b`. -/
def put (s : SHA1) (b : UInt8) : SHA1 :=
  { s with
    Message_Block := storeAt s.Message_Block s.Message_Block_Index [b]
    Message_Block_Index := s.Message_Block_Index + 1 }

/-- The message is longer by eight bits. -/
def countByte (s : SHA1) : SHA1 :=
  let s := { s with Length_Low := (s.Length_Low + 8) &&& 0xFFFFFFFF }
  if s.Length_Low = 0 then
    let s := { s with Length_High := (s.Length_High + 1) &&& 0xFFFFFFFF }
    if s.Length_High = 0 then { s with Corrupted := true } else s
  else s

/-- The body of the loop of `Input`. -/
def inputByte (s : SHA1) (b : UInt8) : SHA1 :=
  let s := (s.put b).countByte
  if s.Message_Block_Index = 64 then s.processMessageBlock else s

/-- The loop of `Input`. -/
def inputLoop (s : SHA1) : List UInt8 → SHA1
  | [] => s
  | b :: bs => if s.Corrupted then s else inputLoop (s.inputByte b) bs

/-- `SHA1::Input`. -/
def input (s : SHA1) (message_array : List UInt8) : SHA1 :=
  if message_array.length = 0 then s
  else if s.Computed || s.Corrupted then { s with Corrupted := true }
  else s.inputLoop message_array

/-- `SHA1::operator<<` of a string: `Input` of each of its characters. -/
def inputStr (s : SHA1) (message_array : List UInt8) : SHA1 :=
  message_array.foldl (fun s b => s.input [b]) s

/-- `while(Message_Block_Index < n) Message_Block[Message_Block_Index++] = 0;`. -/
def zeroTo (s : SHA1) (n : ℕ) : SHA1 := (fun s => s.put 0)^[n - s.Message_Block_Index] s

/-- The message length in the last eight bytes. -/
def putLength (s : SHA1) : SHA1 :=
  { s with
    Message_Block := storeAt s.Message_Block 56
      ([((s.Length_High >>> 24) &&& 0xFF).toUInt8, ((s.Length_High >>> 16) &&& 0xFF).toUInt8,
        ((s.Length_High >>> 8) &&& 0xFF).toUInt8, (s.Length_High &&& 0xFF).toUInt8] ++
      [((s.Length_Low >>> 24) &&& 0xFF).toUInt8, ((s.Length_Low >>> 16) &&& 0xFF).toUInt8,
        ((s.Length_Low >>> 8) &&& 0xFF).toUInt8, (s.Length_Low &&& 0xFF).toUInt8]) }

/-- `SHA1::PadMessage`. -/
def padMessage (s : SHA1) : SHA1 :=
  let s :=
    if 55 < s.Message_Block_Index then (((s.put 0x80).zeroTo 64).processMessageBlock).zeroTo 56
    else (s.put 0x80).zeroTo 56
  s.putLength.processMessageBlock

/-- `SHA1::Result`, with `none` for `false`. -/
def result (s : SHA1) : Option Words5 × SHA1 :=
  if s.Corrupted then (none, s)
  else
    let s := if s.Computed then s else { s.padMessage with Computed := true }
    (some s.H, s)

/-! ## A block -/

theorem and_mask (x : UInt32) : x &&& 0xFFFFFFFF = x := UInt32.and_neg_one

theorem circularShift_eq {n : ℕ} (x : UInt32) (hn : 0 < n ∧ n < 32) :
    circularShift n x = rotl n x := by
  rw [circularShift, and_mask, and_mask, rotl_eq x hn]

/-- Four bytes of a block. -/
theorem word_prefixOf (block : ℕ → UInt8) {t : ℕ} (ht : t < 16) :
    wordBE (((prefixOf block 64).drop (4 * t)).take 4) =
      ((((block (t * 4)).toUInt32 <<< 24 ||| (block (t * 4 + 1)).toUInt32 <<< 16) |||
        (block (t * 4 + 2)).toUInt32 <<< 8) ||| (block (t * 4 + 3)).toUInt32) := by
  rw [take_drop_prefixOf block (by omega : 4 * t + 4 ≤ 64), wordBE_shifts, Nat.mul_comm]
  rfl

/-- The words of a block are those of the standard. -/
theorem words_spec (block : ℕ → UInt8) {W : List UInt32} (hW : W.length = 80) {t : ℕ}
    (ht : t < 80) : (words block W).getD t 0 = Fips180.w (prefixOf block 64) t := by
  obtain ⟨hlen, hload⟩ := foldl_set (v := Fips180.w (prefixOf block 64)) (d := 0) (a := 0) (n := 16)
    (W := W)
    (f := fun _ t => (((block (t * 4)).toUInt32 <<< 24 ||| (block (t * 4 + 1)).toUInt32 <<< 16) |||
      (block (t * 4 + 2)).toUInt32 <<< 8) ||| (block (t * 4 + 3)).toUInt32)
    (fun j hj => absurd hj (Nat.not_lt_zero j))
    (fun L i _ hi _ => by
      rw [Fips180.w, if_pos (by omega), word_prefixOf block (by omega)])
    (by omega)
  refine (foldl_set (v := Fips180.w (prefixOf block 64)) (d := 0) (a := 16) (n := 64) hload
    (f := fun W t => circularShift 1 (W.getD (t - 3) 0 ^^^ W.getD (t - 8) 0 ^^^
      W.getD (t - 14) 0 ^^^ W.getD (t - 16) 0)) (fun L i hi _ hbefore => ?_) ?_).2 t (by omega)
  · rw [Fips180.w, if_neg (by omega), hbefore _ (by omega), hbefore _ (by omega),
      hbefore _ (by omega), hbefore _ (by omega), circularShift_eq _ (by decide)]
  · omega

/-- One of the four loops does the steps of the standard. -/
theorem foldl_turn {g : UInt32 → UInt32 → UInt32 → UInt32} {K : UInt32} {block : List UInt8}
    {W : List UInt32} (hW : ∀ t < 80, W.getD t 0 = Fips180.w block t) {a : ℕ} (ha : a + 20 ≤ 80)
    (hg : ∀ t, a ≤ t → t < a + 20 → Fips180.f t = g ∧ Fips180.k t = K) (r : Words5) :
    (List.range' a 20).foldl (turn g K W) r = (List.range' a 20).foldl (Fips180.step block) r := by
  apply List.foldl_ext
  intro r t ht
  obtain ⟨hle, hlt⟩ := List.mem_range'_1.mp ht
  obtain ⟨hf, hk⟩ := hg t hle hlt
  rw [turn, Fips180.step, hf, hk, hW t (by omega), and_mask, circularShift_eq _ (by decide),
    circularShift_eq _ (by decide)]

/-- The four loops are the eighty steps of the standard. -/
theorem turns_eq {block : List UInt8} {W : List UInt32}
    (hW : ∀ t < 80, W.getD t 0 = Fips180.w block t) (r : Words5) :
    turns W r = (List.range 80).foldl (Fips180.step block) r := by
  have hsplit : List.range 80 = List.range' 0 20 ++ List.range' 20 20 ++ List.range' 40 20 ++
      List.range' 60 20 := rfl
  rw [hsplit, List.foldl_append, List.foldl_append, List.foldl_append, turns]
  rw [foldl_turn hW (by decide) fun t _ hlt => ?_, foldl_turn hW (by decide) fun t hle hlt => ?_,
    foldl_turn hW (by decide) fun t hle hlt => ?_, foldl_turn hW (by decide) fun t hle hlt => ?_]
  · refine ⟨?_, ?_⟩
    · funext b c d
      rw [Fips180.f, if_pos (by omega)]
    · rw [Fips180.k, if_pos (by omega)]
  · refine ⟨?_, ?_⟩
    · funext b c d
      rw [Fips180.f, if_neg (by omega), if_pos (by omega)]
    · rw [Fips180.k, if_neg (by omega), if_pos (by omega)]
  · refine ⟨?_, ?_⟩
    · funext b c d
      rw [Fips180.f, if_neg (by omega), if_neg (by omega), if_pos (by omega)]
    · rw [Fips180.k, if_neg (by omega), if_neg (by omega), if_pos (by omega)]
  · refine ⟨?_, ?_⟩
    · funext b c d
      rw [Fips180.f, if_neg (by omega), if_neg (by omega), if_neg (by omega)]
    · rw [Fips180.k, if_neg (by omega), if_neg (by omega), if_neg (by omega)]

/-- `ProcessMessageBlock` is the compression function. -/
theorem processMessageBlock_eq (s : SHA1) :
    s.processMessageBlock =
      { s with
        H := Fips180.compress s.H (prefixOf s.Message_Block 64)
        Message_Block_Index := 0 } := by
  have hW : ∀ t < 80, (words s.Message_Block (List.replicate 80 0)).getD t 0 =
      Fips180.w (prefixOf s.Message_Block 64) t :=
    fun t ht => words_spec s.Message_Block List.length_replicate ht
  rw [processMessageBlock, turns_eq hW]
  simp only [and_mask]
  rfl

/-! ## A byte -/

/-- A byte in the block. -/
theorem prefixOf_put (s : SHA1) (b : UInt8) :
    prefixOf (s.put b).Message_Block (s.put b).Message_Block_Index =
      prefixOf s.Message_Block s.Message_Block_Index ++ [b] :=
  prefixOf_storeAt_length s.Message_Block s.Message_Block_Index [b]

theorem add_mask (x y : UInt32) :
    ((x + y) &&& 0xFFFFFFFF).toNat = (x.toNat + y.toNat) % 2^32 := by
  rw [and_mask, UInt32.toNat_add]

/-- Both words of the length count one number of bits, until it does not fit. -/
theorem countByte_spec {s : SHA1} {n : ℕ}
    (hn : s.Length_High.toNat * 2^32 + s.Length_Low.toNat = 8 * n) :
    (countByte s).H = s.H ∧ (countByte s).Message_Block = s.Message_Block ∧
      (countByte s).Message_Block_Index = s.Message_Block_Index ∧
      (countByte s).Computed = s.Computed ∧
      (countByte s).Corrupted = (s.Corrupted || decide (n + 1 = 2^61)) ∧
      (n + 1 < 2^61 → (countByte s).Length_High.toNat * 2^32 + (countByte s).Length_Low.toNat =
        8 * (n + 1)) := by
  have hlow := s.Length_Low.toNat_lt
  have hhigh := s.Length_High.toNat_lt
  have elow := add_mask s.Length_Low 8
  have ehigh := add_mask s.Length_High 1
  rw [show UInt32.toNat 8 = 8 from rfl] at elow
  rw [show UInt32.toNat 1 = 1 from rfl] at ehigh
  simp only [countByte]
  generalize (s.Length_Low + 8) &&& 0xFFFFFFFF = low at elow ⊢
  generalize (s.Length_High + 1) &&& 0xFFFFFFFF = high at ehigh ⊢
  split_ifs with hl hh
  · -- Both words are zero again.
    rw [hl] at elow
    rw [hh] at ehigh
    have e : n + 1 = 2^61 := by
      simp only [UInt32.toNat_zero] at elow ehigh
      omega
    refine ⟨rfl, rfl, rfl, rfl, ?_, fun h => absurd h (by omega)⟩
    rw [decide_eq_true e, Bool.or_true]
  · rw [hl] at elow
    have hne : high.toNat ≠ 0 := fun h => hh (UInt32.toNat_inj.mp h)
    simp only [UInt32.toNat_zero] at elow
    refine ⟨rfl, rfl, rfl, rfl, ?_, fun _ => ?_⟩
    · rw [decide_eq_false (by omega), Bool.or_false]
    · dsimp only
      have hlast : s.Length_Low.toNat + 8 = 2^32 := by omega
      have hnext : high.toNat = s.Length_High.toNat + 1 := by omega
      rw [hl, UInt32.toNat_zero, Nat.add_zero, Nat.mul_add, ← hn, hnext, Nat.add_mul, Nat.add_assoc,
        Nat.mul_one, Nat.one_mul, hlast]
  · have hne : low.toNat ≠ 0 := fun h => hl (UInt32.toNat_inj.mp h)
    refine ⟨rfl, rfl, rfl, rfl, ?_, fun _ => ?_⟩
    · rw [decide_eq_false (by omega), Bool.or_false]
    · dsimp only
      omega

/-- The object has got the message `m` and still takes more. -/
structure Reading (m : List UInt8) (s : SHA1) : Prop where
  absorbed : BlockHash.Absorbed Fips180.compress 64 Fips180.iv m s.H
    (prefixOf s.Message_Block s.Message_Block_Index)
  bits : s.Length_High.toNat * 2^32 + s.Length_Low.toNat = 8 * m.length
  computed : s.Computed = false
  corrupted : s.Corrupted = false

theorem reading_reset (s : SHA1) : Reading [] s.reset where
  absorbed := BlockHash.Absorbed.start (by decide)
  bits := by
    rw [reset, UInt32.toNat_zero, List.length_nil, Nat.zero_mul]
  computed := rfl
  corrupted := rfl

namespace Reading

variable {m : List UInt8} {s : SHA1}

theorem index_lt (h : Reading m s) : s.Message_Block_Index < 64 := by
  simpa using h.absorbed.lt

theorem length_mod (h : Reading m s) : m.length % 64 = s.Message_Block_Index := by
  simpa using h.absorbed.length_mod

theorem inputByte (h : Reading m s) (b : UInt8) (hm : m.length + 1 < 2^61) :
    Reading (m ++ [b]) (s.inputByte b) := by
  obtain ⟨hH, hblock, hidx, hcomp, hcorr, hbits⟩ := countByte_spec (s := s.put b) h.bits
  have hlen : (m ++ [b]).length = m.length + 1 := List.length_append
  have hput := prefixOf_put s b
  rw [SHA1.inputByte]
  split_ifs with hfull
  · have hlast : (prefixOf s.Message_Block s.Message_Block_Index).length + [b].length = 64 := by
      rw [length_prefixOf]
      exact hidx.symm.trans hfull
    have hwhole : prefixOf (s.put b).countByte.Message_Block 64 =
        prefixOf s.Message_Block s.Message_Block_Index ++ [b] := by
      rw [← hfull, hblock, hidx, hput]
    rw [processMessageBlock_eq, hwhole, hH]
    refine ⟨h.absorbed.block _ hlast, ?_, hcomp.trans h.computed, ?_⟩
    · rw [hlen]
      exact hbits hm
    · dsimp only
      rw [hcorr, decide_eq_false (by omega), Bool.or_false]
      exact h.corrupted
  · refine ⟨?_, ?_, hcomp.trans h.computed, ?_⟩
    · rw [hH, hblock, hidx, hput]
      have hlt : s.Message_Block_Index + 1 ≠ 64 := fun e => hfull (hidx.trans e)
      have hidx' := h.index_lt
      exact h.absorbed.fill _ (by rw [length_prefixOf, List.length_singleton]; omega)
    · rw [hlen]
      exact hbits hm
    · rw [hcorr, decide_eq_false (by omega), Bool.or_false]
      exact h.corrupted

/-- The byte with which the length does not fit. -/
theorem inputByte_last (h : Reading m s) (b : UInt8) (hm : m.length + 1 = 2^61) :
    (s.inputByte b).Corrupted = true := by
  obtain ⟨-, -, -, -, hcorr, -⟩ := countByte_spec (s := s.put b) h.bits
  have htrue : (s.put b).countByte.Corrupted = true := by
    rw [hcorr, decide_eq_true hm, Bool.or_true]
  rw [SHA1.inputByte]
  split_ifs with hfull
  · rw [processMessageBlock_eq]
    exact htrue
  · exact htrue

end Reading

/-! ## `Input` -/

theorem inputLoop_of_corrupted {s : SHA1} (h : s.Corrupted = true) (bs : List UInt8) :
    s.inputLoop bs = s := by
  cases bs with
  | nil => rfl
  | cons b bs => rw [inputLoop, if_pos h]

/-- The loop takes the whole piece, or the message has got too long. -/
theorem Reading.inputLoop {m : List UInt8} {s : SHA1} (h : Reading m s) (bs : List UInt8)
    (hm : m.length < 2^61) :
    if (m ++ bs).length < 2^61 then Reading (m ++ bs) (s.inputLoop bs)
    else (s.inputLoop bs).Corrupted = true := by
  induction bs generalizing m s with
  | nil =>
    rw [List.append_nil, if_pos hm]
    exact h
  | cons b bs ih =>
    have hgo : s.inputLoop (b :: bs) = (s.inputByte b).inputLoop bs := by
      rw [SHA1.inputLoop, h.corrupted, if_neg Bool.false_ne_true]
    rw [hgo]
    by_cases hlast : m.length + 1 < 2^61
    · have hstep := ih (h.inputByte b hlast) (by rw [List.length_append]; exact hlast)
      rwa [List.append_assoc] at hstep
    · have htrue := h.inputByte_last b (by omega)
      rw [if_neg (by rw [List.length_append, List.length_cons]; omega),
        inputLoop_of_corrupted htrue]
      exact htrue

/-! ## `Result` -/

/-- Only the block and its index change. -/
theorem zeroTo_spec (s : SHA1) {n : ℕ} (hn : s.Message_Block_Index ≤ n) :
    ∃ block, s.zeroTo n = { s with Message_Block := block, Message_Block_Index := n } ∧
      prefixOf block n = prefixOf s.Message_Block s.Message_Block_Index ++
        List.replicate (n - s.Message_Block_Index) 0 := by
  obtain ⟨k, rfl⟩ := Nat.exists_eq_add_of_le hn
  rw [zeroTo, Nat.add_sub_cancel_left]
  clear hn
  induction k generalizing s with
  | zero => exact ⟨s.Message_Block, rfl, (List.append_nil _).symm⟩
  | succ k ih =>
    obtain ⟨block, heq, hblock⟩ := ih (s.put 0)
    have hsum : (s.put 0).Message_Block_Index + k = s.Message_Block_Index + (k + 1) := by
      rw [put, Nat.add_assoc, Nat.add_comm 1 k]
    rw [hsum] at heq hblock
    refine ⟨block, ?_, ?_⟩
    · rw [Function.iterate_succ_apply, heq]
      rfl
    · rw [hblock, prefixOf_put, List.append_assoc, List.replicate_succ]
      rfl

/-- The length stands in the last eight bytes as the standard has it. -/
theorem putLength_block {s : SHA1} {n : ℕ}
    (hn : s.Length_High.toNat * 2^32 + s.Length_Low.toNat = 8 * n) :
    prefixOf s.putLength.Message_Block 64 = prefixOf s.Message_Block 56 ++ beBytes 8 (8 * n) := by
  have hbytes : beBytes 4 s.Length_High.toNat ++ beBytes 4 s.Length_Low.toNat =
      beBytes 8 (8 * n) := by
    have hlow := s.Length_Low.toNat_lt
    have hdiv : 8 * n / 2^(8 * 4) = s.Length_High.toNat := by omega
    have hmod : beBytes 4 s.Length_Low.toNat = beBytes 4 (8 * n) := by
      have hlow' : s.Length_Low.toNat = 8 * n % 2^(8 * 4) := by omega
      rw [beBytes, beBytes, hlow', leBytes_mod]
    rw [show (8 : ℕ) = 4 + 4 from rfl, beBytes_add, show (4 + 4 : ℕ) = 8 from rfl, hdiv, hmod]
  rw [← hbytes, ← beBytes_shifts, ← beBytes_shifts]
  exact prefixOf_storeAt_length s.Message_Block 56 _

/-- The bytes that `Input` has got and those that `PadMessage` has written so far are `m`, and `n`
is the length of the message. -/
structure Padding (m : List UInt8) (n : ℕ) (s : SHA1) : Prop where
  absorbed : BlockHash.Absorbed Fips180.compress 64 Fips180.iv m s.H
    (prefixOf s.Message_Block s.Message_Block_Index)
  bits : s.Length_High.toNat * 2^32 + s.Length_Low.toNat = 8 * n
  corrupted : s.Corrupted = false

namespace Padding

variable {m : List UInt8} {n : ℕ} {s : SHA1}

theorem put (h : Padding m n s) (b : UInt8) (hidx : s.Message_Block_Index + 1 < 64) :
    Padding (m ++ [b]) n (s.put b) where
  absorbed := by
    rw [prefixOf_put]
    exact h.absorbed.fill _ (by rwa [length_prefixOf, List.length_singleton])
  bits := h.bits
  corrupted := h.corrupted

/-- Zeros that do not fill the block. -/
theorem zeroTo (h : Padding m n s) {j : ℕ} (hj : s.Message_Block_Index ≤ j) (hlt : j < 64) :
    Padding (m ++ List.replicate (j - s.Message_Block_Index) 0) n (s.zeroTo j) := by
  obtain ⟨block, heq, hblock⟩ := zeroTo_spec s hj
  rw [heq]
  refine ⟨?_, h.bits, h.corrupted⟩
  dsimp only
  rw [hblock]
  refine h.absorbed.fill _ ?_
  rw [length_prefixOf, List.length_replicate]
  omega

/-- The byte `0x80` and zeros that fill the block, which is hashed. -/
theorem block (h : Padding m n s) (hidx : s.Message_Block_Index < 64) :
    Padding (m ++ 0x80 :: List.replicate (63 - s.Message_Block_Index) 0) n
        (((s.put 0x80).zeroTo 64).processMessageBlock) ∧
      (((s.put 0x80).zeroTo 64).processMessageBlock).Message_Block_Index = 0 := by
  obtain ⟨block, heq, hblock⟩ := zeroTo_spec (s.put 0x80) (n := 64) hidx
  have hsub : 64 - (s.put 0x80).Message_Block_Index = 63 - s.Message_Block_Index :=
    Nat.succ_sub_succ 63 s.Message_Block_Index
  rw [prefixOf_put, List.append_assoc, hsub] at hblock
  rw [heq, processMessageBlock_eq]
  refine ⟨⟨?_, h.bits, h.corrupted⟩, rfl⟩
  dsimp only
  rw [hblock]
  refine h.absorbed.block _ ?_
  rw [length_prefixOf, List.length_cons, List.length_replicate]
  omega

/-- The length and the last block. -/
theorem last (h : Padding m n s) (hidx : s.Message_Block_Index = 56) :
    s.putLength.processMessageBlock.H =
        BlockHash.absorb Fips180.compress 64 Fips180.iv (m ++ beBytes 8 (8 * n)) ∧
      s.putLength.processMessageBlock.Corrupted = false := by
  have hlast := h.absorbed.block (beBytes 8 (8 * n)) (by
    rw [length_prefixOf, length_beBytes, hidx])
  rw [hidx, ← putLength_block h.bits] at hlast
  rw [processMessageBlock_eq]
  exact ⟨hlast.eq_absorb, h.corrupted⟩

end Padding

/-- `PadMessage` brings the padding of the standard. -/
theorem Reading.padMessage {m : List UInt8} {s : SHA1} (h : Reading m s) :
    s.padMessage.H = Fips180.sha1 m ∧ s.padMessage.Corrupted = false := by
  have hidx := h.index_lt
  have hmod := h.length_mod
  have hpad : Padding m m.length s := ⟨h.absorbed, h.bits, h.corrupted⟩
  rw [Fips180.sha1, BlockHash.digest, BlockHash.pad, BlockHash.padding, length_beBytes,
    SHA1.padMessage]
  split_ifs with hlong
  · -- The padding fills up this block and needs another.
    obtain ⟨hfirst, hzero⟩ := hpad.block hidx
    have hnext := hfirst.zeroTo (j := 56) (by omega) (by decide)
    have hend := hnext.last (by
      obtain ⟨block, heq, -⟩ := zeroTo_spec _ (by omega :
        (((s.put 0x80).zeroTo 64).processMessageBlock).Message_Block_Index ≤ 56)
      rw [heq])
    have hzeros : (64 - (m.length + 1 + 8) % 64) % 64 = 63 - s.Message_Block_Index + 56 := by
      omega
    rw [hzero, List.append_assoc, List.append_assoc, List.cons_append, ← List.append_assoc,
      List.replicate_append_replicate] at hend
    rw [hzeros]
    exact hend
  · -- The padding fits into this block.
    have hidx' : (s.put 0x80).Message_Block_Index = s.Message_Block_Index + 1 := rfl
    have hnext := (hpad.put 0x80 (by omega)).zeroTo (j := 56) (by omega) (by decide)
    have hend := hnext.last (by
      obtain ⟨block, heq, -⟩ := zeroTo_spec (s.put 0x80) (n := 56) (by omega)
      rw [heq])
    have hzeros : (64 - (m.length + 1 + 8) % 64) % 64 = 56 - (s.Message_Block_Index + 1) := by
      omega
    rw [hidx', List.append_assoc, List.append_assoc] at hend
    rw [hzeros]
    exact hend

/-! ## What the class is for -/

/-- A call of the class. -/
inductive Call
  | reset
  | input (message_array : List UInt8)
  | inputStr (message_array : List UInt8)
  | result

/-- A call and its answer, where only `Result` has one. -/
def call (s : SHA1) : Call → Option Words5 × SHA1
  | .reset => (none, s.reset)
  | .input bs => (none, s.input bs)
  | .inputStr bs => (none, s.inputStr bs)
  | .result => s.result

/-- What the class is for: a message that grows until its digest is asked for. -/
inductive Abstract
  | reading (m : List UInt8)
  | digested (m : List UInt8)
  | corrupted

/-- More of the message. A message of `2^64` bits has no digest, and one whose digest is out does
not go on. -/
def Abstract.input (bs : List UInt8) : Abstract → Abstract
  | .reading m => if (m ++ bs).length < 2^61 then .reading (m ++ bs) else .corrupted
  | .digested m => if bs = [] then .digested m else .corrupted
  | .corrupted => .corrupted

/-- A call and its answer. -/
def Abstract.call (t : Abstract) : Call → Option Words5 × Abstract
  | .reset => (none, .reading [])
  | .input bs => (none, t.input bs)
  | .inputStr bs => (none, t.input bs)
  | .result =>
    match t with
    | .reading m => (some (Fips180.sha1 m), .digested m)
    | .digested m => (some (Fips180.sha1 m), .digested m)
    | .corrupted => (none, .corrupted)

/-- The object is in that state. -/
def Stands (s : SHA1) : Abstract → Prop
  | .reading m => Reading m s ∧ m.length < 2^61
  | .digested m => s.Computed = true ∧ s.Corrupted = false ∧ s.H = Fips180.sha1 m
  | .corrupted => s.Corrupted = true

theorem Stands.input {s : SHA1} {t : Abstract} (h : Stands s t) (bs : List UInt8) :
    Stands (s.input bs) (t.input bs) := by
  rw [SHA1.input]
  cases bs with
  | nil =>
    rw [if_pos List.length_nil]
    cases t with
    | reading m =>
      rw [Abstract.input, List.append_nil, if_pos h.2]
      exact h
    | digested m => exact h
    | corrupted => exact h
  | cons b bs =>
    rw [if_neg (show (b :: bs).length ≠ 0 from Nat.succ_ne_zero _)]
    cases t with
    | reading m =>
      obtain ⟨hr, hm⟩ := h
      have hloop := hr.inputLoop (b :: bs) hm
      rw [hr.computed, hr.corrupted, Bool.or_false, if_neg (by decide), Abstract.input]
      split_ifs at hloop ⊢ with hlen
      · exact ⟨hloop, hlen⟩
      · exact hloop
    | digested m =>
      rw [h.1, Bool.true_or, if_pos rfl, Abstract.input, if_neg (List.cons_ne_nil b bs)]
      rfl
    | corrupted =>
      have hc : s.Corrupted = true := h
      rw [hc, Bool.or_true, if_pos rfl]
      rfl

/-- Two pieces are one. -/
theorem Abstract.input_append (t : Abstract) (as bs : List UInt8) :
    (t.input as).input bs = t.input (as ++ bs) := by
  cases t with
  | reading m =>
    rw [Abstract.input, Abstract.input]
    by_cases hfit : (m ++ as).length < 2^61
    · rw [if_pos hfit, Abstract.input, List.append_assoc]
    · have hall : ¬ (m ++ (as ++ bs)).length < 2^61 := by
        simp only [List.length_append] at hfit ⊢
        omega
      rw [if_neg hfit, if_neg hall, Abstract.input]
  | digested m =>
    rw [Abstract.input, Abstract.input]
    by_cases has : as = []
    · rw [if_pos has, has, Abstract.input, List.nil_append]
    · rw [if_neg has, if_neg fun e => has (List.append_eq_nil_iff.mp e).1, Abstract.input]
  | corrupted => rfl

theorem Stands.inputStr {s : SHA1} {t : Abstract} (h : Stands s t) (bs : List UInt8) :
    Stands (s.inputStr bs) (t.input bs) := by
  induction bs generalizing s t with
  | nil =>
    have hnil := h.input []
    rwa [SHA1.input, if_pos List.length_nil] at hnil
  | cons b bs ih =>
    have hrest := ih (h.input [b])
    rw [Abstract.input_append] at hrest
    exact hrest

theorem Stands.result {s : SHA1} {t : Abstract} (h : Stands s t) :
    s.result.1 = (t.call .result).1 ∧ Stands s.result.2 (t.call .result).2 := by
  rw [SHA1.result]
  cases t with
  | reading m =>
    obtain ⟨hH, hcorr⟩ := h.1.padMessage
    rw [h.1.corrupted, if_neg (by decide), h.1.computed, if_neg (by decide)]
    exact ⟨congrArg some hH, rfl, hcorr, hH⟩
  | digested m =>
    obtain ⟨hcomp, hcorr, hH⟩ := h
    rw [hcorr, if_neg (by decide), hcomp, if_pos rfl]
    exact ⟨congrArg some hH, hcomp, hcorr, hH⟩
  | corrupted =>
    have hc : s.Corrupted = true := h
    rw [hc, if_pos rfl]
    exact ⟨rfl, hc⟩

theorem stands_reset (s : SHA1) : Stands s.reset (.reading []) :=
  ⟨reading_reset s, by decide⟩

theorem simulates : Simulates call Abstract.call Stands where
  answer s t c h := by
    cases c with
    | result => exact h.result.1
    | reset | input bs | inputStr bs => rfl
  next s t c h := by
    cases c with
    | reset => exact stands_reset s
    | input bs => exact h.input bs
    | inputStr bs => exact h.inputStr bs
    | result => exact h.result.2

/-- A new object answers every sequence of calls as a message does that grows until its digest, the
one of the standard, is asked for, whatever stood in its members before. -/
theorem sha1_answers (s : SHA1) (calls : List Call) :
    answers call s.reset calls = answers Abstract.call (.reading []) calls :=
  simulates.answers_eq (stands_reset s) calls

end SHA1

end Catse
