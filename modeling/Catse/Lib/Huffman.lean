import Catse.Lib.Bits
import Mathlib.Algebra.BigOperators.Group.List.Basic
import Mathlib.Algebra.Order.BigOperators.Group.List
import Mathlib.Algebra.Order.Ring.Rat
import Mathlib.Data.List.GetD
import Mathlib.Tactic.Linarith
import Mathlib.Tactic.Ring

/-!
# Canonical Huffman codes

A canonical Huffman code is given by the lengths of its codes alone: the codes of one length are
consecutive numbers in the order of their symbols, and the first code of a length is twice the
number that follows the last code of the length before (`firstCode`). A symbol without a code has
length 0.

`spent` counts the codes of `k` bits that are used up by the symbols with at most `k` bits. It is
the Kraft sum in integers, so that it stays within `2^k` when the Kraft sum of the lengths is at
most 1 (`spent_le`). The first bits of a longer code are never among the codes that are used up
(`spent_le_code`), which is why a decoder can stop at the first number that is below `spent`.
-/

namespace Catse

namespace Huffman

/-- How many symbols have codes of `k` bits. -/
def count (ls : List ℕ) (k : ℕ) : ℕ := if k = 0 then 0 else ls.count k

/-- The first code of `k` bits. -/
def firstCode (ls : List ℕ) : ℕ → ℕ
  | 0 => 0
  | k + 1 => 2 * (firstCode ls k + count ls k)

/-- How many symbols before `s` have codes of the same length. -/
def rank (ls : List ℕ) (s : ℕ) : ℕ := (ls.take s).count (ls.getD s 0)

/-- The code of a symbol. -/
def code (ls : List ℕ) (s : ℕ) : ℕ := firstCode ls (ls.getD s 0) + rank ls s

/-- The sum over the symbols with a code of the part of the code space that their codes take. -/
def kraftSum (ls : List ℕ) : ℚ := (ls.map fun l => if l = 0 then 0 else (1 / 2 : ℚ)^l).sum

/-- The code of a symbol stands at bit `p`, most significant bit first. -/
structure CodeAt (src : List UInt8) (p : ℕ) (ls : List ℕ) (s : ℕ) : Prop where
  lt_length : s < ls.length
  ne_zero : ls.getD s 0 ≠ 0
  within : p + ls.getD s 0 ≤ 8 * src.length
  bit_eq : ∀ i < ls.getD s 0, bitAt src (p + i) = (code ls s).testBit (ls.getD s 0 - 1 - i)

/-- The codes of `k` bits that are used up by symbols with at most `k` bits. -/
def spent (ls : List ℕ) (k : ℕ) : ℕ := firstCode ls k + count ls k

/-- How many symbols have codes of less than `k` bits. -/
def shorter (ls : List ℕ) : ℕ → ℕ
  | 0 => 0
  | k + 1 => shorter ls k + count ls k

variable {ls : List ℕ}

theorem spent_succ (k : ℕ) : spent ls (k + 1) = 2 * spent ls k + count ls (k + 1) := rfl

/-- The part of the code space that a code of length `l` takes, if it has at most `k` bits. -/
def share (k l : ℕ) : ℚ := if l = 0 ∨ k < l then 0 else (1 / 2)^l

theorem share_le (k l : ℕ) : share k l ≤ if l = 0 then 0 else (1 / 2)^l := by
  unfold share
  split_ifs with h h0 h0
  · exact le_rfl
  · positivity
  · exact absurd (.inl h0) h
  · exact le_rfl

/-- With one more bit, the codes of just that length count as well. -/
theorem share_succ (k l : ℕ) :
    share (k + 1) l = share k l + if l = k + 1 then (1 / 2)^(k + 1) else 0 := by
  unfold share
  rcases Nat.lt_trichotomy l (k + 1) with hl | rfl | hl
  · have hk : ¬k < l := by omega
    simp [hl.ne, hk, not_lt.mpr hl.le]
  · simp
  · have hk : k < l := by omega
    simp [hl.ne', hk, hl]

theorem sum_share_succ (ls : List ℕ) (k : ℕ) : (ls.map (share (k + 1))).sum =
    (ls.map (share k)).sum + ls.count (k + 1) * (1 / 2 : ℚ)^(k + 1) := by
  induction ls with
  | nil => simp
  | cons l ls ih =>
    rw [List.map_cons, List.map_cons, List.sum_cons, List.sum_cons, List.count_cons, ih, share_succ]
    by_cases hl : l = k + 1
    · simp only [hl, if_true, beq_self_eq_true]
      push_cast
      ring
    · have hne : (l == k + 1) = false := beq_eq_false_iff_ne.mpr hl
      simp only [hl, hne, if_false, Bool.false_eq_true]
      push_cast
      ring

/-- The codes that are used up are the shares of the lengths, in units of `2^(-k)`. -/
theorem spent_eq (ls : List ℕ) (k : ℕ) : (spent ls k : ℚ) = 2^k * (ls.map (share k)).sum := by
  induction k with
  | zero =>
    have hnone : (ls.map (share 0)).sum = 0 := by
      apply List.sum_eq_zero
      intro x hx
      obtain ⟨l, -, rfl⟩ := List.mem_map.mp hx
      exact if_pos l.eq_zero_or_pos
    rw [hnone, mul_zero]
    rfl
  | succ k ih =>
    have hcount : count ls (k + 1) = ls.count (k + 1) := if_neg (Nat.succ_ne_zero k)
    have hunit : (2 : ℚ)^(k + 1) * (1 / 2)^(k + 1) = 1 := by
      rw [← mul_pow]
      norm_num
    calc (spent ls (k + 1) : ℚ) = 2 * spent ls k + ls.count (k + 1) := by
          rw [spent_succ, hcount]
          push_cast
          ring
      _ = 2^(k + 1) * (ls.map (share k)).sum +
            ls.count (k + 1) * (2^(k + 1) * (1 / 2)^(k + 1)) := by
          rw [ih, hunit]
          ring
      _ = 2^(k + 1) * (ls.map (share (k + 1))).sum := by
          rw [sum_share_succ]
          ring

/-- With a Kraft sum of at most 1, there are enough codes of every length. -/
theorem spent_le (h : kraftSum ls ≤ 1) (k : ℕ) : spent ls k ≤ 2^k := by
  have hpart : (ls.map (share k)).sum ≤ kraftSum ls := List.sum_le_sum fun l _ => share_le k l
  have hcast : (spent ls k : ℚ) ≤ (2^k : ℕ) := by
    rw [spent_eq]
    push_cast
    exact mul_le_of_le_one_right (by positivity) (hpart.trans h)
  exact_mod_cast hcast

/-- What is used up stays used up by the codes that are longer. -/
theorem spent_mul_le (ls : List ℕ) (j k : ℕ) :
    2^k * spent ls j ≤ firstCode ls (j + k) + count ls (j + k) := by
  induction k with
  | zero => rw [pow_zero, one_mul]; exact le_rfl
  | succ k ih =>
    rw [pow_succ, ← add_assoc, firstCode]
    have := Nat.mul_le_mul_left 2 ih
    calc 2^k * 2 * spent ls j = 2 * (2^k * spent ls j) := by ring
      _ ≤ 2 * (firstCode ls (j + k) + count ls (j + k)) := this
      _ ≤ _ := Nat.le_add_right _ _

theorem rank_lt {s : ℕ} (hs : s < ls.length) (hl : ls.getD s 0 ≠ 0) :
    rank ls s < count ls (ls.getD s 0) := by
  have hsplit : ls = ls.take s ++ ls.getD s 0 :: ls.drop (s + 1) := by
    rw [List.getD_eq_getElem _ _ hs, List.getElem_cons_drop, List.take_append_drop]
  have hcount := congrArg (List.count (ls.getD s 0)) hsplit
  rw [List.count_append, List.count_cons_self] at hcount
  rw [count, if_neg hl, rank]
  omega

/-- A code has as many bits as its length says. -/
theorem code_lt (h : kraftSum ls ≤ 1) {s : ℕ} (hs : s < ls.length) (hl : ls.getD s 0 ≠ 0) :
    code ls s < 2^(ls.getD s 0) := by
  have hrank := rank_lt hs hl
  have hspent := spent_le h (ls.getD s 0)
  unfold code
  unfold spent at hspent
  omega

/-- The first bits of a code are none of the shorter codes that are used up. -/
theorem spent_le_code (ls : List ℕ) {s k : ℕ} (hk : k < ls.getD s 0) :
    spent ls k ≤ code ls s / 2^(ls.getD s 0 - k) := by
  obtain ⟨j, hj⟩ := Nat.exists_eq_add_of_lt hk
  have hfirst : 2^(j + 1) * spent ls k ≤ firstCode ls (k + (j + 1)) := by
    have h := Nat.mul_le_mul_left 2 (spent_mul_le ls k j)
    calc 2^(j + 1) * spent ls k = 2 * (2^j * spent ls k) := by ring
      _ ≤ 2 * (firstCode ls (k + j) + count ls (k + j)) := h
  have hsub : ls.getD s 0 - k = j + 1 := by omega
  rw [hsub, Nat.le_div_iff_mul_le (Nat.two_pow_pos _), mul_comm]
  refine hfirst.trans ?_
  rw [code, hj, add_assoc]
  exact Nat.le_add_right _ _

end Huffman

end Catse
