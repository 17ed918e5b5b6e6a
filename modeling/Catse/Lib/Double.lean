import Mathlib.Data.Nat.Log
import Mathlib.Tactic.Ring
import Mathlib.Tactic.NormNum
import Mathlib.Tactic.Common
import Catse.Lib.Bytes

/-!
# IEEE 754 doubles as bit patterns, and their conversions to and from integers

A `Double` is the 64-bit pattern of an IEEE 754 double. Only what converting between doubles and
integers needs is here: the value of a pattern rounded toward zero (`trunc`), the pattern of a small
integer (`ofInt`, exact below `2^53` in magnitude), and the conversions that an x86-64 compiler
emits for a cast from `double` to an integer type. A cast of a value out of the instruction's range,
or of an infinity or a NaN, gives the instruction's "integer indefinite" value.
-/

namespace Catse

/-- The 64-bit pattern of an IEEE 754 double. -/
abbrev Double := BitVec 64

namespace Double

/-- The biased exponent. -/
def expo (d : Double) : ℕ := d.toNat / 2^52 % 2^11

/-- The fraction field. -/
def frac (d : Double) : ℕ := d.toNat % 2^52

/-- The significand: a subnormal has no leading one. -/
def significand (d : Double) : ℕ := if d.expo = 0 then d.frac else 2^52 + d.frac

/-- The magnitude of a finite pattern, rounded down: the significand times `2^(e - 1075)`, with the
exponent `e` of a subnormal read as `1`. -/
def magnitude (d : Double) : ℕ :=
  if max d.expo 1 < 1075 then d.significand / 2^(1075 - max d.expo 1)
  else d.significand * 2^(max d.expo 1 - 1075)

/-- The value rounded toward zero. Infinities and NaNs have none. -/
def trunc (d : Double) : Option ℤ :=
  if d.expo = 2047 then none
  else some (if d.toNat < 2^63 then d.magnitude else -d.magnitude)

/-- The value of a finite pattern times `2^1075`, which is an integer. -/
def scaled (d : Double) : ℤ :=
  if d.toNat < 2^63 then d.significand * 2^(max d.expo 1) else -(d.significand * 2^(max d.expo 1))

/-- An infinity, or a number with a fractional part. -/
def IsFraction (d : Double) : Prop :=
  (d.expo = 2047 ∧ d.frac = 0) ∨ (d.expo ≠ 2047 ∧ ¬ 2^1075 ∣ d.scaled)

/-- The pattern with the given fields. -/
def pack (neg : Bool) (e f : ℕ) : Double := BitVec.ofNat 64 (neg.toNat * 2^63 + e * 2^52 + f)

/-- The pattern of an integer below `2^53` in magnitude. -/
def ofInt (n : ℤ) : Double :=
  if n = 0 then 0
  else pack (n < 0) (Nat.log 2 n.natAbs + 1023)
    (n.natAbs * 2^(52 - Nat.log 2 n.natAbs) - 2^52)

theorem toNat_pack (neg : Bool) {e f : ℕ} (he : e < 2^11) (hf : f < 2^52) :
    (pack neg e f).toNat = neg.toNat * 2^63 + e * 2^52 + f := by
  have hneg := neg.toNat_le
  rw [pack, BitVec.toNat_ofNat]
  exact Nat.mod_eq_of_lt (by omega)

theorem expo_pack (neg : Bool) {e f : ℕ} (he : e < 2^11) (hf : f < 2^52) :
    (pack neg e f).expo = e := by
  rw [expo, toNat_pack neg he hf]
  omega

theorem frac_pack (neg : Bool) {e f : ℕ} (he : e < 2^11) (hf : f < 2^52) :
    (pack neg e f).frac = f := by
  rw [frac, toNat_pack neg he hf]
  omega

/-- The magnitude of a pattern whose significand is an integer `a` shifted to its place. -/
theorem magnitude_pack (neg : Bool) {a k : ℕ} (hk : k ≤ 52) (hlow : 2^52 ≤ a * 2^(52 - k))
    (hhigh : a * 2^(52 - k) < 2^53) :
    (pack neg (k + 1023) (a * 2^(52 - k) - 2^52)).magnitude = a := by
  have hsig : (pack neg (k + 1023) (a * 2^(52 - k) - 2^52)).significand = a * 2^(52 - k) := by
    rw [significand, expo_pack neg (by omega) (by omega), frac_pack neg (by omega) (by omega),
      if_neg (by omega)]
    omega
  rw [magnitude, hsig, expo_pack neg (by omega) (by omega), max_eq_left (by omega)]
  split_ifs with he
  · rw [show 1075 - (k + 1023) = 52 - k by omega]
    exact Nat.mul_div_cancel _ (by positivity)
  · rw [show 52 - k = 0 by omega, show k + 1023 - 1075 = 0 by omega, pow_zero, mul_one, mul_one]

theorem trunc_zero : (0 : Double).trunc = some 0 := by
  have he : expo 0 = 0 := by decide
  have hs : significand 0 = 0 := by decide
  have hm : magnitude 0 = 0 := by rw [magnitude, hs, Nat.zero_div, Nat.zero_mul, ite_self]
  rw [trunc, he, hm]
  decide

/-- The pattern of a small integer has that integer for its value. -/
theorem trunc_ofInt {n : ℤ} (h : n.natAbs < 2^53) : (ofInt n).trunc = some n := by
  unfold ofInt
  split_ifs with h0
  · rw [h0, trunc_zero]
  have ha : n.natAbs ≠ 0 := by omega
  generalize hk : Nat.log 2 n.natAbs = k
  have hk52 : k ≤ 52 := by
    have : Nat.log 2 n.natAbs < 53 := Nat.log_lt_of_lt_pow ha h
    omega
  have hlow : 2^k ≤ n.natAbs := hk ▸ Nat.pow_log_le_self 2 ha
  have hhigh : n.natAbs < 2^(k + 1) := hk ▸ Nat.lt_pow_succ_log_self (by norm_num) _
  -- The significand has its leading one in bit 52.
  have hpow : 2^k * 2^(52 - k) = 2^52 := by rw [← pow_add]; congr 1; omega
  have hm1 : 2^52 ≤ n.natAbs * 2^(52 - k) := by
    rw [← hpow]
    exact Nat.mul_le_mul_right _ hlow
  have hm2 : n.natAbs * 2^(52 - k) < 2^53 := by
    calc n.natAbs * 2^(52 - k) < 2^(k + 1) * 2^(52 - k) :=
          Nat.mul_lt_mul_of_pos_right hhigh (by positivity)
      _ = 2^53 := by rw [pow_succ, mul_right_comm, hpow]; norm_num
  rw [trunc, expo_pack _ (by omega) (by omega), if_neg (by omega), magnitude_pack _ hk52 hm1 hm2,
    toNat_pack _ (by omega) (by omega)]
  refine congrArg some ?_
  by_cases hneg : n < 0
  · rw [decide_eq_true hneg, if_neg (by rw [Bool.toNat_true]; omega)]
    omega
  · rw [decide_eq_false hneg, if_pos (by rw [Bool.toNat_false]; omega)]
    omega

/-- `cvttsd2si` into a register of `w` bits. -/
def cvttsd2si (w : ℕ) (d : Double) : ℤ :=
  match d.trunc with
  | some n => if -2^(w - 1) ≤ n ∧ n < 2^(w - 1) then n else -2^(w - 1)
  | none => -2^(w - 1)

theorem cvttsd2si_range (w : ℕ) (d : Double) :
    -2^(w - 1) ≤ d.cvttsd2si w ∧ d.cvttsd2si w < 2^(w - 1) := by
  have hpos : (0 : ℤ) < 2^(w - 1) := by positivity
  unfold cvttsd2si
  split
  · split_ifs with hrange
    · exact hrange
    · exact ⟨le_rfl, by omega⟩
  · exact ⟨le_rfl, by omega⟩

/-- The conversion of a pattern that stands for an integer in range. -/
theorem cvttsd2si_ofInt {w : ℕ} {n : ℤ} (h : n.natAbs < 2^53)
    (hr : -2^(w - 1) ≤ n ∧ n < 2^(w - 1)) : (ofInt n).cvttsd2si w = n := by
  unfold cvttsd2si
  rw [trunc_ofInt h]
  exact if_pos hr

/-- `(char)d`, through a 32-bit register. -/
def castChar (d : Double) : ℤ := toChar (d.cvttsd2si 32)

/-- `(short)d`, through a 32-bit register. -/
def castShort (d : Double) : ℤ := toShort (d.cvttsd2si 32)

theorem castChar_range (d : Double) : -2^7 ≤ d.castChar ∧ d.castChar < 2^7 := toChar_range _

theorem castShort_range (d : Double) : -2^15 ≤ d.castShort ∧ d.castShort < 2^15 :=
  toShort_range _

/-- `(unsigned short)d`, through a 32-bit register. -/
def castUShort (d : Double) : ℕ := (d.cvttsd2si 32 % 2^16).toNat

/-- `(int)d`. -/
def castInt (d : Double) : ℤ := d.cvttsd2si 32

/-- `(unsigned)d`, the low half of a 64-bit register: a negative integer converts modulo `2^32`. -/
def castUnsigned (d : Double) : ℤ := d.cvttsd2si 64 % 2^32

theorem castChar_ofInt {n : ℤ} (h : -2^7 ≤ n ∧ n < 2^7) : (ofInt n).castChar = n := by
  rw [castChar, cvttsd2si_ofInt (by omega) (by norm_num; omega), toChar_of_range h]

theorem castShort_ofInt {n : ℤ} (h : -2^15 ≤ n ∧ n < 2^15) : (ofInt n).castShort = n := by
  rw [castShort, cvttsd2si_ofInt (by omega) (by norm_num; omega), toShort_of_range h]

theorem castUnsigned_ofInt {n : ℤ} (h : -2^31 ≤ n ∧ n < 2^32) :
    (ofInt n).castUnsigned = n % 2^32 := by
  rw [castUnsigned, cvttsd2si_ofInt (by omega) (by norm_num; omega)]

end Double

end Catse
