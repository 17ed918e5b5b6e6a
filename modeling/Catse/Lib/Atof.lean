import Catse.Lib.Printf

/-!
# Doubles from texts

`atof` and `strtol`, and what is computed with the doubles that they give. A result is the double
nearest to the exact value, and the even one of two that are as near (`Double.ofRatio`).
-/

namespace Catse

open Printf

namespace Double

/-! ## Rounding -/

/-- The double nearest to `a / b`. The exponent `k` is the one that leaves 53 bits of the quotient,
or the least one. A quotient that is rounded up to `2^53` takes the next exponent, and where there
is none it is an infinity. -/
def ofRatio (neg : Bool) (a b : ℕ) : Double :=
  let k := max 1 (Nat.log2 (a * 2^1023 / b))
  let q := roundHalfEven (a * 2^1074) (b * 2^(k - 1))
  BitVec.ofNat 64 (neg.toNat * 2^63 + min ((k - 1) * 2^52 + q) (2047 * 2^52))

/-- The quotient that is rounded has at most 53 bits before its point. -/
theorem quotient_lt {a b e f k : ℕ} (hf : f = e + 51) (hk : 1 ≤ k) (hb : 0 < b)
    (h : a * 2^e / b < 2^(k + 1)) : a * 2^f < 2^53 * (b * 2^(k - 1)) := by
  have hpow : 2^(k + 1) * 2^51 = 2^53 * 2^(k - 1) := by
    rw [← pow_add, ← pow_add]
    congr 1
    omega
  calc a * 2^f
    _ = a * 2^e * 2^51 := by rw [hf, pow_add, Nat.mul_assoc]
    _ < 2^(k + 1) * b * 2^51 :=
      Nat.mul_lt_mul_of_pos_right ((Nat.div_lt_iff_lt_mul hb).mp h) (by positivity)
    _ = b * (2^(k + 1) * 2^51) := by ring
    _ = 2^53 * (b * 2^(k - 1)) := by rw [hpow, Nat.mul_left_comm]

theorem log2_lt {a b c e : ℕ} (he : 0 < e) (h : a < b * 2^c) :
    Nat.log2 (a * 2^e / b) < c + e := by
  rcases Nat.eq_zero_or_pos (a * 2^e / b) with h0 | h0
  · rw [h0]
    exact Nat.add_pos_right c he
  · refine (Nat.log2_lt h0.ne').mpr (Nat.div_lt_of_lt_mul ?_)
    calc a * 2^e
      _ < b * 2^c * 2^e := Nat.mul_lt_mul_of_pos_right h (by positivity)
      _ = b * 2^(c + e) := by rw [Nat.mul_assoc, ← pow_add]

/-- The exponent of a pattern that is put together with a carry. -/
theorem expo_pattern_le {neg k q c : ℕ} (hk : k < c + 1023) (hq : q ≤ 2^53)
    (hc : c ≤ 1000) :
    (neg * 2^63 + min ((k - 1) * 2^52 + q) (2047 * 2^52)) % 2^64 / 2^52 % 2^11 ≤ 1023 + c := by
  omega

/-- What is below a power of two is not rounded beyond it, so that the exponent is bounded. -/
theorem expo_ofRatio_le (neg : Bool) {a b c : ℕ} (h : a < b * 2^c) (hc : c ≤ 1000) :
    (ofRatio neg a b).expo ≤ 1023 + c := by
  have hb : 0 < b := Nat.pos_of_ne_zero fun hb => by simp [hb] at h
  have hlog : Nat.log2 (a * 2^1023 / b) < c + 1023 := log2_lt (by decide) h
  have hk : max 1 (Nat.log2 (a * 2^1023 / b)) < c + 1023 :=
    max_lt (Nat.lt_add_left c (by decide)) hlog
  have hlt : a * 2^1023 / b < 2^(max 1 (Nat.log2 (a * 2^1023 / b)) + 1) :=
    Nat.lt_log2_self.trans_le
      (Nat.pow_le_pow_right (by decide) (Nat.succ_le_succ (le_max_right _ _)))
  have hq := roundHalfEven_le (quotient_lt (f := 1074) rfl (le_max_left _ _) hb hlt)
  rw [ofRatio, expo, BitVec.toNat_ofNat]
  exact expo_pattern_le hk hq hc

/-- The double nearest to an integer. -/
def ofLong (n : ℤ) : Double := ofRatio (n < 0) n.natAbs 1

/-- A zero of either sign. -/
def IsZero (d : Double) : Prop := d.toNat % 2^63 = 0

instance (d : Double) : Decidable d.IsZero := inferInstanceAs (Decidable (_ = _))

/-- `0 < d`. -/
def IsPositive (d : Double) : Prop :=
  ¬d.IsZero ∧ d.toNat < 2^63 ∧ ¬(d.expo = 2047 ∧ d.frac ≠ 0)

instance (d : Double) : Decidable d.IsPositive := inferInstanceAs (Decidable (_ ∧ _ ∧ _))

theorem natAbs_scaled_lt (d : Double) : d.scaled.natAbs < 2^(53 + max d.expo 1) := by
  have hfrac : d.frac < 2^52 := Nat.mod_lt _ (by decide)
  have hsig : d.significand < 2^53 := by
    rw [significand]
    split_ifs <;> omega
  have habs : d.scaled.natAbs = d.significand * 2^(max d.expo 1) := by
    rw [scaled]
    split_ifs
    · exact Int.natAbs_natCast _
    · exact (Int.natAbs_neg _).trans (Int.natAbs_natCast _)
  rw [habs, pow_add]
  exact Nat.mul_lt_mul_of_pos_right hsig (by positivity)

/-- The sum with a finite number. An infinity stays one, and so does what is not a number. -/
def add (x y : Double) : Double :=
  if x.expo = 2047 then x
  else ofRatio (x.scaled + y.scaled < 0) (x.scaled + y.scaled).natAbs (2^1075)

/-- The product with a finite and positive number. -/
def mul (x y : Double) : Double :=
  if x.expo = 2047 then x
  else ofRatio (x.scaled < 0) (x.scaled.natAbs * y.scaled.natAbs) (2^2150)

/-- The quotient of a finite number by a finite and positive one. -/
def div (x y : Double) : Double := ofRatio (x.scaled < 0) x.scaled.natAbs y.scaled.natAbs

/-- The quotient of an integer of 64 bits by a number from 1 on. -/
theorem expo_div_ofLong {n : ℤ} (hn : n.natAbs < 2^64) {y : Double} {e : ℕ} (he : 1075 ≤ e)
    (hy : 2^e ≤ y.scaled.natAbs) : ((ofLong n).div y).expo ≤ 1088 := by
  have hexpo : (ofLong n).expo ≤ 1023 + 64 :=
    expo_ofRatio_le _ ((Nat.one_mul _).symm ▸ hn) (by decide)
  have hlt : (ofLong n).scaled.natAbs < y.scaled.natAbs * 2^65 :=
    calc (ofLong n).scaled.natAbs
      _ < 2^(53 + max (ofLong n).expo 1) := natAbs_scaled_lt _
      _ ≤ 2^(e + 65) := Nat.pow_le_pow_right (by decide) (by omega)
      _ = 2^e * 2^65 := pow_add 2 e 65
      _ ≤ y.scaled.natAbs * 2^65 := Nat.mul_le_mul_right _ hy
  exact expo_ofRatio_le _ hlt (by decide)

end Double

/-! ## Texts -/

namespace Numerals

/-- A sign, and what is behind it. -/
def sign : List UInt8 → Bool × List UInt8
  | 45 :: s => (true, s)
  | 43 :: s => (false, s)
  | s => (false, s)

/-- The sign of a number behind white space, and what is behind it in small letters. -/
def signed (s : List UInt8) : Bool × List UInt8 :=
  let r := sign (s.dropWhile fun b => b = 32 ∨ 9 ≤ b ∧ b ≤ 13)
  (r.1, r.2.map fun b => if 65 ≤ b ∧ b ≤ 90 then b + 32 else b)

/-- The value of a digit. Small letters go on behind 9. -/
def digitValue (b : UInt8) : ℕ := if b ≤ 57 then b.toNat - 48 else b.toNat - 87

/-- Is it a digit in this base? -/
def isDigit (base : ℕ) (b : UInt8) : Bool :=
  ((48 ≤ b && b ≤ 57) || (97 ≤ b && b ≤ 122)) && digitValue b < base

/-- The value of digits. -/
def valueOf (base : ℕ) (digits : List UInt8) : ℕ :=
  digits.foldl (fun n b => base * n + digitValue b) 0

/-- Digits with at most one point among them: the digits, how many are behind the point, and what is
behind all. -/
def mantissa (base : ℕ) (s : List UInt8) : List UInt8 × ℕ × List UInt8 :=
  let whole := s.takeWhile (isDigit base)
  match s.dropWhile (isDigit base) with
  | 46 :: t =>
    let part := t.takeWhile (isDigit base)
    (whole ++ part, part.length, t.dropWhile (isDigit base))
  | t => (whole, 0, t)

/-- An exponent behind its letter, or zero. -/
def exponent (letter : UInt8) : List UInt8 → ℤ
  | [] => 0
  | b :: s =>
    let r := sign s
    let n := valueOf 10 (r.2.takeWhile (isDigit 10))
    if b ≠ letter then 0 else if r.1 then -n else n

/-- The double nearest to `m * base^e`. -/
def power (neg : Bool) (m base : ℕ) (e : ℤ) : Double :=
  .ofRatio neg (m * base^e.toNat) (base^(-e).toNat)

/-- `atof`: infinities, what is not a number, hexadecimal numbers with an exponent of two, decimal
ones with an exponent of ten, and zero where there is none of these. -/
def atof (s : List UInt8) : Double :=
  let r := signed s
  if (literal "inf").isPrefixOf r.2 then .pack r.1 2047 0
  else if (literal "nan").isPrefixOf r.2 then .pack r.1 2047 (2^51)
  else
    match r.2 with
    | 48 :: 120 :: t =>
      let m := mantissa 16 t
      power r.1 (valueOf 16 m.1) 2 (exponent 112 m.2.2 - 4 * m.2.1)
    | t =>
      let m := mantissa 10 t
      power r.1 (valueOf 10 m.1) 10 (exponent 101 m.2.2 - m.2.1)

/-- `strtol` with the base 0, into 64 bits. -/
def strtol (s : List UInt8) : ℤ :=
  let r := signed s
  let n := match r.2 with
    | 48 :: 120 :: t => valueOf 16 (t.takeWhile (isDigit 16))
    | 48 :: t => valueOf 8 (t.takeWhile (isDigit 8))
    | t => valueOf 10 (t.takeWhile (isDigit 10))
  if r.1 then max (-2^63) (-n) else min (2^63 - 1) n

end Numerals

end Catse
