import Catse.Lib.Bytes

/-!
# Bits of a byte string

The bits of a byte string are numbered from the least significant bit of its first byte. `bitAt` is
one of them, and `field` the number in `k` of them, least significant first, as DEFLATE and other
formats pack their fields. Both are read off the number that the whole string is as an integer.
-/

namespace Catse

/-- Bit `i` of a byte string. -/
def bitAt (src : List UInt8) (i : ℕ) : Bool := (src.getD (i / 8) 0).toNat.testBit (i % 8)

/-- The number in the `k` bits from bit `p` on. -/
def field (src : List UInt8) (p k : ℕ) : ℕ := ofLE src / 2^p % 2^k

theorem field_lt (src : List UInt8) (p k : ℕ) : field src p k < 2^k :=
  Nat.mod_lt _ (Nat.two_pow_pos k)

@[simp] theorem field_zero (src : List UInt8) (p : ℕ) : field src p 0 = 0 := Nat.mod_one _

/-- A field in two parts. -/
theorem field_add (src : List UInt8) (p j k : ℕ) :
    field src p (j + k) = field src p j + 2^j * field src (p + j) k := by
  rw [field, field, field, pow_add 2 j k, Nat.mod_mul, pow_add 2 p j, Nat.div_div_eq_div_mul]

/-- Part of a field. -/
theorem field_shift (src : List UInt8) (p : ℕ) {i j k : ℕ} (h : i + j ≤ k) :
    field src p k / 2^i % 2^j = field src (p + i) j := by
  obtain ⟨l, rfl⟩ := Nat.exists_eq_add_of_le h
  rw [add_assoc, field_add src p i, Nat.add_mul_div_left _ _ (Nat.two_pow_pos i),
    Nat.div_eq_of_lt (field_lt src p i), zero_add, field_add, Nat.add_mul_mod_self_left,
    Nat.mod_eq_of_lt (field_lt _ _ _)]

/-- A byte is a field of eight bits. -/
theorem field_byte (src : List UInt8) (j : ℕ) : field src (8 * j) 8 = (src.getD j 0).toNat := by
  induction src generalizing j with
  | nil => simp [field, ofLE]
  | cons b src ih =>
    have hb := b.toNat_lt
    cases j with
    | zero =>
      rw [field, ofLE, Nat.mul_zero, pow_zero, Nat.div_one, List.getD_cons_zero]
      omega
    | succ j =>
      have hpow : 2^(8 * (j + 1)) = 2^8 * 2^(8 * j) := by rw [← pow_add, mul_add, add_comm]
      have hrest : (b.toNat + 2^8 * ofLE src) / 2^8 = ofLE src := by omega
      rw [List.getD_cons_succ, ← ih, field, field, ofLE, hpow, ← Nat.div_div_eq_div_mul, hrest]

/-- Bits of one byte. -/
theorem byte_shift (src : List UInt8) (j : ℕ) {i k : ℕ} (h : i + k ≤ 8) :
    (src.getD j 0).toNat / 2^i % 2^k = field src (8 * j + i) k := by
  rw [← field_byte, field_shift src (8 * j) h]

/-- A field of one bit. -/
theorem field_one (src : List UInt8) (p : ℕ) : field src p 1 = (bitAt src p).toNat := by
  have hbyte := byte_shift src (p / 8) (i := p % 8) (k := 1) (by omega)
  rw [Nat.div_add_mod p 8] at hbyte
  rw [← hbyte, bitAt, Nat.toNat_testBit, pow_one]

end Catse
