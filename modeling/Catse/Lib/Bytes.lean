import Mathlib.Data.Int.ModEq
import Mathlib.Tactic.Ring
import Mathlib.Tactic.NormNum
import Mathlib.Tactic.Common

/-!
# Fixed-width integers and their byte images

A little-endian machine stores an unsigned integer of `k` bytes as `leBytes k n`, and `ofLE` reads
it back. Reversing the image is what `htons`, `htonl` and their inverses do, so `beBytes` and `ofBE`
are the images in network order. The signed types of C are the balanced residues modulo `2^8`,
`2^16` and `2^32`, to which every assignment reduces (`toChar`, `toShort`, `toInt32`).
-/

namespace Catse

/-! ## Signed types -/

/-- Conversion to `char`, which is signed on x86. -/
def toChar (n : ℤ) : ℤ := n.bmod (2^8)

/-- Conversion to `short`. -/
def toShort (n : ℤ) : ℤ := n.bmod (2^16)

/-- Conversion to `int`. -/
def toInt32 (n : ℤ) : ℤ := n.bmod (2^32)

theorem toChar_of_range {n : ℤ} (h : -2^7 ≤ n ∧ n < 2^7) : toChar n = n :=
  Int.bmod_eq_of_le (by omega) (by omega)

theorem toShort_of_range {n : ℤ} (h : -2^15 ≤ n ∧ n < 2^15) : toShort n = n :=
  Int.bmod_eq_of_le (by omega) (by omega)

theorem toInt32_of_range {n : ℤ} (h : -2^31 ≤ n ∧ n < 2^31) : toInt32 n = n :=
  Int.bmod_eq_of_le (by omega) (by omega)

theorem toChar_range (n : ℤ) : -2^7 ≤ toChar n ∧ toChar n < 2^7 := by
  have h1 : -(((2^8 : ℕ) : ℤ) / 2) ≤ toChar n := Int.le_bmod (by norm_num)
  have h2 : toChar n < (((2^8 : ℕ) : ℤ) + 1) / 2 := Int.bmod_lt (by norm_num)
  omega

theorem toShort_range (n : ℤ) : -2^15 ≤ toShort n ∧ toShort n < 2^15 := by
  have h1 : -(((2^16 : ℕ) : ℤ) / 2) ≤ toShort n := Int.le_bmod (by norm_num)
  have h2 : toShort n < (((2^16 : ℕ) : ℤ) + 1) / 2 := Int.bmod_lt (by norm_num)
  omega

theorem toInt32_range (n : ℤ) : -2^31 ≤ toInt32 n ∧ toInt32 n < 2^31 := by
  have h1 : -(((2^32 : ℕ) : ℤ) / 2) ≤ toInt32 n := Int.le_bmod (by norm_num)
  have h2 : toInt32 n < (((2^32 : ℕ) : ℤ) + 1) / 2 := Int.bmod_lt (by norm_num)
  omega

/-- The test `sizeof(buf) < n` of an `int` `n` against an unsigned 64-bit size: a negative `n`
converts to a huge number. -/
def sizeLt (size : ℕ) (n : ℤ) : Bool := decide ((size : ℤ) < n % 2^64)

theorem sizeLt_of_nonneg {size : ℕ} {n : ℤ} (h0 : 0 ≤ n) (h : n < 2^64) :
    sizeLt size n = decide ((size : ℤ) < n) := by
  unfold sizeLt
  rw [Int.emod_eq_of_lt h0 h]

/-- The test `size <= n` of an `int` `n` against an unsigned 64-bit size. -/
def sizeLe (size : ℕ) (n : ℤ) : Bool := decide ((size : ℤ) ≤ n % 2^64)

/-- A sum of an `int` and a length that overflows `int` still tests as larger than a small size. -/
theorem sizeLt_toInt32 {size : ℕ} {n : ℤ} (hs : size < 2^31) (h0 : 0 ≤ n) (h : n < 2^32) :
    sizeLt size (toInt32 n) = decide ((size : ℤ) < n) := by
  unfold sizeLt toInt32
  rcases lt_or_ge n (2^31) with hlt | hge
  · rw [Int.bmod_eq_of_le (by omega) (by omega), Int.emod_eq_of_lt h0 (by omega)]
  · have hwrap : n.bmod (2^32) = n - 2^32 := by
      have hmod : n % ((2^32 : ℕ) : ℤ) = n := Int.emod_eq_of_lt h0 (by omega)
      rw [Int.bmod_def, hmod, if_neg (by omega)]
      norm_num
    have hmod : (n - 2^32) % 2^64 = n - 2^32 + 2^64 := by omega
    rw [hwrap, hmod, decide_eq_true (by omega), decide_eq_true (by omega)]

/-! ## Byte images -/

/-- The `k` bytes of `n` modulo `2^(8k)`, least significant first. -/
def leBytes : ℕ → ℕ → List UInt8
  | 0, _ => []
  | k + 1, n => UInt8.ofNat n :: leBytes k (n / 2^8)

/-- The number whose bytes these are, least significant first. -/
def ofLE : List UInt8 → ℕ
  | [] => 0
  | b :: bs => b.toNat + 2^8 * ofLE bs

@[simp] theorem length_leBytes (k n : ℕ) : (leBytes k n).length = k := by
  induction k generalizing n with
  | zero => rfl
  | succ k ih => rw [leBytes, List.length_cons, ih]

/-- Each byte by itself. -/
theorem leBytes_eq_map (k n : ℕ) :
    leBytes k n = (List.range k).map fun i => UInt8.ofNat (n / 2^(8 * i)) := by
  induction k generalizing n with
  | zero => rfl
  | succ k ih =>
    rw [leBytes, ih, List.range_succ_eq_map, List.map_cons, List.map_map, Nat.mul_zero, pow_zero,
      Nat.div_one]
    congr 1
    refine List.map_congr_left fun i _ => ?_
    rw [Function.comp_apply, Nat.div_div_eq_div_mul, ← pow_add, Nat.mul_succ, Nat.add_comm]

/-- Reading an image back gives the number modulo `2^(8k)`. -/
theorem ofLE_leBytes (k n : ℕ) : ofLE (leBytes k n) = n % 2^(8 * k) := by
  induction k generalizing n with
  | zero => simp [leBytes, ofLE, Nat.mod_one]
  | succ k ih =>
    rw [leBytes, ofLE, ih, UInt8.toNat_ofNat']
    rw [show 8 * (k + 1) = 8 + 8 * k by ring, pow_add, Nat.mod_mul]

theorem ofLE_lt (bs : List UInt8) : ofLE bs < 2^(8 * bs.length) := by
  induction bs with
  | nil => simp [ofLE]
  | cons b bs ih =>
    rw [ofLE, List.length_cons, show 8 * (bs.length + 1) = 8 + 8 * bs.length by ring, pow_add]
    have hb := b.toNat_lt
    have : 2^8 * (ofLE bs + 1) ≤ 2^8 * 2^(8 * bs.length) := Nat.mul_le_mul_left _ ih
    omega

/-- Every list of bytes is the image of the number that it reads as. -/
theorem leBytes_ofLE (bs : List UInt8) : leBytes bs.length (ofLE bs) = bs := by
  induction bs with
  | nil => rfl
  | cons b bs ih =>
    have hb := b.toNat_lt
    rw [List.length_cons, leBytes, ofLE]
    congr 1
    · apply UInt8.toNat_inj.mp
      rw [UInt8.toNat_ofNat']
      omega
    · rw [show (b.toNat + 2^8 * ofLE bs) / 2^8 = ofLE bs by omega]
      exact ih

/-- Only the low-order bits count. -/
theorem leBytes_mod (k n : ℕ) : leBytes k (n % 2^(8 * k)) = leBytes k n := by
  have hback := leBytes_ofLE (leBytes k n)
  rwa [length_leBytes, ofLE_leBytes] at hback

/-- The image in network order. -/
def beBytes (k n : ℕ) : List UInt8 := (leBytes k n).reverse

/-- The number whose image in network order these bytes are. -/
def ofBE (bs : List UInt8) : ℕ := ofLE bs.reverse

@[simp] theorem length_beBytes (k n : ℕ) : (beBytes k n).length = k := by
  simp [beBytes]

theorem ofBE_beBytes (k n : ℕ) : ofBE (beBytes k n) = n % 2^(8 * k) := by
  rw [ofBE, beBytes, List.reverse_reverse, ofLE_leBytes]

theorem ofBE_lt (bs : List UInt8) : ofBE bs < 2^(8 * bs.length) := by
  have := ofLE_lt bs.reverse
  rwa [List.length_reverse] at this

theorem beBytes_ofBE (bs : List UInt8) : beBytes bs.length (ofBE bs) = bs := by
  rw [beBytes, ofBE, ← List.length_reverse, leBytes_ofLE, List.reverse_reverse]

/-- The lower bytes of an image and the higher ones. -/
theorem leBytes_add (j k n : ℕ) : leBytes (j + k) n = leBytes j n ++ leBytes k (n / 2^(8 * j)) := by
  induction j generalizing n with
  | zero => simp [leBytes]
  | succ j ih =>
    have hdiv : n / 2^8 / 2^(8 * j) = n / 2^(8 * (j + 1)) := by
      rw [Nat.div_div_eq_div_mul, ← pow_add]
      congr 2
      ring
    rw [show j + 1 + k = j + k + 1 by ring, leBytes, leBytes, ih, hdiv, List.cons_append]

/-- In network order the higher bytes come first. -/
theorem beBytes_add (j k n : ℕ) : beBytes (j + k) n = beBytes k (n / 2^(8 * j)) ++ beBytes j n := by
  rw [beBytes, beBytes, beBytes, leBytes_add, List.reverse_append]

/-- The image in network order of a signed integer of `k` bytes. -/
def beInt (k : ℕ) (n : ℤ) : List UInt8 := beBytes k (n % 2^(8 * k)).toNat

@[simp] theorem length_beInt (k : ℕ) (n : ℤ) : (beInt k n).length = k := by
  simp [beInt]

/-- A signed integer read back from its image, up to the residue. -/
theorem ofBE_beInt (k : ℕ) (n : ℤ) : (ofBE (beInt k n) : ℤ) = n % 2^(8 * k) := by
  have hpos : (0 : ℤ) < 2^(8 * k) := by positivity
  have hnn := Int.emod_nonneg n hpos.ne'
  rw [beInt, ofBE_beBytes]
  push_cast
  rw [Int.toNat_of_nonneg hnn, Int.emod_emod_of_dvd _ dvd_rfl]

theorem toChar_ofBE_beInt (n : ℤ) : toChar (ofBE (beInt 1 n)) = toChar n := by
  rw [ofBE_beInt, toChar, toChar]
  exact Int.emod_bmod ..

theorem toShort_ofBE_beInt (n : ℤ) : toShort (ofBE (beInt 2 n)) = toShort n := by
  rw [ofBE_beInt, toShort, toShort]
  exact Int.emod_bmod ..

theorem toInt32_ofBE_beInt (n : ℤ) : toInt32 (ofBE (beInt 4 n)) = toInt32 n := by
  rw [ofBE_beInt, toInt32, toInt32]
  exact Int.emod_bmod ..

/-- An integer that was taken modulo `2^32` is still the same `int`. -/
theorem toInt32_emod (n : ℤ) : toInt32 (n % 2^32) = toInt32 n := by
  rw [toInt32, toInt32]
  exact Int.emod_bmod ..

/-- Two bytes are the image of the `short` that they read as. -/
theorem beInt_toShort_ofBE {bs : List UInt8} (h : bs.length = 2) :
    beInt 2 (toShort (ofBE bs)) = bs := by
  have hlt := ofBE_lt bs
  rw [h] at hlt
  have hmod : toShort (ofBE bs) % 2^(8 * 2) = ofBE bs := by
    rw [toShort]
    refine (Int.bmod_emod ..).trans (Int.emod_eq_of_lt (by omega) ?_)
    exact_mod_cast hlt
  rw [beInt, hmod, Int.toNat_natCast]
  conv_rhs => rw [← beBytes_ofBE bs, h]

/-! ## Copies into a buffer -/

/-- `memcpy(buf + off, bs, sizeof(bs))`. -/
def overwrite (buf : List UInt8) (off : ℕ) (bs : List UInt8) : List UInt8 :=
  buf.take off ++ bs ++ buf.drop (off + bs.length)

theorem length_overwrite {buf bs : List UInt8} {off : ℕ} (h : off + bs.length ≤ buf.length) :
    (overwrite buf off bs).length = buf.length := by
  simp only [overwrite, List.length_append, List.length_take, List.length_drop]
  omega

/-- A copy that starts where the written part ends extends it. -/
theorem take_overwrite {buf bs : List UInt8} {off : ℕ} (h : off + bs.length ≤ buf.length) :
    (overwrite buf off bs).take (off + bs.length) = buf.take off ++ bs := by
  have hlen : (buf.take off ++ bs).length = off + bs.length := by
    rw [List.length_append, List.length_take, min_eq_left (by omega)]
  rw [overwrite, ← hlen, List.take_left']
  rfl

end Catse
