import Catse.Lib.Bytes
import Mathlib.Data.Nat.Bitwise

/-!
# Words of 32 bits

The words that hash functions compute with, their images in bytes, and their rotation, each beside
the shifts and masks that stand for it in C.
-/

namespace Catse

/-- The word whose image in network order these bytes are. -/
def wordBE (bs : List UInt8) : UInt32 := UInt32.ofNat (ofBE bs)

/-- The word that these bytes are in the memory of a little-endian machine. -/
def wordLE (bs : List UInt8) : UInt32 := UInt32.ofNat (ofLE bs)

/-- A word turned to the left by `n` bits. -/
def rotl (n : ℕ) (w : UInt32) : UInt32 := ⟨w.toBitVec.rotateLeft n⟩

/-- Four bytes of which each is shifted to its place. -/
theorem wordBE_shifts (b₀ b₁ b₂ b₃ : UInt8) :
    (b₀.toUInt32 <<< 24 ||| b₁.toUInt32 <<< 16) ||| b₂.toUInt32 <<< 8 ||| b₃.toUInt32 =
      wordBE [b₀, b₁, b₂, b₃] := by
  have h₀ := b₀.toNat_lt
  have h₁ := b₁.toNat_lt
  have h₂ := b₂.toNat_lt
  have h₃ := b₃.toNat_lt
  have hshift : ∀ (b : UInt8) (k : ℕ), k ≤ 24 → b.toNat <<< k % 2^32 = b.toNat <<< k := by
    intro b k hk
    have hpow : 2^k ≤ 2^24 := Nat.pow_le_pow_right (by decide) hk
    have hb := b.toNat_lt
    apply Nat.mod_eq_of_lt
    rw [Nat.shiftLeft_eq]
    calc b.toNat * 2^k ≤ b.toNat * 2^24 := Nat.mul_le_mul_left _ hpow
      _ < 2^32 := by omega
  have e₀ : (b₀.toUInt32 <<< 24).toNat = b₀.toNat <<< 24 := by
    rw [UInt32.toNat_shiftLeft, UInt8.toNat_toUInt32]
    exact hshift b₀ 24 le_rfl
  have e₁ : (b₁.toUInt32 <<< 16).toNat = b₁.toNat <<< 16 := by
    rw [UInt32.toNat_shiftLeft, UInt8.toNat_toUInt32]
    exact hshift b₁ 16 (by decide)
  have e₂ : (b₂.toUInt32 <<< 8).toNat = b₂.toNat <<< 8 := by
    rw [UInt32.toNat_shiftLeft, UInt8.toNat_toUInt32]
    exact hshift b₂ 8 (by decide)
  apply UInt32.toNat_inj.mp
  rw [UInt32.toNat_or, UInt32.toNat_or, UInt32.toNat_or, e₀, e₁, e₂, UInt8.toNat_toUInt32,
    Nat.or_assoc, Nat.or_assoc]
  -- Each byte is below the place of the next, so the ors are sums.
  rw [← Nat.shiftLeft_add_eq_or_of_lt h₃]
  have hlow : b₂.toNat <<< 8 + b₃.toNat < 2^16 := by
    rw [Nat.shiftLeft_eq]
    omega
  rw [← Nat.shiftLeft_add_eq_or_of_lt hlow]
  have hmid : b₁.toNat <<< 16 + (b₂.toNat <<< 8 + b₃.toNat) < 2^24 := by
    rw [Nat.shiftLeft_eq, Nat.shiftLeft_eq]
    omega
  rw [← Nat.shiftLeft_add_eq_or_of_lt hmid, wordBE, UInt32.toNat_ofNat']
  simp only [ofBE, List.reverse_cons, List.reverse_nil, List.nil_append, List.cons_append, ofLE,
    Nat.shiftLeft_eq]
  omega

/-- The bytes of a word from the highest on, each shifted out and masked. -/
theorem beBytes_shifts (w : UInt32) :
    [((w >>> 24) &&& 0xFF).toUInt8, ((w >>> 16) &&& 0xFF).toUInt8, ((w >>> 8) &&& 0xFF).toUInt8,
      (w &&& 0xFF).toUInt8] = beBytes 4 w.toNat := by
  have hmask : ∀ x : UInt32, (x &&& 0xFF).toUInt8 = UInt8.ofNat x.toNat := by
    intro x
    apply UInt8.toNat_inj.mp
    rw [UInt32.toNat_toUInt8, UInt32.toNat_and, UInt8.toNat_ofNat',
      show UInt32.toNat 0xFF = 2^8 - 1 from rfl, Nat.and_two_pow_sub_one_eq_mod, Nat.mod_mod]
  have h₁ : (w >>> 8).toNat = w.toNat / 2^8 := by
    rw [UInt32.toNat_shiftRight, ← Nat.shiftRight_eq_div_pow]
    rfl
  have h₂ : (w >>> 16).toNat = w.toNat / 2^8 / 2^8 := by
    rw [UInt32.toNat_shiftRight, Nat.div_div_eq_div_mul, ← pow_add, ← Nat.shiftRight_eq_div_pow]
    rfl
  have h₃ : (w >>> 24).toNat = w.toNat / 2^8 / 2^8 / 2^8 := by
    rw [UInt32.toNat_shiftRight, Nat.div_div_eq_div_mul, Nat.div_div_eq_div_mul, ← pow_add,
      ← pow_add, ← Nat.shiftRight_eq_div_pow]
    rfl
  rw [hmask, hmask, hmask, hmask, h₁, h₂, h₃]
  rfl

/-- A rotation as two shifts. -/
theorem rotl_eq {n : ℕ} (w : UInt32) (hn : 0 < n ∧ n < 32) :
    rotl n w = (w <<< UInt32.ofNat n) ||| (w >>> UInt32.ofNat (32 - n)) := by
  have hshift : ∀ k < 32, (UInt32.ofNat k).toBitVec % 32 = BitVec.ofNat 32 k := by
    intro k hk
    apply BitVec.eq_of_toNat_eq
    rw [BitVec.toNat_umod, UInt32.toNat_toBitVec, UInt32.toNat_ofNat', BitVec.toNat_ofNat,
      show BitVec.toNat (32 : BitVec 32) = 32 from rfl]
    omega
  have hnat : ∀ k < 32, (BitVec.ofNat 32 k).toNat = k := by
    intro k hk
    rw [BitVec.toNat_ofNat]
    omega
  apply UInt32.toBitVec_inj.mp
  rw [UInt32.toBitVec_or, UInt32.toBitVec_shiftLeft, UInt32.toBitVec_shiftRight,
    hshift n hn.2, hshift (32 - n) (by omega)]
  show w.toBitVec.rotateLeft n = _
  rw [BitVec.rotateLeft_def, Nat.mod_eq_of_lt hn.2, BitVec.shiftLeft_eq', BitVec.ushiftRight_eq',
    hnat n hn.2, hnat (32 - n) (by omega)]

end Catse
