import Mathlib.Algebra.Group.Nat.Defs
import Mathlib.Data.List.Basic
import Mathlib.Tactic.Common

/-!
# Base64

The encoding of RFC 4648. Three bytes are a number of 24 bits, which has four digits to the base 64.
One or two bytes at the end get zero bits up to a multiple of six, and a `=` stands for each digit
that then lacks from four. `sextets` are the digits and `octets` the bytes that they carry.
-/

namespace Catse.Base64

/-- The digits of a byte string. -/
def sextets : List UInt8 → List ℕ
  | [] => []
  | [a] =>
    let n := a.toNat * 2^4
    [n / 2^6, n % 2^6]
  | [a, b] =>
    let n := (a.toNat * 2^8 + b.toNat) * 2^2
    [n / 2^12, n / 2^6 % 2^6, n % 2^6]
  | a :: b :: c :: bs =>
    let n := a.toNat * 2^16 + b.toNat * 2^8 + c.toNat
    n / 2^18 :: n / 2^12 % 2^6 :: n / 2^6 % 2^6 :: n % 2^6 :: sextets bs

/-- The bytes that digits carry. Bits at the end that make no byte are dropped. -/
def octets : List ℕ → List UInt8
  | a :: b :: c :: d :: ds =>
    let n := a * 2^18 + b * 2^12 + c * 2^6 + d
    UInt8.ofNat (n / 2^16) :: UInt8.ofNat (n / 2^8) :: UInt8.ofNat n :: octets ds
  | [a, b, c] =>
    let n := a * 2^12 + b * 2^6 + c
    [UInt8.ofNat (n / 2^10), UInt8.ofNat (n / 2^2)]
  | [a, b] => [UInt8.ofNat ((a * 2^6 + b) / 2^4)]
  | _ => []

/-- The digits carry what they were made from. -/
theorem octets_sextets (m : List UInt8) : octets (sextets m) = m := by
  have hbyte : ∀ (a : UInt8) (n : ℕ), n % 2^8 = a.toNat → UInt8.ofNat n = a := by
    intro a n h
    apply UInt8.toNat_inj.mp
    rw [UInt8.toNat_ofNat', h]
  fun_induction sextets m with
  | case1 => rfl
  | case2 a n =>
    have ha := a.toNat_lt
    rw [octets, hbyte a _ (by omega)]
  | case3 a b n =>
    have ha := a.toNat_lt
    have hb := b.toNat_lt
    rw [octets, hbyte a _ (by omega), hbyte b _ (by omega)]
  | case4 a b c bs n ih =>
    have ha := a.toNat_lt
    have hb := b.toNat_lt
    have hc := c.toNat_lt
    rw [octets, hbyte a _ (by omega), hbyte b _ (by omega), hbyte c _ (by omega), ih]

/-- Each digit is below 64. -/
theorem sextets_lt {m : List UInt8} : ∀ d ∈ sextets m, d < 2^6 := by
  fun_induction sextets m with
  | case1 => simp
  | case2 a n =>
    have ha := a.toNat_lt
    simp only [List.mem_cons, List.not_mem_nil, or_false, forall_eq_or_imp, forall_eq]
    omega
  | case3 a b n =>
    have ha := a.toNat_lt
    have hb := b.toNat_lt
    simp only [List.mem_cons, List.not_mem_nil, or_false, forall_eq_or_imp, forall_eq]
    omega
  | case4 a b c bs n ih =>
    have ha := a.toNat_lt
    have hb := b.toNat_lt
    have hc := c.toNat_lt
    simp only [List.mem_cons, forall_eq_or_imp]
    exact ⟨by omega, by omega, by omega, by omega, ih⟩

theorem length_sextets (m : List UInt8) : (sextets m).length = (m.length * 8 + 5) / 6 := by
  fun_induction sextets m with
  | case1 | case2 | case3 => simp
  | case4 a b c bs n ih =>
    simp only [List.length_cons, ih]
    omega

/-- The encoding in an alphabet. -/
def encode (alphabet : List UInt8) (m : List UInt8) : List UInt8 :=
  (sextets m).map (alphabet.getD · 0) ++ List.replicate ((3 - m.length % 3) % 3) 61

/-- Four characters stand for each three bytes. -/
theorem length_encode (alphabet m : List UInt8) :
    (encode alphabet m).length = 4 * ((m.length + 2) / 3) := by
  rw [encode, List.length_append, List.length_map, List.length_replicate, length_sextets]
  omega

end Catse.Base64
