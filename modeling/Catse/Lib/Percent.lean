import Mathlib.Data.List.Basic
import Mathlib.Tactic.SplitIfs
import Mathlib.Tactic.Common

/-!
# Percent-encoding

A byte that is not plain is written as `%` and two hexadecimal digits. As long as `%` itself is not
plain, an encoded text is a sequence of plain bytes and such triples, and decoding it gives the
bytes back.
-/

namespace Catse

namespace Percent

/-- A digit of `%X`. -/
def hexDigit (d : UInt8) : UInt8 := if d < 10 then 48 + d else 55 + d

/-- The value of a digit of `%X`. -/
def hexValue (c : UInt8) : UInt8 := if c < 58 then c - 48 else c - 55

/-- A digit of `%X`. -/
def IsHexDigit (c : UInt8) : Prop := ∃ d < 16, c = hexDigit d

/-- `%%%02X`. -/
def triple (t : UInt8) : List UInt8 := [37, hexDigit (t / 16), hexDigit (t % 16)]

/-- What a byte is written as. -/
def encodeByte (plain : UInt8 → Bool) (t : UInt8) : List UInt8 := if plain t then [t] else triple t

/-- What a text is written as. -/
def encode (plain : UInt8 → Bool) (s : List UInt8) : List UInt8 := s.flatMap (encodeByte plain)

/-- The bytes that an encoded text stands for. -/
def decode : List UInt8 → List UInt8
  | [] => []
  | [c] => [c]
  | [c, d] => [c, d]
  | c :: a :: b :: s =>
    if c = 37 then (16 * hexValue a + hexValue b) :: decode s else c :: decode (a :: b :: s)

/-- A sequence of plain bytes and triples. -/
inductive IsEncoded (plain : UInt8 → Bool) : List UInt8 → Prop where
  | nil : IsEncoded plain []
  | plain {c : UInt8} {s : List UInt8} (hc : plain c = true) (hs : IsEncoded plain s) :
      IsEncoded plain (c :: s)
  | triple {a b : UInt8} {s : List UInt8} (ha : IsHexDigit a) (hb : IsHexDigit b)
      (hs : IsEncoded plain s) : IsEncoded plain (37 :: a :: b :: s)

/-- The two digits of a byte, which are digits and give it back. -/
theorem halves (t : UInt8) :
    t / 16 < 16 ∧ t % 16 < 16 ∧
      16 * hexValue (hexDigit (t / 16)) + hexValue (hexDigit (t % 16)) = t := by
  have hbytes : ∀ n < 256, UInt8.ofNat n / 16 < 16 ∧ UInt8.ofNat n % 16 < 16 ∧
      16 * hexValue (hexDigit (UInt8.ofNat n / 16)) + hexValue (hexDigit (UInt8.ofNat n % 16)) =
        UInt8.ofNat n := by decide +kernel
  have ht := hbytes t.toNat t.toNat_lt
  rwa [UInt8.ofNat_toNat] at ht

/-- An encoded text consists of plain bytes and triples. -/
theorem isEncoded_encode (plain : UInt8 → Bool) (s : List UInt8) :
    IsEncoded plain (encode plain s) := by
  induction s with
  | nil => exact .nil
  | cons t s ih =>
    obtain ⟨hhigh, hlow, -⟩ := halves t
    rw [encode, List.flatMap_cons, encodeByte]
    split_ifs with ht
    · exact .plain ht ih
    · exact .triple ⟨t / 16, hhigh, rfl⟩ ⟨t % 16, hlow, rfl⟩ ih

theorem decode_cons {c : UInt8} (hc : c ≠ 37) (s : List UInt8) :
    decode (c :: s) = c :: decode s := by
  rcases s with - | ⟨a, - | ⟨b, s⟩⟩
  · rfl
  · rfl
  · rw [decode, if_neg hc]

/-- Decoding gives the bytes back. -/
theorem decode_encode {plain : UInt8 → Bool} (hplain : plain 37 = false) (s : List UInt8) :
    decode (encode plain s) = s := by
  induction s with
  | nil => rfl
  | cons t s ih =>
    rw [encode] at ih ⊢
    rw [List.flatMap_cons, encodeByte]
    split_ifs with ht
    · have hne : t ≠ 37 := fun h => by rw [h, hplain] at ht; cases ht
      rw [List.singleton_append, decode_cons hne, ih]
    · rw [triple, List.cons_append, List.cons_append, List.cons_append, List.nil_append, decode,
        if_pos rfl, (halves t).2.2, ih]

end Percent

end Catse
