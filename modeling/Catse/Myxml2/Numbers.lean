import Catse.Lib.Atof
import Catse.Myxml2.Share

/-!
# Numbers in the output

How `fillRow` writes a cell of the type `number`: as a number with at most four digits behind the
point, and without zeros at its end. `Context.ofIntern` has this for its numbers.
-/

namespace Catse.Myxml2

open Printf Numerals

/-- The factor of `fillRow`. -/
def scale : Double := .ofLong 10000

/-- `1e-8`, which is added to the magnitude before the digits behind the fourth one are cut off. -/
def margin (neg : Bool) : Double := .ofRatio neg 1 (10^8)

/-- The number of a cell in units of the fourth digit behind the point. -/
def fillUnits (row : List UInt8) : ℤ :=
  let d := atof row
  -- What is a zero for `atof` need not be one for `strtol`, which does not know exponents.
  let d := if d.IsZero then .ofLong (strtol row) else d
  ((d.add (margin (¬d.IsPositive))).mul scale).cvttsd2si 64

/-- How many digits behind the point are written. -/
def fillDigits (ll : ℤ) : ℕ :=
  if ll.tmod 10000 = 0 then 0
  else if ll.tmod 1000 = 0 then 1
  else if ll.tmod 100 = 0 then 2
  else if ll.tmod 10 = 0 then 3
  else 4

/-- The branch of `fillRow` for the type `number`. -/
def fillNumber (row : List UInt8) : List UInt8 :=
  let ll := fillUnits row
  fixed (fillDigits ll) ((Double.ofLong ll).div scale)

example : ["5", "-3.250", "1.99999999", "1e-400", "x"].map (fun s => fillNumber (bytes s)) =
    ["5", "-3.25", "2", "1", "0"].map bytes := by
  decide +kernel

theorem le_scale : 2^1075 ≤ scale.scaled.natAbs := by decide +kernel

/-- A cell cannot make the number that is written an infinity, nor a large one. -/
theorem expo_fillNumber (row : List UInt8) :
    ((Double.ofLong (fillUnits row)).div scale).expo ≤ 1088 := by
  have hrange : -2^63 ≤ fillUnits row ∧ fillUnits row < 2^63 := Double.cvttsd2si_range 64 _
  exact Double.expo_div_ofLong (by omega) le_rfl le_scale

theorem fillNumber_first (row : List UInt8) :
    ∃ c t, fillNumber row = c :: t ∧ (c = 45 ∨ 48 ≤ c ∧ c ≤ 57) := by
  have hexpo := expo_fillNumber row
  exact fixed_first _ (by omega)

theorem fillDigits_le (ll : ℤ) : fillDigits ll ≤ 4 := by
  unfold fillDigits
  split_ifs <;> decide

/-- A number with its NUL fits into the 64 bytes that `fillRow` asks for. -/
theorem length_fillNumber_lt (row : List UInt8) : (fillNumber row).length < 64 := by
  have hexpo := expo_fillNumber row
  have hdigits := fillDigits_le (fillUnits row)
  have hm : 2^66 * 10^fillDigits (fillUnits row) < 10^(24 + 1) :=
    calc 2^66 * 10^fillDigits (fillUnits row)
      _ ≤ 2^66 * 10^4 := Nat.mul_le_mul_left _ (Nat.pow_le_pow_right (by decide) hdigits)
      _ < 10^(24 + 1) := by decide
  have hlength : (fillNumber row).length ≤ 24 + fillDigits (fillUnits row) + 3 :=
    length_fixed_le rfl (by omega) (by omega) hm
  omega

/-- The surroundings of the output of `main`, with the strings of a table. -/
def Context.ofIntern (a : Addresses) (s : Intern) : Context where
  toAddresses := a
  text := s.textOf
  number := fillNumber
  number_first := fillNumber_first

end Catse.Myxml2
