import Catse.Lib.Double

/-!
# Formatted output into a buffer

`snprintf` with a size stores as much of a text as fits with a NUL behind it, and returns the length
of the whole text. The conversions here are `%lld` of an integer and `%.kf` of a double, which has
`k` digits behind the point, rounded half to even from the exact value. There are six in `%lf`, and
without any there is no point.
-/

namespace Catse

namespace Printf

/-- The bytes of a literal, without its NUL. -/
def literal (s : String) : List UInt8 := s.toUTF8.data.toList

/-- The digits of a number. -/
def decimal (n : ℕ) : List UInt8 := (Nat.toDigits 10 n).map fun c => UInt8.ofNat c.toNat

/-- `%lld`. -/
def lld (n : ℤ) : List UInt8 := if n < 0 then 45 :: decimal n.natAbs else decimal n.natAbs

/-- The integer next to `a / b`, the even one of two that are as near. -/
def roundHalfEven (a b : ℕ) : ℕ :=
  if b < 2 * (a % b) ∨ (2 * (a % b) = b ∧ a / b % 2 = 1) then a / b + 1 else a / b

/-- A number below `10^k` with its leading zeros. -/
def padded (k n : ℕ) : List UInt8 := List.replicate (k - (decimal n).length) 48 ++ decimal n

/-- `%.kf` of a magnitude. -/
def fixedMagnitude (k : ℕ) (d : Double) : List UInt8 :=
  if d.expo = 2047 then if d.frac = 0 then [105, 110, 102] else [110, 97, 110]
  else
    let n := roundHalfEven (d.significand * 2^(max d.expo 1) * 10^k) (2^1075)
    if k = 0 then decimal n else decimal (n / 10^k) ++ 46 :: padded k (n % 10^k)

/-- `%.kf`. -/
def fixed (k : ℕ) (d : Double) : List UInt8 :=
  if d.toNat < 2^63 then fixedMagnitude k d else 45 :: fixedMagnitude k d

/-- `%lf`. -/
def lf (d : Double) : List UInt8 := fixed 6 d

/-- What `snprintf` stores of a text into `size` bytes. -/
def snprintf (size : ℕ) (text : List UInt8) : List UInt8 :=
  if size = 0 then [] else text.take (size - 1) ++ [0]

theorem decimal_ne_nil (n : ℕ) : decimal n ≠ [] := by
  rw [decimal, Ne, List.map_eq_nil_iff]
  exact Nat.toDigits_ne_nil

theorem lld_ne_nil (n : ℤ) : lld n ≠ [] := by
  rw [lld]
  split_ifs
  · exact List.cons_ne_nil _ _
  · exact decimal_ne_nil _

theorem fixed_ne_nil (k : ℕ) (d : Double) : fixed k d ≠ [] := by
  have hmag : fixedMagnitude k d ≠ [] := by
    unfold fixedMagnitude
    split_ifs
    · exact List.cons_ne_nil _ _
    · exact List.cons_ne_nil _ _
    · exact decimal_ne_nil _
    · exact List.append_ne_nil_of_right_ne_nil _ (List.cons_ne_nil _ _)
  rw [fixed]
  split_ifs
  · exact hmag
  · exact List.cons_ne_nil _ _

theorem lf_ne_nil (d : Double) : lf d ≠ [] := fixed_ne_nil 6 d

theorem mem_decimal {n : ℕ} {b : UInt8} (h : b ∈ decimal n) : 48 ≤ b ∧ b ≤ 57 := by
  obtain ⟨c, hc, rfl⟩ := List.mem_map.mp h
  have hdigit := Nat.isDigit_of_mem_toDigits (by decide) (by decide) hc
  simp only [Char.isDigit, Bool.and_eq_true, decide_eq_true_eq] at hdigit
  have hlow : 48 ≤ c.toNat := UInt32.le_iff_toNat_le.mp hdigit.1
  have hhigh : c.toNat ≤ 57 := UInt32.le_iff_toNat_le.mp hdigit.2
  rw [UInt8.le_iff_toNat_le, UInt8.le_iff_toNat_le, UInt8.toNat_ofNat', Nat.mod_eq_of_lt (by omega)]
  exact ⟨hlow, hhigh⟩

/-- No digit is a NUL. -/
theorem zero_notMem_decimal (n : ℕ) : 0 ∉ decimal n :=
  fun h => absurd (mem_decimal h).1 (by decide)

theorem zero_notMem_lld (n : ℤ) : 0 ∉ lld n := by
  rw [lld]
  split_ifs
  · exact List.not_mem_cons_of_ne_of_not_mem (by decide) (zero_notMem_decimal _)
  · exact zero_notMem_decimal _

theorem zero_notMem_fixed (k : ℕ) (d : Double) : 0 ∉ fixed k d := by
  have hmag : 0 ∉ fixedMagnitude k d := by
    unfold fixedMagnitude
    split_ifs
    · decide
    · decide
    · exact zero_notMem_decimal _
    · intro h
      rcases List.mem_append.mp h with h | h
      · exact zero_notMem_decimal _ h
      rcases List.mem_cons.mp h with h | h
      · cases h
      rcases List.mem_append.mp h with h | h
      · cases List.eq_of_mem_replicate h
      · exact zero_notMem_decimal _ h
  rw [fixed]
  split_ifs
  · exact hmag
  · exact List.not_mem_cons_of_ne_of_not_mem (by decide) hmag

theorem zero_notMem_lf (d : Double) : 0 ∉ lf d := zero_notMem_fixed 6 d

/-- A finite number begins with a minus sign or a digit. -/
theorem fixed_first (k : ℕ) {d : Double} (h : d.expo ≠ 2047) :
    ∃ c t, fixed k d = c :: t ∧ (c = 45 ∨ 48 ≤ c ∧ c ≤ 57) := by
  have hdecimal (n : ℕ) (rest : List UInt8) :
      ∃ c t, decimal n ++ rest = c :: t ∧ 48 ≤ c ∧ c ≤ 57 := by
    obtain ⟨c, t, hn⟩ := List.exists_cons_of_ne_nil (decimal_ne_nil n)
    exact ⟨c, t ++ rest, by rw [hn, List.cons_append], mem_decimal (hn ▸ List.mem_cons_self)⟩
  rw [fixed]
  split_ifs
  · have hmag : ∃ n rest, fixedMagnitude k d = decimal n ++ rest := by
      rw [fixedMagnitude, if_neg h]
      dsimp only
      split_ifs
      · exact ⟨_, [], (List.append_nil _).symm⟩
      · exact ⟨_, _, rfl⟩
    obtain ⟨n, rest, hrest⟩ := hmag
    obtain ⟨c, t, ht, hc⟩ := hdecimal n rest
    exact ⟨c, t, hrest.trans ht, .inr hc⟩
  · exact ⟨45, _, rfl, .inl rfl⟩

theorem roundHalfEven_le {a b m : ℕ} (h : a < m * b) : roundHalfEven a b ≤ m := by
  have hdiv : a / b < m := Nat.div_lt_of_lt_mul (Nat.mul_comm m b ▸ h)
  rw [roundHalfEven]
  split_ifs <;> omega

theorem length_decimal_le {k n : ℕ} (h : n < 10^(k + 1)) : (decimal n).length ≤ k + 1 := by
  rw [decimal, List.length_map]
  exact (Nat.length_toDigits_le_iff (by decide) k.succ_pos).mpr h

theorem length_padded {k n : ℕ} (h : n < 10^(k + 1)) : (padded (k + 1) n).length = k + 1 := by
  have hlen := length_decimal_le h
  rw [padded, List.length_append, List.length_replicate]
  omega

/-- A number below `2^c`, of which `m + 1` digits are enough. -/
theorem length_fixed_le {k c e m : ℕ} {d : Double} (he : 1075 = e) (hd : max d.expo 1 + 53 ≤ c + e)
    (hfinite : d.expo ≠ 2047) (hm : 2^c * 10^k < 10^(m + 1)) :
    (fixed k d).length ≤ m + k + 3 := by
  have hfrac : d.frac < 2^52 := Nat.mod_lt _ (by decide)
  have hsig : d.significand < 2^53 := by
    rw [Double.significand]
    split_ifs <;> omega
  -- What is rounded, in units of the last digit.
  have hscaled : d.significand * 2^(max d.expo 1) * 10^k < 2^c * 10^k * 2^e :=
    calc d.significand * 2^(max d.expo 1) * 10^k
      _ < 2^53 * 2^(max d.expo 1) * 10^k := by gcongr
      _ ≤ 2^(c + e) * 10^k := by
        rw [← pow_add, Nat.add_comm]
        exact Nat.mul_le_mul_right _ (Nat.pow_le_pow_right (by decide) hd)
      _ = 2^c * 10^k * 2^e := by rw [pow_add, Nat.mul_right_comm]
  have hn := roundHalfEven_le hscaled
  have hmag : (fixedMagnitude k d).length ≤ m + k + 2 := by
    rw [fixedMagnitude, if_neg hfinite, he]
    generalize roundHalfEven _ _ = n at hn
    have hlt : n < 10^(m + 1) := hn.trans_lt hm
    dsimp only
    cases k with
    | zero =>
      have hlen := length_decimal_le hlt
      rw [if_pos rfl]
      omega
    | succ k =>
      have hlen := length_decimal_le ((Nat.div_le_self n (10^(k + 1))).trans_lt hlt)
      have hpad := length_padded (Nat.mod_lt n (Nat.pow_pos (n := k + 1) (by decide : 0 < 10)))
      rw [if_neg k.succ_ne_zero, List.length_append, List.length_cons, hpad]
      omega
  rw [fixed]
  split_ifs
  · omega
  · rw [List.length_cons]
    omega

/-- `-pi`. -/
example : lf 0xC00921FB54442D18 = [45, 51, 46, 49, 52, 49, 53, 57, 51] := by decide +kernel

theorem length_snprintf_le (size : ℕ) (text : List UInt8) : (snprintf size text).length ≤ size := by
  rw [snprintf]
  split_ifs with h
  · exact Nat.zero_le _
  · simp only [List.length_append, List.length_take, List.length_singleton]
    omega

/-- Something of a text is stored where there is room for a byte of it. -/
theorem two_le_length_snprintf {size : ℕ} {text : List UInt8} (h : text ≠ []) (hsize : 2 ≤ size) :
    2 ≤ (snprintf size text).length := by
  have hpos := List.length_pos_iff.mpr h
  rw [snprintf, if_neg (by omega), List.length_append, List.length_take, List.length_singleton]
  omega

/-- A text that fits is stored as a whole. -/
theorem snprintf_of_lt {size : ℕ} {text : List UInt8} (h : text.length < size) :
    snprintf size text = text ++ [0] := by
  rw [snprintf, if_neg (by omega), List.take_of_length_le (by omega)]

/-- A text as long as the size loses its last byte to the NUL. -/
theorem snprintf_length {text : List UInt8} (h : text ≠ []) :
    snprintf text.length text = text.dropLast ++ [0] := by
  have hpos := List.length_pos_iff.mpr h
  rw [snprintf, if_neg (by omega), List.dropLast_eq_take]

end Printf

end Catse
