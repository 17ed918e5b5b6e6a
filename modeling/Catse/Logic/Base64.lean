import Catse.Lib.Base64
import Mathlib.Data.List.TakeWhile

/-!
# `base64.cpp`

`base64_encode` collects three bytes at a time and `base64_decode` four characters, in an array that
a last, shorter group fills up with zeros. `base64Encode_eq` says that the first is the encoding of
RFC 4648, and `base64Decode_eq` that the second gives what the characters of the alphabet carry that
a string begins with, whatever follows them.
-/

namespace Catse

/-- `base64_chars`. -/
def base64Chars : List UInt8 :=
  "ABCDEFGHIJKLMNOPQRSTUVWXYZabcdefghijklmnopqrstuvwxyz0123456789+/".toUTF8.toList

/-- `is_base64`, with `isalnum` of the C locale. -/
def isBase64 (c : UInt8) : Bool :=
  ((48 ≤ c && c ≤ 57) || (65 ≤ c && c ≤ 90) || (97 ≤ c && c ≤ 122)) || c == 43 || c == 47

/-- `base64_chars.find` as an `unsigned char`, where `npos` is 255. -/
def find (c : UInt8) : UInt8 :=
  if c ∈ base64Chars then UInt8.ofNat (base64Chars.idxOf c) else 255

/-- `ret`, `i` and the array that collects a group. -/
structure Group where
  ret : List UInt8
  i : ℕ
  array : List UInt8

/-- The array from `i` on with zeros, up to `n`. -/
def Group.zeros (g : Group) (n : ℕ) : List UInt8 :=
  (List.range' g.i (n - g.i)).foldl (fun a j => a.set j 0) g.array

/-! ## `base64_encode` -/

/-- `char_array_4` from `char_array_3`. -/
def fourOfThree (a : List UInt8) : List UInt8 :=
  [(a.getD 0 0 &&& 0xfc) >>> 2,
    ((a.getD 0 0 &&& 0x03) <<< 4) + ((a.getD 1 0 &&& 0xf0) >>> 4),
    ((a.getD 1 0 &&& 0x0f) <<< 2) + ((a.getD 2 0 &&& 0xc0) >>> 6),
    a.getD 2 0 &&& 0x3f]

/-- `base64_chars[c]`. -/
def charAt (c : UInt8) : UInt8 := base64Chars.getD c.toNat 0

/-- The body of the first loop. -/
def encodeByte (g : Group) (b : UInt8) : Group :=
  let array := g.array.set g.i b
  if g.i + 1 = 3 then ⟨g.ret ++ (fourOfThree array).map charAt, 0, array⟩
  else ⟨g.ret, g.i + 1, array⟩

/-- What follows the first loop. -/
def encodeRest (g : Group) : List UInt8 :=
  if g.i ≠ 0 then
    g.ret ++ ((fourOfThree (g.zeros 3)).take (g.i + 1)).map charAt ++ List.replicate (3 - g.i) 61
  else g.ret

/-- `base64_encode`. An element of the array is written before it is read, so that it starts with
zeros makes no difference. -/
def base64Encode (bytes_to_encode : List UInt8) : List UInt8 :=
  encodeRest (bytes_to_encode.foldl encodeByte ⟨[], 0, List.replicate 3 0⟩)

/-! ## `base64_decode` -/

/-- `char_array_3` from `char_array_4`. -/
def threeOfFour (a : List UInt8) : List UInt8 :=
  [(a.getD 0 0 <<< 2) + ((a.getD 1 0 &&& 0x30) >>> 4),
    ((a.getD 1 0 &&& 0xf) <<< 4) + ((a.getD 2 0 &&& 0x3c) >>> 2),
    ((a.getD 2 0 &&& 0x3) <<< 6) + a.getD 3 0]

/-- The body of the first loop. -/
def decodeChar (g : Group) (c : UInt8) : Group :=
  let array := g.array.set g.i c
  if g.i + 1 = 4 then
    let array := array.map find
    ⟨g.ret ++ threeOfFour array, 0, array⟩
  else ⟨g.ret, g.i + 1, array⟩

/-- The first loop, up to a `=` or another character that is not in the alphabet. -/
def decodeLoop (g : Group) : List UInt8 → Group
  | [] => g
  | c :: cs => if c ≠ 61 ∧ isBase64 c then decodeLoop (decodeChar g c) cs else g

/-- What follows the first loop. -/
def decodeRest (g : Group) : List UInt8 :=
  if g.i ≠ 0 then g.ret ++ (threeOfFour ((g.zeros 4).map find)).take (g.i - 1)
  else g.ret

/-- `base64_decode`. As in `base64Encode`, the array starts with zeros. -/
def base64Decode (encoded_string : List UInt8) : List UInt8 :=
  decodeRest (decodeLoop ⟨[], 0, List.replicate 4 0⟩ encoded_string)

/-! ## The masks and shifts of a byte -/

section Masks

/-- The bits of a mask at the upper end, moved down. -/
theorem toNat_mask_shiftRight (x m k : UInt8) {j : ℕ} (hk : k.toNat < 8)
    (hm : m.toNat >>> k.toNat = 2^j - 1) :
    ((x &&& m) >>> k).toNat = x.toNat / 2^k.toNat % 2^j := by
  rw [UInt8.toNat_shiftRight, UInt8.toNat_and, Nat.mod_eq_of_lt hk, Nat.shiftRight_and_distrib, hm,
    Nat.and_two_pow_sub_one_eq_mod, Nat.shiftRight_eq_div_pow]

/-- The bits of a mask at the lower end, moved up. -/
theorem toNat_mask_shiftLeft (x m k : UInt8) {j : ℕ} (hk : k.toNat < 8) (hm : m.toNat = 2^j - 1) :
    ((x &&& m) <<< k).toNat = x.toNat % 2^j * 2^k.toNat % 2^8 := by
  rw [UInt8.toNat_shiftLeft, UInt8.toNat_and, Nat.mod_eq_of_lt hk, hm,
    Nat.and_two_pow_sub_one_eq_mod, Nat.shiftLeft_eq]

variable (x : UInt8)

theorem high_six : ((x &&& 0xfc) >>> 2).toNat = x.toNat / 2^2 % 2^6 :=
  toNat_mask_shiftRight x 0xfc 2 (by decide) (by decide)

theorem low_two : ((x &&& 0x03) <<< 4).toNat = x.toNat % 2^2 * 2^4 % 2^8 :=
  toNat_mask_shiftLeft x 0x03 4 (by decide) (by decide)

theorem high_four : ((x &&& 0xf0) >>> 4).toNat = x.toNat / 2^4 % 2^4 :=
  toNat_mask_shiftRight x 0xf0 4 (by decide) (by decide)

theorem low_four : ((x &&& 0x0f) <<< 2).toNat = x.toNat % 2^4 * 2^2 % 2^8 :=
  toNat_mask_shiftLeft x 0x0f 2 (by decide) (by decide)

theorem high_two : ((x &&& 0xc0) >>> 6).toNat = x.toNat / 2^6 % 2^2 :=
  toNat_mask_shiftRight x 0xc0 6 (by decide) (by decide)

theorem low_six : (x &&& 0x3f).toNat = x.toNat % 2^6 := by
  rw [UInt8.toNat_and]
  exact Nat.and_two_pow_sub_one_eq_mod x.toNat 6

theorem up_two : (x <<< 2).toNat = x.toNat * 2^2 % 2^8 := by
  rw [UInt8.toNat_shiftLeft]
  exact congrArg (· % 2^8) (Nat.shiftLeft_eq x.toNat 2)

theorem middle_two : ((x &&& 0x30) >>> 4).toNat = x.toNat / 2^4 % 2^2 :=
  toNat_mask_shiftRight x 0x30 4 (by decide) (by decide)

theorem up_four : ((x &&& 0xf) <<< 4).toNat = x.toNat % 2^4 * 2^4 % 2^8 :=
  toNat_mask_shiftLeft x 0xf 4 (by decide) (by decide)

theorem middle_four : ((x &&& 0x3c) >>> 2).toNat = x.toNat / 2^2 % 2^4 :=
  toNat_mask_shiftRight x 0x3c 2 (by decide) (by decide)

theorem up_six : ((x &&& 0x3) <<< 6).toNat = x.toNat % 2^2 * 2^6 % 2^8 :=
  toNat_mask_shiftLeft x 0x3 6 (by decide) (by decide)

end Masks

/-! ## Encoding -/

/-- The four indices are the digits of three bytes. -/
theorem fourOfThree_eq (a b c : UInt8) :
    (fourOfThree [a, b, c]).map charAt = (Base64.sextets [a, b, c]).map (base64Chars.getD · 0) := by
  have ha := a.toNat_lt
  have hb := b.toNat_lt
  have hc := c.toNat_lt
  have h₁ : ((a &&& 0xfc) >>> 2).toNat = (a.toNat * 2^16 + b.toNat * 2^8 + c.toNat) / 2^18 := by
    rw [high_six]
    omega
  have h₂ : (((a &&& 0x03) <<< 4) + ((b &&& 0xf0) >>> 4)).toNat =
      (a.toNat * 2^16 + b.toNat * 2^8 + c.toNat) / 2^12 % 2^6 := by
    rw [UInt8.toNat_add, low_two, high_four]
    omega
  have h₃ : (((b &&& 0x0f) <<< 2) + ((c &&& 0xc0) >>> 6)).toNat =
      (a.toNat * 2^16 + b.toNat * 2^8 + c.toNat) / 2^6 % 2^6 := by
    rw [UInt8.toNat_add, low_four, high_two]
    omega
  have h₄ : (c &&& 0x3f).toNat = (a.toNat * 2^16 + b.toNat * 2^8 + c.toNat) % 2^6 := by
    rw [low_six]
    omega
  simp only [fourOfThree, List.getD_cons_zero, List.getD_cons_succ, List.map_cons, List.map_nil,
    charAt, h₁, h₂, h₃, h₄, Base64.sextets]

/-- With zeros behind them, the digits of one byte. -/
theorem sextets_one (a : UInt8) : Base64.sextets [a] = (Base64.sextets [a, 0, 0]).take 2 := by
  have ha := a.toNat_lt
  simp only [Base64.sextets, UInt8.toNat_zero, List.take_succ_cons, List.take_zero]
  congr 1
  · omega
  · congr 1
    omega

/-- With a zero behind them, the digits of two bytes. -/
theorem sextets_two (a b : UInt8) :
    Base64.sextets [a, b] = (Base64.sextets [a, b, 0]).take 3 := by
  have ha := a.toNat_lt
  have hb := b.toNat_lt
  simp only [Base64.sextets, UInt8.toNat_zero, List.take_succ_cons, List.take_zero]
  congr 1
  · omega
  · congr 1
    · omega
    · congr 1
      omega

/-- From the start of a group on, for three bytes at a time. -/
theorem encodeRest_foldl (m ret : List UInt8) {array : List UInt8} (h : array.length = 3) :
    encodeRest (m.foldl encodeByte ⟨ret, 0, array⟩) = ret ++ Base64.encode base64Chars m := by
  obtain ⟨x, y, z, rfl⟩ := List.length_eq_three.mp h
  induction m using Base64.sextets.induct generalizing ret x y z with
  | case1 => exact (List.append_nil ret).symm
  | case2 a =>
    show ret ++ ((fourOfThree [a, 0, 0]).take 2).map charAt ++ List.replicate 2 61 = _
    rw [List.map_take, fourOfThree_eq, ← List.map_take, ← sextets_one, List.append_assoc]
    rfl
  | case3 a b =>
    show ret ++ ((fourOfThree [a, b, 0]).take 3).map charAt ++ List.replicate 1 61 = _
    rw [List.map_take, fourOfThree_eq, ← List.map_take, ← sextets_two, List.append_assoc]
    rfl
  | case4 a b c bs ih =>
    show encodeRest (bs.foldl encodeByte
      ⟨ret ++ (fourOfThree [a, b, c]).map charAt, 0, [a, b, c]⟩) = _
    rw [ih _ a b c rfl, fourOfThree_eq, List.append_assoc, Base64.encode, Base64.encode,
      ← List.append_assoc ((Base64.sextets [a, b, c]).map _), ← List.map_append]
    congr 3
    simp only [List.length_cons]
    omega

/-- `base64_encode` is the encoding of the standard. -/
theorem base64Encode_eq (m : List UInt8) : base64Encode m = Base64.encode base64Chars m :=
  encodeRest_foldl m [] rfl

/-! ## Decoding -/

/-- The alphabet, as ranges. -/
theorem base64Chars_eq : base64Chars =
    (List.range' 65 26).map UInt8.ofNat ++ (List.range' 97 26).map UInt8.ofNat ++
      (List.range' 48 10).map UInt8.ofNat ++ [43, 47] := by
  decide +kernel

theorem mem_range_ofNat {a n : ℕ} (h : a + n ≤ 256) (c : UInt8) :
    c ∈ (List.range' a n).map UInt8.ofNat ↔ a ≤ c.toNat ∧ c.toNat < a + n := by
  rw [List.mem_map]
  constructor
  · rintro ⟨i, hi, rfl⟩
    have hi' := List.mem_range'_1.mp hi
    rw [UInt8.toNat_ofNat_of_lt' (by rw [UInt8.size]; omega)]
    exact hi'
  · exact fun hc => ⟨c.toNat, List.mem_range'_1.mpr hc, UInt8.ofNat_toNat⟩

/-- The characters of the alphabet. -/
theorem isBase64_iff (c : UInt8) : isBase64 c = true ↔ c ∈ base64Chars := by
  rw [base64Chars_eq, List.mem_append, List.mem_append, List.mem_append,
    mem_range_ofNat (by decide), mem_range_ofNat (by decide), mem_range_ofNat (by decide)]
  simp only [isBase64, Bool.or_eq_true, Bool.and_eq_true, decide_eq_true_eq, beq_iff_eq,
    UInt8.le_iff_toNat_le, List.mem_cons, List.not_mem_nil, or_false, UInt8.reduceToNat]
  have h43 : c = 43 ↔ c.toNat = 43 := UInt8.toNat_inj.symm
  have h47 : c = 47 ↔ c.toNat = 47 := UInt8.toNat_inj.symm
  rw [h43, h47]
  omega

theorem find_toNat {c : UInt8} (hc : isBase64 c = true) :
    (find c).toNat = base64Chars.idxOf c ∧ base64Chars.idxOf c < 64 := by
  have hmem := (isBase64_iff c).mp hc
  have hlt : base64Chars.idxOf c < 64 := by
    have hlen : base64Chars.length = 64 := by decide +kernel
    rw [← hlen]
    exact List.idxOf_lt_length_of_mem hmem
  refine ⟨?_, hlt⟩
  rw [find, if_pos hmem, UInt8.toNat_ofNat']
  omega

section Bytes

variable {a b : UInt8} {n : ℕ}

/-- The first byte of a group, from its first two characters. -/
theorem first_byte (ha : isBase64 a = true) (hb : isBase64 b = true)
    (hn : n % 2^8 = base64Chars.idxOf a * 2^2 + base64Chars.idxOf b / 2^4) :
    (find a <<< 2) + ((find b &&& 0x30) >>> 4) = UInt8.ofNat n := by
  obtain ⟨ea, la⟩ := find_toNat ha
  obtain ⟨eb, lb⟩ := find_toNat hb
  apply UInt8.toNat_inj.mp
  rw [UInt8.toNat_add, up_two, middle_two, UInt8.toNat_ofNat', ea, eb]
  omega

/-- The second byte, from the second character and the third. -/
theorem second_byte (ha : isBase64 a = true) (hb : isBase64 b = true)
    (hn : n % 2^8 = base64Chars.idxOf a % 2^4 * 2^4 + base64Chars.idxOf b / 2^2) :
    ((find a &&& 0xf) <<< 4) + ((find b &&& 0x3c) >>> 2) = UInt8.ofNat n := by
  obtain ⟨ea, la⟩ := find_toNat ha
  obtain ⟨eb, lb⟩ := find_toNat hb
  apply UInt8.toNat_inj.mp
  rw [UInt8.toNat_add, up_four, middle_four, UInt8.toNat_ofNat', ea, eb]
  omega

/-- The third byte, from the third character and the fourth. -/
theorem third_byte (ha : isBase64 a = true) (hb : isBase64 b = true)
    (hn : n % 2^8 = base64Chars.idxOf a % 2^2 * 2^6 + base64Chars.idxOf b) :
    ((find a &&& 0x3) <<< 6) + find b = UInt8.ofNat n := by
  obtain ⟨ea, la⟩ := find_toNat ha
  obtain ⟨eb, lb⟩ := find_toNat hb
  apply UInt8.toNat_inj.mp
  rw [UInt8.toNat_add, up_six, UInt8.toNat_ofNat', ea, eb]
  omega

end Bytes

/-- The loop stops at the first character that is not in the alphabet. -/
theorem decodeLoop_takeWhile (g : Group) (s : List UInt8) :
    decodeLoop g s = (s.takeWhile isBase64).foldl decodeChar g := by
  induction s generalizing g with
  | nil => rfl
  | cons c s ih =>
    rw [decodeLoop]
    by_cases hc : isBase64 c = true
    · have hne : c ≠ 61 := by
        rintro rfl
        exact absurd hc (by decide)
      rw [if_pos ⟨hne, hc⟩, ih, List.takeWhile_cons_of_pos hc, List.foldl_cons]
    · rw [if_neg fun h => hc h.2, List.takeWhile_cons_of_neg hc, List.foldl_nil]

theorem exists_four {α : Type*} {l : List α} (h : l.length = 4) :
    ∃ w x y z, l = [w, x, y, z] := by
  obtain ⟨w, l, rfl⟩ := List.exists_cons_of_length_eq_add_one h
  obtain ⟨x, y, z, rfl⟩ := List.length_eq_three.mp (Nat.succ_injective h)
  exact ⟨w, x, y, z, rfl⟩

/-- From the start of a group on, for four characters at a time. -/
theorem decodeRest_foldl : ∀ (p ret : List UInt8) {array : List UInt8}, array.length = 4 →
    (∀ c ∈ p, isBase64 c = true) →
    decodeRest (p.foldl decodeChar ⟨ret, 0, array⟩) =
      ret ++ Base64.octets (p.map (base64Chars.idxOf ·))
  -- Less than a group at the end: two characters carry a byte, three carry two, and one carries
  -- nothing.
  | [], ret, _, _, _ => (List.append_nil ret).symm
  | [a], ret, array, h, _ => by
    obtain ⟨w, x, y, z, rfl⟩ := exists_four h
    rfl
  | [a, b], ret, array, h, hp => by
    obtain ⟨w, x, y, z, rfl⟩ := exists_four h
    have ha := hp a (by simp)
    have hb := hp b (by simp)
    obtain ⟨-, la⟩ := find_toNat ha
    obtain ⟨-, lb⟩ := find_toNat hb
    have hfirst := first_byte ha hb
      (n := (base64Chars.idxOf a * 2^6 + base64Chars.idxOf b) / 2^4) (by omega)
    exact congrArg (fun x => ret ++ [x]) hfirst
  | [a, b, c], ret, array, h, hp => by
    obtain ⟨w, x, y, z, rfl⟩ := exists_four h
    have ha := hp a (by simp)
    have hb := hp b (by simp)
    have hc := hp c (by simp)
    obtain ⟨-, la⟩ := find_toNat ha
    obtain ⟨-, lb⟩ := find_toNat hb
    obtain ⟨-, lc⟩ := find_toNat hc
    have hfirst := first_byte ha hb (n := (base64Chars.idxOf a * 2^12 +
      base64Chars.idxOf b * 2^6 + base64Chars.idxOf c) / 2^10) (by omega)
    have hsecond := second_byte hb hc (n := (base64Chars.idxOf a * 2^12 +
      base64Chars.idxOf b * 2^6 + base64Chars.idxOf c) / 2^2) (by omega)
    exact congrArg₂ (fun x y => ret ++ [x, y]) hfirst hsecond
  -- A whole group leaves the counter at zero again, so that the induction goes on behind it.
  | a :: b :: c :: d :: p, ret, array, h, hp => by
    obtain ⟨w, x, y, z, rfl⟩ := exists_four h
    have ha := hp a (by simp)
    have hb := hp b (by simp)
    have hc := hp c (by simp)
    have hd := hp d (by simp)
    obtain ⟨-, la⟩ := find_toNat ha
    obtain ⟨-, lb⟩ := find_toNat hb
    obtain ⟨-, lc⟩ := find_toNat hc
    obtain ⟨-, ld⟩ := find_toNat hd
    have hfirst := first_byte ha hb (n := (base64Chars.idxOf a * 2^18 +
      base64Chars.idxOf b * 2^12 + base64Chars.idxOf c * 2^6 + base64Chars.idxOf d) / 2^16)
      (by omega)
    have hsecond := second_byte hb hc (n := (base64Chars.idxOf a * 2^18 +
      base64Chars.idxOf b * 2^12 + base64Chars.idxOf c * 2^6 + base64Chars.idxOf d) / 2^8)
      (by omega)
    have hthird := third_byte hc hd (n := base64Chars.idxOf a * 2^18 +
      base64Chars.idxOf b * 2^12 + base64Chars.idxOf c * 2^6 + base64Chars.idxOf d) (by omega)
    show decodeRest (p.foldl decodeChar
      ⟨ret ++ [(find a <<< 2) + ((find b &&& 0x30) >>> 4),
        ((find b &&& 0xf) <<< 4) + ((find c &&& 0x3c) >>> 2), ((find c &&& 0x3) <<< 6) + find d],
        0, [find a, find b, find c, find d]⟩) = _
    rw [decodeRest_foldl p _ rfl fun c hc => hp c (by simp [hc]), hfirst, hsecond, hthird,
      List.append_assoc]
    rfl

/-- `base64_decode` gives what the characters of the alphabet carry that the string begins with. -/
theorem base64Decode_eq (s : List UInt8) :
    base64Decode s = Base64.octets ((s.takeWhile isBase64).map (base64Chars.idxOf ·)) := by
  rw [base64Decode, decodeLoop_takeWhile, decodeRest_foldl _ _ rfl]
  · rfl
  · exact fun c hc => List.mem_takeWhile_imp hc

/-- The characters of an encoding carry its digits. -/
theorem idxOf_getD {d : ℕ} (h : d < 64) : base64Chars.idxOf (base64Chars.getD d 0) = d ∧
    isBase64 (base64Chars.getD d 0) = true := by
  have hall : ∀ d : Fin 64, base64Chars.idxOf (base64Chars.getD d 0) = d ∧
      isBase64 (base64Chars.getD d 0) = true := by
    rw [base64Chars_eq]
    decide +kernel
  exact hall ⟨d, h⟩

/-- `base64_encode` is the encoding of the standard, `base64_decode` gives what the characters of
the alphabet carry that its argument begins with, whatever follows them, and so it gives back every
byte string from its encoding. -/
theorem base64_round_trip (m s : List UInt8) :
    base64Encode m = Base64.encode base64Chars m ∧
      base64Decode s = Base64.octets ((s.takeWhile isBase64).map (base64Chars.idxOf ·)) ∧
      base64Decode (base64Encode m) = m := by
  refine ⟨base64Encode_eq m, base64Decode_eq s, ?_⟩
  have hfront : ∀ c ∈ (Base64.sextets m).map (base64Chars.getD · 0), isBase64 c = true := by
    intro c hc
    obtain ⟨d, hd, rfl⟩ := List.mem_map.mp hc
    exact (idxOf_getD (Base64.sextets_lt d hd)).2
  have hend : (List.replicate ((3 - m.length % 3) % 3) (61 : UInt8)).takeWhile isBase64 = [] := by
    rw [List.takeWhile_replicate, if_neg (by decide)]
  rw [base64Decode_eq, base64Encode_eq, Base64.encode, List.takeWhile_append_of_pos hfront, hend,
    List.append_nil, List.map_map]
  have hback : (Base64.sextets m).map ((base64Chars.idxOf ·) ∘ (base64Chars.getD · 0)) =
      Base64.sextets m := by
    refine (List.map_congr_left fun d hd => ?_).trans (List.map_id _)
    exact (idxOf_getD (Base64.sextets_lt d hd)).1
  rw [hback, Base64.octets_sextets]

end Catse
