import Catse.Mongo.LuaMongo
import Mathlib.Data.List.TakeWhile

/-!
# A table comes back from its document

`Storable` says which values `table2bson` takes without loss. The proof is by induction on it: the
element that `appendValue` appends for a value does not depend on what is in the document before it,
and `elementValue` gives the value back (`Stores`). Whether a table becomes an array depends on its
enumeration order, and the only thing that matters of it is that the keys of an array are positive,
so that shifting them down and up again is harmless.
-/

namespace Catse.LuaMongo

/-! ## Decimal numbers -/

theorem digit_toNat {n : ℕ} (h : n < 10) : (48 + UInt8.ofNat n).toNat = 48 + n := by
  rw [UInt8.toNat_add, UInt8.toNat_ofNat']
  change (48 + n % 2^8) % 2^8 = 48 + n
  omega

theorem isDigit_digit {n : ℕ} (h : n < 10) : isDigit (48 + UInt8.ofNat n) = true := by
  have hval := digit_toNat h
  simp only [isDigit, UInt8.lt_iff_toNat_lt, hval, Bool.and_eq_true, decide_eq_true_eq]
  change 47 < 48 + n ∧ 48 + n < 58
  omega

theorem decimal_ne_nil (n : ℕ) : decimal n ≠ [] := by
  unfold decimal
  split_ifs with h
  · exact List.cons_ne_nil _ _
  · exact List.append_ne_nil_of_right_ne_nil _ (List.cons_ne_nil _ _)

theorem isDigit_of_mem_decimal {n : ℕ} : ∀ c ∈ decimal n, isDigit c = true := by
  fun_induction decimal n with
  | case1 n h =>
    intro c hc
    rw [List.mem_singleton.mp hc]
    exact isDigit_digit h
  | case2 n h ih =>
    intro c hc
    rcases List.mem_append.mp hc with hc | hc
    · exact ih c hc
    · rw [List.mem_singleton.mp hc]
      exact isDigit_digit (Nat.mod_lt n (by norm_num))

/-- A number below `10^k` has at most `k` digits. -/
theorem length_decimal_le {k n : ℕ} (h : n < 10^(k + 1)) : (decimal n).length ≤ k + 1 := by
  induction k generalizing n with
  | zero =>
    rw [decimal, if_pos (by omega)]
    exact le_rfl
  | succ k ih =>
    rw [decimal]
    split_ifs with hn
    · exact Nat.le_add_left 1 (k + 1)
    · have hdiv : n / 10 < 10^(k + 1) := by
        rw [pow_succ] at h
        omega
      have := ih hdiv
      rw [List.length_append, List.length_singleton]
      omega

/-- `atoi` reads a number back. -/
theorem atoi_decimal (n : ℕ) : atoi (decimal n) = n := by
  fun_induction decimal n with
  | case1 n h =>
    have hval := digit_toNat h
    change 10 * 0 + ((48 + UInt8.ofNat n).toNat - 48) = n
    omega
  | case2 n h ih =>
    have hval := digit_toNat (Nat.mod_lt n (by norm_num : 10 > 0))
    have hlast : atoi (decimal (n / 10) ++ [48 + UInt8.ofNat (n % 10)]) =
        10 * atoi (decimal (n / 10)) + ((48 + UInt8.ofNat (n % 10)).toNat - 48) := by
      rw [atoi, List.foldl_append]
      rfl
    rw [hlast, ih]
    omega

/-- A number of at most nine digits is taken for a number again. -/
theorem isUnsignedInt_decimal {n : ℕ} (h : n < 10^9) : isUnsignedInt (decimal n) = true := by
  have hlen : (decimal n).length ≤ 9 := length_decimal_le h
  have hall : (decimal n).all isDigit = true := List.all_eq_true.mpr isDigit_of_mem_decimal
  have hne : (decimal n).isEmpty = false := by
    rw [List.isEmpty_eq_false_iff]
    exact decimal_ne_nil n
  rw [isUnsignedInt, hall, hne, decide_eq_false (by omega)]
  rfl

/-! ## Object identifiers -/

/-- The digits of a lower-case hexadecimal number. -/
def hexDigits : List UInt8 := [48, 49, 50, 51, 52, 53, 54, 55, 56, 57, 97, 98, 99, 100, 101, 102]

/-- The digits are those of the numbers below 16. -/
theorem exists_hexDigit :
    ∀ a ∈ hexDigits, ∃ x < 16, hashLittleToBig.hexDigit (UInt8.ofNat x) = a := by
  decide +kernel

/-- Any two digits are the text of a byte. -/
theorem exists_hashLittleToBig {a b : UInt8} (ha : a ∈ hexDigits) (hb : b ∈ hexDigits) :
    ∃ n < 256, hashLittleToBig (UInt8.ofNat n) = [a, b] := by
  obtain ⟨x, hx, rfl⟩ := exists_hexDigit a ha
  obtain ⟨y, hy, rfl⟩ := exists_hexDigit b hb
  have h16 : (16 : UInt8).toNat = 16 := rfl
  refine ⟨16 * x + y, by omega, ?_⟩
  have hdiv : UInt8.ofNat (16 * x + y) / 16 = UInt8.ofNat x := by
    apply UInt8.toNat.inj
    rw [UInt8.toNat_div, UInt8.toNat_ofNat', UInt8.toNat_ofNat', h16]
    omega
  have hmod : UInt8.ofNat (16 * x + y) % 16 = UInt8.ofNat y := by
    apply UInt8.toNat.inj
    rw [UInt8.toNat_mod, UInt8.toNat_ofNat', UInt8.toNat_ofNat', h16]
    omega
  rw [hashLittleToBig, hdiv, hmod]

/-- Two digits come back from the byte that is entered for them. -/
theorem hashLittleToBig_hashBigToLittle {a b : UInt8} (ha : a ∈ hexDigits) (hb : b ∈ hexDigits) :
    hashLittleToBig (hashBigToLittle a b) = [a, b] := by
  obtain ⟨n, hn, htext⟩ := exists_hashLittleToBig ha hb
  -- The search finds a byte with this text.
  have hfind : (((List.range 256).map UInt8.ofNat).find?
      fun c => hashLittleToBig c = [a, b]).isSome :=
    List.find?_isSome.mpr ⟨_, List.mem_map_of_mem (List.mem_range.mpr hn), decide_eq_true htext⟩
  obtain ⟨c, hc⟩ := Option.isSome_iff_exists.mp hfind
  rw [hashBigToLittle, hc, Option.getD_some]
  exact of_decide_eq_true (List.find?_some (p := fun c => decide (hashLittleToBig c = [a, b])) hc)

/-- A text of an even number of digits comes back from its bytes. -/
theorem littleToBig_bigToLittle (n : ℕ) {s : List UInt8} (hlen : s.length = 2 * n)
    (h : ∀ c ∈ s, c ∈ hexDigits) :
    littleToBig (bigToLittle s) = s := by
  induction n generalizing s with
  | zero =>
    rw [List.length_eq_zero_iff.mp hlen]
    rfl
  | succ n ih =>
    match s, hlen, h with
    | a :: b :: s, hlen, h =>
      have hpair : hashLittleToBig (hashBigToLittle a b) = [a, b] :=
        hashLittleToBig_hashBigToLittle (h a (by simp)) (h b (by simp))
      have hrest : littleToBig (bigToLittle s) = s :=
        ih (by simp only [List.length_cons] at hlen; omega) fun c hc => h c (by simp [hc])
      rw [bigToLittle, littleToBig, List.flatMap_cons, hpair]
      rw [littleToBig] at hrest
      rw [hrest]
      rfl

/-! ## What is stored without loss -/

/-- The keys that are stored without loss, with what `_id` has to stand for. -/
def StorableKey : LuaTreeKey → LuaTree → Prop
  | .number n, _ => 0 ≤ n ∧ n ≤ 999999999
  | .string s, v =>
    IsUTF8 s ∧ 0 ∉ s ∧ ¬(1 ≤ s.length ∧ s.length ≤ 9 ∧ ∀ c ∈ s, 48 ≤ c ∧ c ≤ 57) ∧
      (s = idName → ∃ t, v = .string t ∧ t.length = 24 ∧ ∀ c ∈ t, c ∈ hexDigits)
  | .fraction _, _ => False
  | .other _, _ => False

/-- The values that are stored without loss. -/
inductive Storable : LuaTree → Prop where
  | boolean (b : Bool) : Storable (.boolean b)
  | number (d : Double) : Storable (.number d)
  | string (s : List UInt8) : Storable (.string s)
  | table {t : LuaEntries} (nodup : (t.map Prod.fst).Nodup) (key : ∀ x ∈ t, StorableKey x.1 x.2)
    (value : ∀ x ∈ t, Storable x.2) : Storable (.table t)

/-! ## Keys -/

/-- A name that is stored is not cut short, is accepted, and is not taken for a number. -/
structure Name (key : List UInt8) : Prop where
  cname : Bson.cname key = key
  check : bsonCheckString key = true

theorem cname_eq {s : List UInt8} (h : 0 ∉ s) : Bson.cname s = s := by
  rw [Bson.cname, List.takeWhile_eq_self_iff]
  intro c hc
  exact decide_eq_true fun h0 => h (h0 ▸ hc)

theorem isDigit_iff {c : UInt8} : isDigit c = true ↔ 48 ≤ c ∧ c ≤ 57 := by
  simp only [isDigit, UInt8.lt_iff_toNat_lt, UInt8.le_iff_toNat_le, Bool.and_eq_true,
    decide_eq_true_eq]
  change 47 < c.toNat ∧ c.toNat < 58 ↔ 48 ≤ c.toNat ∧ c.toNat ≤ 57
  omega

theorem isUnsignedInt_eq_false {s : List UInt8}
    (h : ¬(1 ≤ s.length ∧ s.length ≤ 9 ∧ ∀ c ∈ s, 48 ≤ c ∧ c ≤ 57)) : isUnsignedInt s = false := by
  by_contra hne
  have htrue : isUnsignedInt s = true := Bool.eq_true_of_not_eq_false hne
  simp only [isUnsignedInt, Bool.and_eq_true, Bool.not_eq_true', List.isEmpty_eq_false_iff,
    decide_eq_false_iff_not, not_lt, List.all_eq_true, isDigit_iff] at htrue
  obtain ⟨hnil, hlen, hall⟩ := htrue
  exact h ⟨List.length_pos_iff.mpr hnil, hlen, hall⟩

theorem name_decimal (n : ℕ) : Name (decimal n) := by
  have hdigit : ∀ c ∈ decimal n, 48 ≤ c ∧ c ≤ 57 :=
    fun c hc => isDigit_iff.mp (isDigit_of_mem_decimal c hc)
  constructor
  · apply cname_eq
    intro h0
    exact absurd (hdigit 0 h0).1 (by decide)
  · apply bsonCheckString_ascii
    intro c hc
    exact UInt8.lt_of_le_of_lt (hdigit c hc).2 (by decide)

theorem decimal_ne_idName (n : ℕ) : decimal n ≠ idName := by
  intro h
  have : isDigit 95 = true := isDigit_of_mem_decimal (n := n) 95 (by rw [h]; decide)
  exact absurd this (by decide)

/-- The keys of an array, which is stored from index zero on, are numbers, and the integers among
them are positive. -/
def Shifted (arrayFlag : Bool) (t : LuaEntries) : Prop :=
  arrayFlag = true → ∀ x ∈ t, (∀ n, x.1 = .number n → 1 ≤ n) ∧ ∀ s, x.1 ≠ .string s

/-- What `is_array` finds to be an array can be shifted. -/
theorem shifted_of_isArray {cnt : ℤ} (hcnt : 0 ≤ cnt) (t : LuaEntries) :
    Shifted (isArray cnt t) t := by
  intro harr
  induction t generalizing cnt with
  | nil => exact fun x hx => absurd hx List.not_mem_nil
  | cons y t ih =>
    obtain ⟨k, v⟩ := y
    cases k with
    | number n =>
      rw [isArray, Bool.and_eq_true, decide_eq_true_eq] at harr
      intro x hx
      rcases List.mem_cons.mp hx with rfl | hx
      · refine ⟨fun m hm => ?_, fun s hs => LuaTreeKey.noConfusion hs⟩
        cases hm
        omega
      · exact ih (by omega) harr.2 x hx
    | fraction y =>
      rw [isArray, Bool.and_eq_true] at harr
      intro x hx
      rcases List.mem_cons.mp hx with rfl | hx
      · exact ⟨fun m hm => LuaTreeKey.noConfusion hm, fun s hs => LuaTreeKey.noConfusion hs⟩
      · exact ih (by omega) harr.2 x hx
    | string s => exact absurd harr (by simp [isArray])
    | other type => exact absurd harr (by simp [isArray])

/-- A key is stored under a name from which it comes back. -/
theorem elementKey_tableKey {arrayFlag : Bool} {k : LuaTreeKey} {v : LuaTree} (hk : StorableKey k v)
    (hshift : arrayFlag = true → (∀ n, k = .number n → 1 ≤ n) ∧ ∀ s, k ≠ .string s) :
    ∃ key, elementKey arrayFlag k = .ok key ∧ Name key ∧ tableKey arrayFlag key = k ∧
      (key = idName → k = .string idName) := by
  cases k with
  | number n =>
    obtain ⟨h0, h9⟩ := hk
    have hpos : 0 ≤ n - arrayFlag.toNat := by
      cases arrayFlag with
      | false => exact (sub_zero n).symm ▸ h0
      | true => exact sub_nonneg.mpr ((hshift rfl).1 n rfl)
    obtain ⟨m, hm⟩ := Int.eq_ofNat_of_zero_le hpos
    have hint : toInt n = n := if_pos (by omega)
    have hkey : elementKey arrayFlag (.number n) = .ok (decimal m) := by
      rw [elementKey, hint, hm, int2string, if_neg (by omega)]
      rfl
    refine ⟨decimal m, hkey, name_decimal m, ?_, fun h => absurd h (decimal_ne_idName m)⟩
    rw [tableKey, if_pos (isUnsignedInt_decimal (by omega)), atoi_decimal]
    exact congrArg LuaTreeKey.number (by omega)
  | string s =>
    obtain ⟨hutf8, hzero, hdigits, -⟩ := hk
    have hflag : arrayFlag = false := by
      cases arrayFlag with
      | false => rfl
      | true => exact absurd rfl ((hshift rfl).2 s)
    have hcname := cname_eq hzero
    refine ⟨s, congrArg Except.ok hcname, ⟨hcname, bsonCheckString_utf8 hutf8⟩, ?_,
      congrArg LuaTreeKey.string⟩
    rw [tableKey, isUnsignedInt_eq_false hdigits]
    rfl
  | fraction x => exact hk.elim
  | other type => exact hk.elim

/-! ## Tables -/

theorem rawget_of_not_mem {t : LuaEntries} {k : LuaTreeKey} (h : k ∉ t.map Prod.fst) :
    rawget t k = none := by
  rw [rawget, List.lookup_eq_none_iff]
  intro x hx
  rw [bne_iff_ne]
  rintro rfl
  exact h (List.mem_map_of_mem hx)

theorem rawset_of_not_mem {t : LuaEntries} {k : LuaTreeKey} (h : k ∉ t.map Prod.fst) (v : LuaTree) :
    rawset t k v = t ++ [(k, v)] := by
  induction t with
  | nil => rfl
  | cons x t ih =>
    rw [List.map_cons, List.mem_cons, not_or] at h
    rw [rawset, if_neg (Ne.symm h.1), ih h.2]
    rfl

/-! ## Values and tables -/

/-- The document with an element more. -/
def extend (b : Bson) (doc : BsonDoc) : Bson := { b with doc := b.doc ++ doc }

theorem extend_nil (b : Bson) : extend b [] = b := by
  rw [extend, List.append_nil]

theorem extend_extend (b : Bson) (doc doc' : BsonDoc) :
    extend (extend b doc) doc' = extend b (doc ++ doc') := by
  rw [extend, extend, extend, List.append_assoc]

theorem append_name (b : Bson) {key : List UInt8} (h : Name key) (x : BsonValue) :
    b.append key x = (true, extend b [(key, x)]) := by
  rw [Bson.append, h.cname, if_pos h.check]
  rfl

/-- The value is stored as the element, in any document, and comes back from it where there is no
table already. -/
structure Stores (key : List UInt8) (v : LuaTree) (x : BsonValue) : Prop where
  appends : ∀ b, (if key = idName then appendId b v else appendValue b key v) =
    .ok (extend b [(key, x)])
  comes : elementValue none x = .ok v

/-- The entries are stored as the elements, in any document, and are added to any table without
these keys. -/
structure StoresAll (arrayFlag : Bool) (t : LuaEntries) (doc : BsonDoc) : Prop where
  appends : ∀ b, table2bson b arrayFlag t = .ok (extend b doc)
  comes : ∀ t', (∀ x ∈ t, x.1 ∉ t'.map Prod.fst) → bson2table arrayFlag doc t' = .ok (t' ++ t)

theorem name_idName : Name idName := ⟨by decide, by decide +kernel⟩

/-- The value of `_id` is stored as an object identifier. -/
theorem stores_id {s : List UInt8} (hlen : s.length = 24) (h : ∀ c ∈ s, c ∈ hexDigits) :
    Stores idName (.string s) (.oid (bigToLittle s)) := by
  constructor
  · intro b
    rw [if_pos rfl, appendId, if_pos hlen, append_name b name_idName]
  · rw [elementValue, littleToBig_bigToLittle 12 hlen h]

/-- What the keys promise of `_id` leaves the other names. -/
theorem stores_of_key {k : LuaTreeKey} {v : LuaTree} {key : List UInt8} (hk : StorableKey k v)
    (hid : key = idName → k = .string idName) (h : key ≠ idName → ∃ x, Stores key v x) :
    ∃ x, Stores key v x := by
  by_cases hkey : key = idName
  · rw [hid hkey] at hk
    obtain ⟨s, rfl, hlen, hhex⟩ := hk.2.2.2 rfl
    rw [hkey]
    exact ⟨_, stores_id hlen hhex⟩
  · exact h hkey

/-- A string that is not accepted as one changes the flag only. -/
theorem appendStringN_refused (b : Bson) {s : List UInt8}
    (hs : ¬(¬2^31 - 1 < s.length + 1 ∧ bsonCheckString s = true)) (key : List UInt8) :
    ∃ e, b.appendStringN key s = (false, { b with notUtf8 := e }) := by
  by_cases hlen : 2^31 - 1 < s.length + 1
  · exact ⟨false, by rw [Bson.appendStringN, if_pos hlen]⟩
  · exact ⟨true, by rw [Bson.appendStringN, if_neg hlen, if_neg fun hc => hs ⟨hlen, hc⟩]⟩

/-- A string is stored as a string, or as a binary where it is not accepted as one. -/
theorem appendString_eq {key : List UInt8} (h : Name key) (s : List UInt8) :
    ∃ x, (∀ b, appendString b key s = extend b [(key, x)]) ∧
      elementValue none x = .ok (.string s) := by
  by_cases hs : ¬2^31 - 1 < s.length + 1 ∧ bsonCheckString s = true
  · refine ⟨.string s, fun b => ?_, by rw [elementValue]⟩
    rw [appendString, Bson.appendStringN, if_neg hs.1, if_pos hs.2, append_name b h, if_pos rfl]
  · refine ⟨.bindata 0 s, fun b => ?_, by rw [elementValue]⟩
    -- The flag that the refusal has set is put back.
    obtain ⟨e, he⟩ := appendStringN_refused b hs key
    rw [appendString, he, append_name _ h]
    rfl

/-- The first entry is written, and then the others. -/
theorem table2bson_cons {b b' : Bson} {arrayFlag : Bool} {k : LuaTreeKey} {v : LuaTree}
    {key : List UInt8} (hkey : elementKey arrayFlag k = .ok key)
    (hv : (if key = idName then appendId b v else appendValue b key v) = .ok b')
    (t : LuaEntries) : table2bson b arrayFlag ((k, v) :: t) = table2bson b' arrayFlag t := by
  rw [table2bson, hkey]
  change ((if key = idName then appendId b v else appendValue b key v) >>= fun b' =>
    table2bson b' arrayFlag t) = _
  rw [hv]
  rfl

/-- Tables are stored when their values are. -/
theorem storesAll {arrayFlag : Bool} {t : LuaEntries} (hnodup : (t.map Prod.fst).Nodup)
    (hkey : ∀ x ∈ t, StorableKey x.1 x.2) (hshift : Shifted arrayFlag t)
    (hvalue : ∀ x ∈ t, ∀ key, Name key → (key = idName → x.1 = .string idName) →
      ∃ y, Stores key x.2 y) :
    ∃ doc, StoresAll arrayFlag t doc := by
  induction t with
  | nil =>
    refine ⟨[], fun b => ?_, fun t' _ => ?_⟩
    · rw [table2bson, extend_nil]
    · rw [bson2table, List.append_nil]
  | cons x t ih =>
    obtain ⟨k, v⟩ := x
    rw [List.map_cons, List.nodup_cons] at hnodup
    have hmem : ∀ x ∈ t, x ∈ (k, v) :: t := fun x hx => List.mem_cons_of_mem _ hx
    obtain ⟨key, helement, hname, htable, hid⟩ :=
      elementKey_tableKey (hkey (k, v) List.mem_cons_self)
      fun hflag => hshift hflag (k, v) List.mem_cons_self
    obtain ⟨y, hy⟩ := hvalue (k, v) List.mem_cons_self key hname hid
    obtain ⟨doc, hdoc⟩ := ih hnodup.2 (fun x hx => hkey x (hmem x hx))
      (fun hflag x hx => hshift hflag x (hmem x hx)) fun x hx => hvalue x (hmem x hx)
    refine ⟨(key, y) :: doc, fun b => ?_, fun t' ht' => ?_⟩
    · rw [table2bson_cons helement (hy.appends b), hdoc.appends, extend_extend]
      rfl
    · -- The key is not in the table yet, so the entry is added to it.
      have hnew : k ∉ t'.map Prod.fst := ht' (k, v) List.mem_cons_self
      rw [bson2table, htable, rawget_of_not_mem hnew, hy.comes]
      change bson2table arrayFlag doc (rawset t' k v) = _
      rw [rawset_of_not_mem hnew, hdoc.comes]
      · rw [List.append_assoc]
        rfl
      · intro x hx
        rw [List.map_append, List.mem_append, not_or]
        constructor
        · exact ht' x (hmem x hx)
        · intro hk
          rw [List.map_singleton, List.mem_singleton] at hk
          exact hnodup.1 (hk ▸ List.mem_map_of_mem hx)

theorem subtable_none : subtable none = [] := rfl

/-- The value of an element for a table. -/
def subdoc (isArray : Bool) (doc : BsonDoc) : BsonValue :=
  if isArray then .array doc else .object doc

theorem appendStart_name (b : Bson) {key : List UInt8} (h : Name key) (isArray : Bool) :
    b.appendStart key isArray = b.openFrame key isArray := by
  rw [Bson.appendStart, h.cname, if_pos h.check]
  rfl

/-- A subdocument that is opened, filled and closed is an element more. -/
theorem appendFinish_openFrame (b : Bson) (key : List UInt8) (isArray : Bool) (doc : BsonDoc) :
    (extend (b.openFrame key isArray) doc).appendFinish =
      extend b [(key, subdoc isArray doc)] := rfl

/-- A subdocument is read as a table. -/
theorem elementValue_subdoc (old : Option LuaTree) (isArray : Bool) (doc : BsonDoc) :
    elementValue old (subdoc isArray doc) =
      (bson2table isArray doc (subtable old)).map LuaTree.table := by
  cases isArray with
  | true =>
    rw [subdoc, if_pos rfl, elementValue]
    cases bson2table true doc (subtable old) with
    | error e => rfl
    | ok t => rfl
  | false =>
    rw [subdoc, if_neg Bool.false_ne_true, elementValue]
    cases bson2table false doc (subtable old) with
    | error e => rfl
    | ok t => rfl

/-- A storable value is stored under every name but `_id`. -/
theorem Storable.stores {v : LuaTree} (h : Storable v) :
    ∀ key, Name key → key ≠ idName → ∃ x, Stores key v x := by
  induction h with
  | boolean x =>
    intro key hname hne
    refine ⟨.bool x, fun b => ?_, by rw [elementValue]⟩
    rw [if_neg hne, appendValue, append_name b hname]
  | number d =>
    intro key hname hne
    refine ⟨.double d, fun b => ?_, by rw [elementValue]⟩
    rw [if_neg hne, appendValue, append_name b hname]
  | string s =>
    intro key hname hne
    obtain ⟨x, happend, hcomes⟩ := appendString_eq hname s
    refine ⟨x, fun b => ?_, hcomes⟩
    rw [if_neg hne, appendValue, happend]
  | @table t hnodup hkey _ ih =>
    intro key hname hne
    obtain ⟨doc, hdoc⟩ :=
      storesAll hnodup hkey (shifted_of_isArray le_rfl t) fun x hx key' hname' hid =>
      stores_of_key (hkey x hx) hid fun hne' => ih x hx key' hname' hne'
    refine ⟨subdoc (isArray 0 t) doc, fun b => ?_, ?_⟩
    · rw [if_neg hne, appendValue, appendStart_name b hname, hdoc.appends]
      exact congrArg Except.ok (appendFinish_openFrame b key _ doc)
    · have hempty : bson2table (isArray 0 t) doc [] = .ok t :=
        hdoc.comes [] fun x _ => List.not_mem_nil
      rw [elementValue_subdoc, subtable_none, hempty]
      rfl

/-- A table comes back from the document that it is written to, for every order in which its entries
and those of the tables inside of it are enumerated. -/
theorem bson2table_table2bson {t : LuaEntries} (h : Storable (.table t)) :
    ∃ b doc, table2bson Bson.init false t = .ok b ∧ b.finish = some doc ∧
      bson2table false doc [] = .ok t := by
  cases h with
  | table hnodup hkey hvalue =>
    obtain ⟨doc, hdoc⟩ := storesAll hnodup hkey (fun hflag => absurd hflag Bool.false_ne_true)
      fun x hx key hname hid =>
      stores_of_key (hkey x hx) hid fun hne => (hvalue x hx).stores key hname hne
    refine ⟨extend Bson.init doc, doc, hdoc.appends Bson.init, rfl, ?_⟩
    exact hdoc.comes [] fun x _ => List.not_mem_nil

/-- With an object identifier, an array inside of an object, and a string that is no text. -/
theorem bson2table_table2bson_nested :
    let id : List UInt8 :=
    [48, 49, 50, 51, 52, 53, 54, 55, 56, 57, 97, 98, 99, 100, 101, 102, 48, 48, 48, 48, 48, 48,
      48, 49]
    let t : LuaEntries := [(.string idName, .string id),
      (.number 2, .table [(.number 1, .boolean true), (.number 2, .string [0xFF])])]
    ∃ b doc, table2bson Bson.init false t = .ok b ∧ b.finish = some doc ∧
      bson2table false doc [] = .ok t := by
  intro id t
  have hid : StorableKey (.string idName) (.string id) :=
    ⟨⟨['_', 'i', 'd'], by decide⟩, by decide, fun h => absurd (h.2.2 95 (by decide)) (by decide),
      fun _ => ⟨id, rfl, rfl, by decide +kernel⟩⟩
  have hone : ∀ v, StorableKey (.number 1) v := fun v => by constructor <;> decide
  have htwo : ∀ v, StorableKey (.number 2) v := fun v => by constructor <;> decide
  have hinner : Storable (.table [(.number 1, .boolean true), (.number 2, .string [0xFF])]) := by
    apply Storable.table
    · decide
    · exact List.forall_mem_cons.mpr ⟨hone _, List.forall_mem_singleton.mpr (htwo _)⟩
    · exact List.forall_mem_cons.mpr ⟨.boolean _, List.forall_mem_singleton.mpr (.string _)⟩
  apply bson2table_table2bson
  apply Storable.table
  · decide
  · exact List.forall_mem_cons.mpr ⟨hid, List.forall_mem_singleton.mpr (htwo _)⟩
  · exact List.forall_mem_cons.mpr ⟨.string _, List.forall_mem_singleton.mpr hinner⟩

end Catse.LuaMongo
