import Catse.Mongo.Kept

/-!
# Keys in the database

A key goes through three changes: it is cut down to an `int` or to a C string (`LuaTreeKey.cut`), it
is written as a name, and the name is read as a number or as a string. Reading undoes writing for
the keys for which `LuaTreeKey.returns` holds: numbers that have one to nine digits, and strings of
UTF-8 that do not look like one.

So the entries of a table come back one by one, each under a key of its own type, exactly where this
holds of all keys of the table and of those inside of it, and where no two keys of a table are cut
down to the same (`given_back_iff`).
-/

namespace Catse

namespace LuaTreeKey

/-- `lua_type`. -/
def type : LuaTreeKey → ℕ
  | .number _ => 3
  | .fraction _ => 3
  | .string _ => 4
  | .other type => type

/-- What a key is cut down to: the `int` of a number, or a C string. -/
def cut : LuaTreeKey → LuaTreeKey
  | .number n => .number (LuaMongo.toInt n)
  | .fraction x => .number x.d.castInt
  | .string s => .string (Bson.cname s)
  | .other type => .other type

/-- Is the name for a key read as a key of its type? -/
def returns (arrayFlag : Bool) (k : LuaTreeKey) : Bool :=
  match k.cut with
  | .number n => decide (0 ≤ n - arrayFlag.toNat) && decide (n - arrayFlag.toNat ≤ 999999999)
  | .string s => bsonCheckString s && !LuaMongo.isUnsignedInt s
  | _ => false

end LuaTreeKey

namespace LuaMongo

/-- All keys of a table return, and no two of them are cut down to the same. -/
def KeysApart (arrayFlag : Bool) (t : LuaEntries) : Prop :=
  (∀ x ∈ t, x.1.returns arrayFlag = true) ∧ (t.map fun x => x.1.cut).Nodup

instance (arrayFlag : Bool) (t : LuaEntries) : Decidable (KeysApart arrayFlag t) :=
  inferInstanceAs (Decidable (_ ∧ _))

/-- Is it a table whose keys do not all come back? -/
def crowded : LuaTreeKey × LuaTree → Bool
  | (_, .table t) => !decide (KeysApart (isArray 0 t) t)
  | _ => false

mutual

/-- The value is written as the element and read as the other value. -/
inductive Back : List UInt8 → LuaTree → BsonValue → LuaTree → Prop where
  | element {key : List UInt8} {v v' : LuaTree} {x : BsonValue} (h : Element key v x)
    (hv : elementValue none x = .ok v') : Back key v x v'
  | array {key : List UInt8} {t t' : LuaEntries} {doc : BsonDoc} (harr : isArray 0 t = true)
    (h : BackAll true t doc t') : Back key (.table t) (.array doc) (.table t')
  | object {key : List UInt8} {t t' : LuaEntries} {doc : BsonDoc} (harr : isArray 0 t = false)
    (h : BackAll false t doc t') : Back key (.table t) (.object doc) (.table t')

/-- The entries of a table, one by one, are written under different names, and read under different
keys of the same types. -/
inductive BackAll : Bool → LuaEntries → BsonDoc → LuaEntries → Prop where
  | nil {arrayFlag : Bool} : BackAll arrayFlag [] [] []
  | cons {arrayFlag : Bool} {k k' : LuaTreeKey} {v v' : LuaTree} {t t' : LuaEntries}
    {key : List UInt8} {x : BsonValue} {doc : BsonDoc} (hkey : elementKey arrayFlag k = .ok key)
    (htype : k'.type = k.type) (hname : key ∉ doc.map Prod.fst) (hkey' : k' ∉ t'.map Prod.fst)
    (hv : Back key v x v') (ht : BackAll arrayFlag t doc t') :
    BackAll arrayFlag ((k, v) :: t) ((key, x) :: doc) ((k', v') :: t')

end

theorem Back.subdoc {t t' : LuaEntries} {doc : BsonDoc} (h : BackAll (isArray 0 t) t doc t')
    (key : List UInt8) : Back key (.table t) (subdoc (isArray 0 t) doc) (.table t') := by
  cases harr : isArray 0 t with
  | true => exact .array harr (harr ▸ h)
  | false => exact .object harr (harr ▸ h)

/-- A table comes back as a table, from a subdocument of its entries. -/
theorem Back.table_inversion {key : List UInt8} {t : LuaEntries} {y : BsonValue} {v' : LuaTree}
    (h : Back key (.table t) y v') : ∃ doc t', y = LuaMongo.subdoc (isArray 0 t) doc ∧
      v' = .table t' ∧ BackAll (isArray 0 t) t doc t' := by
  cases h with
  | element h _ => cases h
  | @array _ _ t' doc harr h => exact ⟨doc, t', by rw [harr]; rfl, rfl, harr ▸ h⟩
  | @object _ _ t' doc harr h => exact ⟨doc, t', by rw [harr]; rfl, rfl, harr ▸ h⟩

/-! ## Names and keys -/

theorem length_decimal_gt {k n : ℕ} (h : 10^k ≤ n) : k < (decimal n).length := by
  induction k generalizing n with
  | zero => exact List.length_pos_iff.mpr (decimal_ne_nil n)
  | succ k ih =>
    have hpos : 0 < 10^k := Nat.pos_of_ne_zero (by positivity)
    rw [pow_succ] at h
    have hdiv := ih (n := n / 10) (by omega)
    rw [decimal, if_neg (by omega), List.length_append, List.length_singleton]
    omega

/-- The numbers whose texts are taken for numbers. -/
theorem isUnsignedInt_int2string (n : ℤ) :
    isUnsignedInt (int2string n) = true ↔ 0 ≤ n ∧ n ≤ 999999999 := by
  rw [int2string]
  split_ifs with hneg
  · refine ⟨fun h => ?_, fun h => by omega⟩
    simp only [isUnsignedInt, List.all_cons, Bool.and_eq_true] at h
    exact absurd h.2.2.1 (by decide)
  · constructor
    · intro h
      simp only [isUnsignedInt, Bool.and_eq_true, Bool.not_eq_true', decide_eq_false_iff_not,
        not_lt] at h
      have hlen := mt (length_decimal_gt (k := 9)) (not_lt.mpr h.2.1)
      omega
    · intro h
      exact isUnsignedInt_decimal (by omega)

/-- A number that looks like one is read as itself. -/
theorem tableKey_int2string {arrayFlag : Bool} {n : ℤ}
    (h : 0 ≤ n - arrayFlag.toNat ∧ n - arrayFlag.toNat ≤ 999999999) :
    tableKey arrayFlag (int2string (n - arrayFlag.toNat)) = .number n := by
  rw [tableKey, if_pos ((isUnsignedInt_int2string _).mpr h), int2string, if_neg (by omega),
    atoi_decimal]
  exact congrArg LuaTreeKey.number (by omega)

/-- The name is one of what the key is cut down to. -/
theorem elementKey_cut {arrayFlag : Bool} {k : LuaTreeKey} {key : List UInt8}
    (h : elementKey arrayFlag k = .ok key) :
    (∃ n, k.cut = .number n ∧ k.type = 3 ∧ key = int2string (n - arrayFlag.toNat)) ∨
      (∃ s, k.cut = .string s ∧ k.type = 4 ∧ key = s) := by
  cases k with
  | number n => exact .inl ⟨_, rfl, rfl, (Except.ok.inj h).symm⟩
  | fraction x => exact .inl ⟨_, rfl, rfl, (Except.ok.inj h).symm⟩
  | string s => exact .inr ⟨_, rfl, rfl, (Except.ok.inj h).symm⟩
  | other type => cases h

theorem returns_of_number {k : LuaTreeKey} {n : ℤ} (h : k.cut = .number n) (arrayFlag : Bool) :
    k.returns arrayFlag = true ↔ 0 ≤ n - arrayFlag.toNat ∧ n - arrayFlag.toNat ≤ 999999999 := by
  rw [LuaTreeKey.returns, h, Bool.and_eq_true, decide_eq_true_iff, decide_eq_true_iff]

theorem returns_of_string {k : LuaTreeKey} {s : List UInt8} (h : k.cut = .string s)
    (arrayFlag : Bool) :
    k.returns arrayFlag = true ↔ bsonCheckString s = true ∧ isUnsignedInt s = false := by
  rw [LuaTreeKey.returns, h, Bool.and_eq_true, Bool.not_eq_true']

/-- The keys that return are those whose names are UTF-8 and read as keys of the same type. -/
theorem returns_iff {arrayFlag : Bool} {k : LuaTreeKey} {key : List UInt8}
    (h : elementKey arrayFlag k = .ok key) : k.returns arrayFlag = true ↔
      bsonCheckString key = true ∧ (tableKey arrayFlag key).type = k.type := by
  rcases elementKey_cut h with ⟨n, hcut, htype, rfl⟩ | ⟨s, hcut, htype, rfl⟩
  · rw [returns_of_number hcut, htype, ← isUnsignedInt_int2string, tableKey]
    cases isUnsignedInt (int2string (n - arrayFlag.toNat)) with
    | true => exact ⟨fun _ => ⟨(name_int2string _).check, rfl⟩, fun _ => rfl⟩
    | false => exact ⟨(fun h => by cases h), fun h => absurd (show 4 = 3 from h.2) (by decide)⟩
  · rw [returns_of_string hcut, htype, tableKey]
    cases isUnsignedInt key with
    | true => exact ⟨(fun h => by cases h.2), fun h => absurd (show 3 = 4 from h.2) (by decide)⟩
    | false => exact ⟨fun h => ⟨h.1, rfl⟩, fun h => ⟨h.1, rfl⟩⟩

/-- What returns is read as what it has been cut down to. -/
theorem tableKey_of_returns {arrayFlag : Bool} {k : LuaTreeKey} {key : List UInt8}
    (h : elementKey arrayFlag k = .ok key) (hk : k.returns arrayFlag = true) :
    tableKey arrayFlag key = k.cut := by
  rcases elementKey_cut h with ⟨n, hcut, -, rfl⟩ | ⟨s, hcut, -, rfl⟩
  · rw [hcut]
    exact tableKey_int2string ((returns_of_number hcut arrayFlag).mp hk)
  · rw [hcut, tableKey, ((returns_of_string hcut arrayFlag).mp hk).2]
    rfl

/-- Keys that are cut down to the same have the same name. -/
theorem elementKey_eq_of_cut {arrayFlag : Bool} {k k' : LuaTreeKey} {key key' : List UInt8}
    (h : elementKey arrayFlag k = .ok key) (h' : elementKey arrayFlag k' = .ok key')
    (hcut : k.cut = k'.cut) : key = key' := by
  rcases elementKey_cut h with ⟨n, hn, -, rfl⟩ | ⟨s, hs, -, rfl⟩
  · rcases elementKey_cut h' with ⟨m, hm, -, rfl⟩ | ⟨s, hs, -, rfl⟩
    · rw [LuaTreeKey.number.inj (hn.symm.trans (hcut.trans hm))]
    · cases hn.symm.trans (hcut.trans hs)
  · rcases elementKey_cut h' with ⟨m, hm, -, rfl⟩ | ⟨s', hs', -, rfl⟩
    · cases hs.symm.trans (hcut.trans hm)
    · exact LuaTreeKey.string.inj (hs.symm.trans (hcut.trans hs'))

/-! ## Keys that return come back -/

theorem mem_of_keptAll {arrayFlag : Bool} {t : LuaEntries} {doc : BsonDoc} {key : List UInt8}
    (h : KeptAll arrayFlag t doc) (hkey : key ∈ doc.map Prod.fst) :
    ∃ x ∈ t, elementKey arrayFlag x.1 = .ok key := by
  induction t generalizing doc with
  | nil =>
    cases h
    cases hkey
  | cons x t ih =>
    cases h with
    | @cons _ k v _ key₁ y doc hkey₁ hv ht =>
    rw [List.map_cons, List.mem_cons] at hkey
    rcases hkey with rfl | hkey
    · exact ⟨(k, v), List.mem_cons_self, hkey₁⟩
    · obtain ⟨x, hx, hxkey⟩ := ih ht hkey
      exact ⟨x, List.mem_cons_of_mem _ hx, hxkey⟩

/-- Entries whose keys return are added to any table without these keys. -/
theorem backAll_of_entries {t : LuaEntries}
    (ih : ∀ x ∈ t, ∀ key y, Kept key x.2 y → (crowded x || anyInside crowded x.2) = false →
      ∃ v', elementValue none y = .ok v' ∧ Back key x.2 y v')
    {arrayFlag : Bool} {doc : BsonDoc} (h : KeptAll arrayFlag t doc)
    (hapart : KeysApart arrayFlag t) (hinside : anyEntry crowded t = false) (t₀ : LuaEntries)
    (hnew : ∀ x ∈ t, x.1.cut ∉ t₀.map Prod.fst) :
    ∃ t', bson2table arrayFlag doc t₀ = .ok (t₀ ++ t') ∧ BackAll arrayFlag t doc t' ∧
      t'.map Prod.fst = t.map fun x => x.1.cut := by
  induction t generalizing doc t₀ with
  | nil =>
    cases h
    exact ⟨[], by rw [bson2table, List.append_nil], .nil, rfl⟩
  | cons x t iht =>
    cases h with
    | @cons _ k v _ key y doc hkey hv ht =>
    have hmem : ∀ x ∈ t, x ∈ (k, v) :: t := fun x hx => List.mem_cons_of_mem _ hx
    obtain ⟨hreturns, hnodup⟩ := hapart
    rw [List.map_cons, List.nodup_cons] at hnodup
    rw [anyEntry, Bool.or_eq_false_iff] at hinside
    have hk := hreturns (k, v) List.mem_cons_self
    have hread := tableKey_of_returns hkey hk
    -- The key is new to the table, so that it is added at the end.
    have hfresh : k.cut ∉ t₀.map Prod.fst := hnew (k, v) List.mem_cons_self
    obtain ⟨v', hv', hback⟩ := ih (k, v) List.mem_cons_self key y hv hinside.1
    -- The rest is added to the table with this entry, whose key it does not have either.
    obtain ⟨t', hrun, hrest, hkeys⟩ := iht (fun x hx => ih x (hmem x hx)) ht
      ⟨fun x hx => hreturns x (hmem x hx), hnodup.2⟩ hinside.2 (t₀ ++ [(k.cut, v')]) (by
        intro x hx
        rw [List.map_append, List.mem_append, not_or, List.map_singleton, List.mem_singleton]
        exact ⟨hnew x (hmem x hx), fun hcut => hnodup.1 (List.mem_map.mpr ⟨x, hx, hcut⟩)⟩)
    refine ⟨(k.cut, v') :: t', ?_, .cons hkey ?_ ?_ ?_ hback hrest, ?_⟩
    · rw [bson2table_cons (v := v') (by rw [hread, rawget_of_not_mem hfresh, hv']), hread,
        rawset_of_not_mem hfresh, hrun, List.append_assoc]
      rfl
    · rw [← hread]
      exact ((returns_iff hkey).mp hk).2
    · intro hdoc
      -- No later entry has the same key, as it would come back as this one.
      obtain ⟨x, hx, hxkey⟩ := mem_of_keptAll ht hdoc
      have hcut : x.1.cut = k.cut := by
        rw [← hread, tableKey_of_returns hxkey (hreturns x (hmem x hx))]
      exact hnodup.1 (List.mem_map.mpr ⟨x, hx, hcut⟩)
    · rw [hkeys]
      exact hnodup.1
    · rw [List.map_cons, List.map_cons, hkeys]

theorem back_of_kept (v : LuaTree) : ∀ k key y, Kept key v y →
    (crowded (k, v) || anyInside crowded v) = false →
    ∃ v', elementValue none y = .ok v' ∧ Back key v y v' := by
  induction v using LuaTree.induct with
  | leaf v hv =>
    intro k key y h _
    cases h with
    | element h =>
      obtain ⟨v', hv'⟩ := h.readable none
      exact ⟨v', hv', .element h hv'⟩
    | array _ _ => cases hv
    | object _ _ => cases hv
  | table t ih =>
    intro k key y h hinside
    rw [Bool.or_eq_false_iff, crowded, Bool.not_eq_false', decide_eq_true_iff] at hinside
    obtain ⟨doc, rfl, hdoc⟩ := h.table_inversion
    obtain ⟨t', hrun, hback, -⟩ := backAll_of_entries (fun x hx => ih x hx x.1) hdoc hinside.1
      hinside.2 [] fun x _ => List.not_mem_nil
    refine ⟨.table t', ?_, .subdoc hback key⟩
    rw [elementValue_subdoc, subtable_none, hrun]
    rfl

/-! ## Keys that come back return -/

theorem bson2table_of_elementValue {isArray : Bool} {doc : BsonDoc} {t : LuaEntries}
    (h : elementValue none (subdoc isArray doc) = .ok (.table t)) :
    bson2table isArray doc [] = .ok t := by
  rw [elementValue_subdoc, subtable_none] at h
  cases hrun : bson2table isArray doc [] with
  | error e =>
    rw [hrun] at h
    cases h
  | ok t₁ =>
    rw [hrun] at h
    exact congrArg Except.ok (LuaTree.table.inj (Except.ok.inj h))

theorem length_rawset (t : LuaEntries) (k : LuaTreeKey) (v : LuaTree) :
    (rawset t k v).length = if k ∈ t.map Prod.fst then t.length else t.length + 1 := by
  split_ifs with hk
  · induction t with
    | nil => cases hk
    | cons x t ih =>
      rw [rawset]
      split_ifs with hx
      · rfl
      · rw [List.map_cons, List.mem_cons] at hk
        rw [List.length_cons, ih (hk.resolve_left (Ne.symm hx)), List.length_cons]
  · rw [rawset_of_not_mem hk, List.length_append, List.length_singleton]

/-- An element adds at most one entry. -/
theorem length_bson2table_le {arrayFlag : Bool} {doc : BsonDoc} {t t' : LuaEntries}
    (h : bson2table arrayFlag doc t = .ok t') : t'.length ≤ t.length + doc.length := by
  induction doc generalizing t with
  | nil => rw [bson2table_nil_ok h, List.length_nil, Nat.add_zero]
  | cons y doc ih =>
    obtain ⟨v, -, hrest⟩ := bson2table_cons_ok h
    have hle := ih hrest
    rw [length_rawset] at hle
    rw [List.length_cons]
    split_ifs at hle <;> omega

/-- Where each element has added an entry, the entries are those of the elements. -/
theorem bson2table_full {arrayFlag : Bool} {doc : BsonDoc} {t t' : LuaEntries}
    (h : bson2table arrayFlag doc t = .ok t') (hlen : t'.length = t.length + doc.length) :
    ∃ t₁, t' = t ++ t₁ ∧ List.Forall₂
      (fun y x => x.1 = tableKey arrayFlag y.1 ∧ elementValue none y.2 = .ok x.2) doc t₁ := by
  induction doc generalizing t with
  | nil => exact ⟨[], by rw [bson2table_nil_ok h, List.append_nil], .nil⟩
  | cons y doc ih =>
    obtain ⟨v, hv, hrest⟩ := bson2table_cons_ok h
    have hle := length_bson2table_le hrest
    have hnew : tableKey arrayFlag y.1 ∉ t.map Prod.fst := by
      intro hmem
      rw [length_rawset, if_pos hmem] at hle
      rw [List.length_cons] at hlen
      omega
    rw [rawset_of_not_mem hnew] at hrest
    rw [rawget_of_not_mem hnew] at hv
    obtain ⟨t₁, rfl, hall⟩ := ih hrest (by
      rw [hlen, List.length_append, List.length_singleton, List.length_cons]
      omega)
    refine ⟨(tableKey arrayFlag y.1, v) :: t₁, ?_, .cons ⟨rfl, hv⟩ hall⟩
    rw [List.append_assoc]
    rfl

theorem length_of_backAll {arrayFlag : Bool} {t t' : LuaEntries} {doc : BsonDoc}
    (h : BackAll arrayFlag t doc t') : t'.length = doc.length := by
  induction t generalizing doc t' with
  | nil =>
    cases h
    rfl
  | cons x t ih =>
    cases h with
    | cons _ _ _ _ _ ht => rw [List.length_cons, List.length_cons, ih ht]

theorem mem_of_backAll {arrayFlag : Bool} {t t' : LuaEntries} {doc : BsonDoc}
    (h : BackAll arrayFlag t doc t') {x : LuaTreeKey × LuaTree} (hx : x ∈ t) :
    ∃ key ∈ doc.map Prod.fst, elementKey arrayFlag x.1 = .ok key := by
  induction t generalizing doc t' with
  | nil => cases hx
  | cons y t ih =>
    cases h with
    | @cons _ k _ v _ _ _ key z doc hkey _ _ _ _ ht =>
    rcases List.mem_cons.mp hx with rfl | hx
    · exact ⟨key, List.mem_cons_self, hkey⟩
    · obtain ⟨key', hmem, hkey'⟩ := ih ht hx
      exact ⟨key', List.mem_cons_of_mem _ hmem, hkey'⟩

/-- Where the entries come back one by one, their keys return. -/
theorem apart_of_entries {t : LuaEntries}
    (ih : ∀ x ∈ t, ∀ key y v', Back key x.2 y v' → Written (key, y) →
      elementValue none y = .ok v' → (crowded x || anyInside crowded x.2) = false)
    {arrayFlag : Bool} {doc : BsonDoc} {t' : LuaEntries} (h : BackAll arrayFlag t doc t')
    (hdoc : ∀ y ∈ doc, Written y) (hread : List.Forall₂
      (fun y x => x.1 = tableKey arrayFlag y.1 ∧ elementValue none y.2 = .ok x.2) doc t') :
    KeysApart arrayFlag t ∧ anyEntry crowded t = false := by
  induction t generalizing doc t' with
  | nil => exact ⟨⟨fun x hx => absurd hx List.not_mem_nil, List.nodup_nil⟩, rfl⟩
  | cons x t iht =>
    cases h with
    | @cons _ k k' v v' _ t' key y doc hkey htype hname _ hv ht =>
    obtain ⟨⟨hk', hv'⟩, hrest⟩ := List.forall₂_cons.mp hread
    have hwritten : Written (key, y) := hdoc _ List.mem_cons_self
    obtain ⟨⟨hreturns, hnodup⟩, hinside⟩ := iht (fun z hz => ih z (List.mem_cons_of_mem _ hz)) ht
      (fun z hz => hdoc z (List.mem_cons_of_mem _ hz)) hrest
    have hk' : k' = tableKey arrayFlag key := hk'
    have hk : k.returns arrayFlag = true := by
      rw [hk'] at htype
      exact (returns_iff hkey).mpr ⟨hwritten.check, htype⟩
    refine ⟨⟨List.forall_mem_cons.mpr ⟨hk, hreturns⟩, ?_⟩, ?_⟩
    · rw [List.map_cons, List.nodup_cons]
      refine ⟨fun hmem => ?_, hnodup⟩
      obtain ⟨z, hz, hcut⟩ := List.mem_map.mp hmem
      obtain ⟨key', hkey', hzkey⟩ := mem_of_backAll ht hz
      exact hname (elementKey_eq_of_cut hkey hzkey hcut.symm ▸ hkey')
    · rw [anyEntry, hinside, Bool.or_false]
      exact ih (k, v) List.mem_cons_self key y v' hv hwritten hv'

theorem apart_of_back (v : LuaTree) : ∀ k key y v', Back key v y v' → Written (key, y) →
    elementValue none y = .ok v' → (crowded (k, v) || anyInside crowded v) = false := by
  induction v using LuaTree.induct with
  | leaf v hv =>
    intro k key y v' _ _ _
    rw [anyInside_leaf hv, Bool.or_false]
    cases v with
    | table t => cases hv
    | boolean x => rfl
    | number d => rfl
    | string s => rfl
    | other type => rfl
  | table t ih =>
    intro k key y v' h hy hread
    rw [Bool.or_eq_false_iff, crowded, Bool.not_eq_false', decide_eq_true_iff]
    obtain ⟨doc, t', rfl, rfl, hback⟩ := h.table_inversion
    obtain ⟨t₁, rfl, hall⟩ := bson2table_full (bson2table_of_elementValue hread)
      ((length_of_backAll hback).trans (Nat.zero_add _).symm)
    exact apart_of_entries (fun x hx => ih x hx x.1) hback hy.subdoc_inversion hall

/-! ## The document and the table that is read -/

theorem valid_of_returns {arrayFlag : Bool} {k : LuaTreeKey} (h : k.returns arrayFlag = true) :
    k.valid = true := by
  cases k with
  | number n => rfl
  | fraction x => rfl
  | string s => exact (Bool.and_eq_true_iff.mp h).1
  | other type => rfl

/-- Keys that return have names that are UTF-8. -/
theorem valid_of_apart {t : LuaEntries}
    (ih : ∀ x ∈ t, (crowded x || anyInside crowded x.2) = false → anyInside badName x.2 = false)
    {arrayFlag : Bool} (hreturns : ∀ x ∈ t, x.1.returns arrayFlag = true)
    (hinside : anyEntry crowded t = false) : anyEntry badName t = false := by
  induction t with
  | nil => rfl
  | cons x t iht =>
    rw [anyEntry, Bool.or_eq_false_iff] at hinside
    have hk := valid_of_returns (hreturns x List.mem_cons_self)
    rw [anyEntry, badName, hk, ih x List.mem_cons_self hinside.1,
      iht (fun y hy => ih y (List.mem_cons_of_mem _ hy))
        (fun y hy => hreturns y (List.mem_cons_of_mem _ hy)) hinside.2]
    rfl

theorem valid_inside_of_apart (v : LuaTree) : ∀ k,
    (crowded (k, v) || anyInside crowded v) = false → anyInside badName v = false := by
  induction v using LuaTree.induct with
  | leaf v hv => exact fun _ _ => anyInside_leaf hv badName
  | table t ih =>
    intro k hinside
    rw [Bool.or_eq_false_iff, crowded, Bool.not_eq_false', decide_eq_true_iff] at hinside
    exact valid_of_apart (fun x hx => ih x hx x.1) hinside.1.1 hinside.2

/-- The entries of an accepted table are given back one by one, at every level under different names
and under keys of their own types, exactly where all keys return and are cut down to different ones
in each table. -/
theorem given_back_iff {t : LuaEntries} {b : Bson} (h : table2bson Bson.init false t = .ok b) :
    (∃ doc t', b.finish = some doc ∧ bson2table false doc [] = .ok t' ∧ BackAll false t doc t') ↔
      KeysApart false t ∧ anyEntry crowded t = false := by
  constructor
  · rintro ⟨doc, t', hdoc, hrun, hback⟩
    obtain ⟨t₁, rfl, hall⟩ := bson2table_full hrun
      ((length_of_backAll hback).trans (Nat.zero_add _).symm)
    exact apart_of_entries (fun x _ => apart_of_back x.2 x.1) hback (written_of_finish h hdoc) hall
  · rintro ⟨hapart, hinside⟩
    have hvalid := valid_of_apart (fun x _ => valid_inside_of_apart x.2 x.1) hapart.1 hinside
    obtain ⟨doc, rfl, hkept⟩ := keptAll_of_valid h hvalid
    obtain ⟨t', hrun, hback, -⟩ := backAll_of_entries (fun x _ => back_of_kept x.2 x.1) hkept
      hapart hinside [] fun x _ => List.not_mem_nil
    exact ⟨doc, t', rfl, hrun, hback⟩

/-- A boolean is an element more. -/
theorem table2bson_boolean {arrayFlag : Bool} {k : LuaTreeKey} {key : List UInt8}
    (hkey : elementKey arrayFlag k = .ok key) (hname : Name key) (hne : key ≠ idName) (b : Bson)
    (x : Bool) (t : LuaEntries) : table2bson b arrayFlag ((k, .boolean x) :: t) =
      table2bson (extend b [(key, .bool x)]) arrayFlag t := by
  rw [table2bson_cons hkey (by rw [if_neg hne, appendValue, append_name b hname])]

/-- A number and a string that is no number. -/
theorem given_back_two :
    let t : LuaEntries := [(.number 1, .boolean true), (.string [97], .boolean false)]
    ∃ b, table2bson Bson.init false t = .ok b ∧ ∃ doc t', b.finish = some doc ∧
      bson2table false doc [] = .ok t' ∧ BackAll false t doc t' := by
  intro t
  have ha : Name [97] := ⟨by decide, by decide +kernel⟩
  have hone : elementKey false (.number 1) = .ok (decimal 1) := rfl
  have htwo : elementKey false (.string [97]) = .ok [97] := rfl
  have hrun : table2bson Bson.init false t = .ok
      (extend (extend Bson.init [(decimal 1, .bool true)]) [([97], .bool false)]) := by
    rw [table2bson_boolean hone (name_decimal 1) (decimal_ne_idName 1),
      table2bson_boolean htwo ha (by decide), table2bson]
  exact ⟨_, hrun, (given_back_iff hrun).mpr ⟨⟨by decide +kernel, by decide +kernel⟩, rfl⟩⟩

/-- A number and the string that is its text have one name, and the one that is read last takes the
place of the other. -/
theorem given_back_same :
    let t : LuaEntries := [(.number 1, .boolean true), (.string [49], .boolean false)]
    let doc : BsonDoc := [([49], .bool true), ([49], .bool false)]
    ∃ b, table2bson Bson.init false t = .ok b ∧ b.finish = some doc ∧
      bson2table false doc [] = .ok [(.number 1, .boolean false)] ∧
      ¬∃ doc t', b.finish = some doc ∧ bson2table false doc [] = .ok t' ∧
        BackAll false t doc t' := by
  intro t doc
  have hname : Name [49] := ⟨by decide, by decide +kernel⟩
  have hdecimal : decimal 1 = [49] := by
    rw [decimal]
    rfl
  have hone : elementKey false (.number 1) = .ok [49] := congrArg Except.ok hdecimal
  have htwo : elementKey false (.string [49]) = .ok [49] := rfl
  have hrun : table2bson Bson.init false t = .ok
      (extend (extend Bson.init [([49], .bool true)]) [([49], .bool false)]) := by
    rw [table2bson_boolean hone hname (by decide), table2bson_boolean htwo hname (by decide),
      table2bson]
  refine ⟨_, hrun, rfl, ?_, ?_⟩
  · rw [bson2table_cons (v := .boolean true) (by rw [elementValue]),
      bson2table_cons (v := .boolean false) (by rw [elementValue]), bson2table]
    rfl
  · rintro ⟨doc', t', hdoc, -, hback⟩
    obtain rfl := Option.some.inj hdoc
    have hback : BackAll false ((.number 1, .boolean true) :: [(.string [49], .boolean false)])
      (([49], .bool true) :: [([49], .bool false)]) t' := hback
    cases hback with
    | cons _ _ hname _ _ _ => exact hname List.mem_cons_self

end LuaMongo

end Catse
