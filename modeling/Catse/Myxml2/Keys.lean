import Catse.Lib.Constructor
import Catse.Myxml2.Preserves

/-!
# Keys of rows

When Lua reads the keys of the rows of a sheet as different values. `getVvs` compares the IDs as
texts. Lua computes with an ID of digits and hyphens, which `fillSheet` writes in brackets, so that
`1` and `01` are the same key (`keys_collide`), and an ID of ASCII characters must be a name. Keys
of different forms never have the same value, as the value tells the form (`valueForm_eq`), and
`fillSheet_keys_iff` is the condition form by form. An ID with a bracket in a bare key, or with a
quote of its own in a quoted one, can contain any expression, and nothing is known of it but what
Lua reads.
-/

namespace Catse.Myxml2

/-! ## Forms -/

/-- What `fillSheet` makes of an ID for Lua: a difference of numerals, a string, a name, or an
expression of the ID itself. -/
inductive KeyForm where
  | difference
  | string
  | name
  | expression
  deriving DecidableEq

/-- The form of the key of an ID. -/
def keyForm (id : List UInt8) : KeyForm :=
  if isStrDigit id then .difference
  else if hasChinese id then if quoted .none id = .other then .expression else .string
  else if 91 ∈ id then .expression
  else .name

/-- The value of a key by its form, which says nothing of an expression. -/
def keyValue (id : List UInt8) : Option KeyValue :=
  match keyForm id with
  | .difference => difference id
  | .string => (quoted .none id).key
  | .name => (keyName id).map .string
  | .expression => none

/-- The form that a value comes from. -/
def valueForm : KeyValue → KeyForm
  | .number _ => .difference
  | .infinite _ => .difference
  | .string s => if hasChinese s then .string else .name
  | .other _ => .expression

/-- What the forms say of an ID. -/
theorem keyForm_cases (id : List UInt8) :
    (keyForm id = .difference ∧ isStrDigit id = true) ∨
    (keyForm id = .string ∧ isStrDigit id = false ∧ hasChinese id = true ∧
      quoted .none id ≠ .other) ∨
    (keyForm id = .name ∧ isStrDigit id = false ∧ hasChinese id = false ∧ 91 ∉ id) ∨
    keyForm id = .expression := by
  unfold keyForm
  cases hdigit : isStrDigit id with
  | true => exact .inl ⟨rfl, rfl⟩
  | false =>
    cases hchinese : hasChinese id with
    | true =>
      by_cases hquoted : quoted .none id = .other
      · exact .inr (.inr (.inr (if_pos hquoted)))
      · exact .inr (.inl ⟨if_neg hquoted, rfl, rfl, hquoted⟩)
    | false =>
      by_cases hbracket : 91 ∈ id
      · exact .inr (.inr (.inr (if_pos hbracket)))
      · exact .inr (.inr (.inl ⟨if_neg hbracket, rfl, rfl, hbracket⟩))

theorem isDifference_of_isStrDigit {id : List UInt8} (h : isStrDigit id = true) :
    IsDifference id := by
  rw [isStrDigit, Bool.and_eq_true, List.all_eq_true] at h
  refine ⟨fun hnil => ?_, fun b hb => ?_⟩
  · rw [hnil] at h
    cases h.1
  · simpa using h.2 b hb

theorem ascii_of_not_hasChinese {s : List UInt8} (h : hasChinese s = false) : ∀ b ∈ s, b < 128 := by
  simpa [hasChinese] using h

theorem keyValue_of_difference {id : List UInt8} (h : keyForm id = .difference) :
    keyValue id = difference id := by
  unfold keyValue
  rw [h]

theorem keyValue_of_string {id : List UInt8} (h : keyForm id = .string) :
    keyValue id = (quoted .none id).key := by
  unfold keyValue
  rw [h]

theorem keyValue_of_name {id : List UInt8} (h : keyForm id = .name) :
    keyValue id = (keyName id).map .string := by
  unfold keyValue
  rw [h]

theorem quoted_ne_other {id : List UInt8} (h : keyForm id = .string) :
    quoted .none id ≠ .other := by
  obtain ⟨hform, -⟩ | ⟨-, -, -, hquoted⟩ | ⟨hform, -⟩ | hform := keyForm_cases id
  · exact absurd (h.symm.trans hform) (by decide)
  · exact hquoted
  · exact absurd (h.symm.trans hform) (by decide)
  · exact absurd (h.symm.trans hform) (by decide)

/-- Lua reads a key as its form says. -/
theorem lua_rowKey {lua : List UInt8 → Option KeyValue} (hlua : LuaReads lua) {id : List UInt8}
    (hid : keyForm id ≠ .expression) : lua (rowKey id) = keyValue id := by
  unfold rowKey
  obtain ⟨hform, hdigit⟩ | ⟨hform, hdigit, hchinese, hquoted⟩ |
    ⟨hform, hdigit, hchinese, hbracket⟩ | hform := keyForm_cases id
  · rw [keyValue_of_difference hform, if_pos hdigit]
    exact hlua.difference id (isDifference_of_isStrDigit hdigit)
  · rw [keyValue_of_string hform, if_neg (Bool.not_eq_true _ ▸ hdigit), if_pos hchinese]
    exact hlua.string id hquoted
  · rw [keyValue_of_name hform, if_neg (Bool.not_eq_true _ ▸ hdigit),
      if_neg (Bool.not_eq_true _ ▸ hchinese)]
    exact hlua.name id (ascii_of_not_hasChinese hchinese) hbracket
  · exact absurd hform hid

/-- What is not ASCII in the text between quotes is in the string. -/
theorem hasChinese_of_quoted {id t : List UInt8} (h : quoted .none id = .string t)
    (hid : hasChinese id = true) : hasChinese t = true := by
  obtain ⟨b, hb, hhigh⟩ := List.any_eq_true.mp hid
  have hhigh' : 128 ≤ b := by simpa using hhigh
  exact List.any_eq_true.mpr ⟨b, mem_of_quoted hhigh' h hb, hhigh⟩

/-- A value tells the form of its key: names are ASCII, and strings in quotes are not. -/
theorem valueForm_eq {id : List UInt8} {v : KeyValue} (h : keyValue id = some v) :
    valueForm v = keyForm id := by
  obtain ⟨hform, -⟩ | ⟨hform, -, hchinese, -⟩ | ⟨hform, -⟩ | hform := keyForm_cases id
  · rw [keyValue_of_difference hform] at h
    rw [hform]
    obtain ⟨n, rfl⟩ | ⟨b, rfl⟩ := number_of_difference h
    · rfl
    · rfl
  · rw [keyValue_of_string hform] at h
    obtain ⟨t, ht, rfl⟩ := Quoted.key_eq_some h
    exact (if_pos (hasChinese_of_quoted ht hchinese)).trans hform.symm
  · rw [keyValue_of_name hform] at h
    obtain ⟨n, hn, rfl⟩ := Option.map_eq_some_iff.mp h
    have hascii := ascii_of_isName (isName_of_keyName hn)
    have hn : hasChinese n = false := by simpa [hasChinese] using hascii
    exact (if_neg (Bool.not_eq_true _ ▸ hn)).trans hform.symm
  · unfold keyValue at h
    rw [hform] at h
    cases h

/-! ## Sheets -/

/-- Every row that is written has a key, and no two rows have the same. -/
structure KeysDiffer (lua : List UInt8 → Option KeyValue) (d : SheetDef) : Prop where
  valid : ∀ x ∈ d, (lua x.1).isSome
  distinct : (d.map fun x => lua x.1).Nodup

/-- IDs that are different for Lua. Two differences that are the same number, two texts in quotes
that are the same string by their escapes, or two names that are the same without white space and
comments, are one key. -/
structure Distinguished (lua : List UInt8 → Option KeyValue) (ids : List (List UInt8)) : Prop where
  nodup : ids.Nodup
  differences : ∀ id ∈ ids, keyForm id = .difference → (difference id).isSome
  strings : ∀ id ∈ ids, keyForm id = .string → quoted .none id ≠ .invalid
  names : ∀ id ∈ ids, keyForm id = .name → (keyName id).isSome
  numbers : ∀ x ∈ ids, ∀ y ∈ ids, keyForm x = .difference → keyForm y = .difference →
    difference x = difference y → x = y
  spellings : ∀ x ∈ ids, ∀ y ∈ ids, keyForm x = .string → keyForm y = .string →
    quoted .none x = quoted .none y → x = y
  namesakes : ∀ x ∈ ids, ∀ y ∈ ids, keyForm x = .name → keyForm y = .name →
    keyName x = keyName y → x = y
  expressions : ∀ id ∈ ids, keyForm id = .expression → (lua (rowKey id)).isSome
  apart : ∀ x ∈ ids, ∀ y ∈ ids, keyForm x = .expression →
    lua (rowKey x) = lua (rowKey y) → x = y

/-- The keys that `fillSheet` writes are those of the first column. -/
theorem fillSheet_keys {c : Context} {shareRows : List ShareRow} {shareCells : List StrPtr}
    {targetIndexs : Option (ℕ → ℤ)} {s : Sheet} {d : SheetDef}
    (h : c.fillSheet shareRows shareCells targetIndexs s = some d) :
    d.map Prod.fst = (s.ids.map c.text).map rowKey := by
  let value := fun i => c.rowOut shareRows shareCells targetIndexs (s.rowAt i)
  let key := fun i => rowKey (c.text (s.vvs i 0))
  have hall : (upFrom 2 s.n).map (fun i => (value i).map fun v => (key i, v)) = d.map some :=
    mapAll_eq_some_iff.mp h
  have hkey : ∀ i ∈ upFrom 2 s.n,
      ((value i).map fun v => (key i, v)).map Prod.fst = some (key i) := by
    intro i hi
    obtain ⟨x, hx⟩ := isSome_of_mapAll h i hi
    obtain ⟨v, hv, -⟩ := Option.map_eq_some_iff.mp hx
    show ((value i).map fun v => (key i, v)).map Prod.fst = _
    rw [show value i = some v from hv, Option.map_some, Option.map_some]
  have hsome : (d.map Prod.fst).map some = ((upFrom 2 s.n).map key).map some :=
    calc (d.map Prod.fst).map some
      _ = (d.map some).map (Option.map Prod.fst) := by
        rw [List.map_map, List.map_map]
        rfl
      _ = (upFrom 2 s.n).map fun i => ((value i).map fun v => (key i, v)).map Prod.fst := by
        rw [← hall, List.map_map]
        rfl
      _ = ((upFrom 2 s.n).map key).map some := by
        rw [List.map_map]
        exact List.map_congr_left hkey
  rw [List.map_injective_iff.mpr (Option.some_injective _) hsome, Sheet.ids, List.map_map,
    List.map_map]
  rfl

/-- The values of the keys. -/
theorem fillSheet_values {c : Context} {shareRows : List ShareRow} {shareCells : List StrPtr}
    {targetIndexs : Option (ℕ → ℤ)} {s : Sheet} {d : SheetDef}
    (h : c.fillSheet shareRows shareCells targetIndexs s = some d)
    (lua : List UInt8 → Option KeyValue) :
    (d.map fun x => lua x.1) = (s.ids.map c.text).map fun id => lua (rowKey id) :=
  calc (d.map fun x => lua x.1)
    _ = (d.map Prod.fst).map lua := List.map_map.symm
    _ = ((s.ids.map c.text).map rowKey).map lua := by rw [fillSheet_keys h]
    _ = (s.ids.map c.text).map fun id => lua (rowKey id) := List.map_map

variable {lua : List UInt8 → Option KeyValue} (hlua : LuaReads lua)

include hlua

/-- The keys that Lua reads, form by form. -/
theorem valid_iff {ids : List (List UInt8)} :
    (∀ id ∈ ids, (lua (rowKey id)).isSome) ↔
      (∀ id ∈ ids, keyForm id = .difference → (difference id).isSome) ∧
      (∀ id ∈ ids, keyForm id = .string → quoted .none id ≠ .invalid) ∧
      (∀ id ∈ ids, keyForm id = .name → (keyName id).isSome) ∧
      ∀ id ∈ ids, keyForm id = .expression → (lua (rowKey id)).isSome := by
  -- What a key of each form is read as.
  have hdifference : ∀ {id : List UInt8}, keyForm id = .difference →
      ((lua (rowKey id)).isSome ↔ (difference id).isSome) := by
    intro id hform
    rw [lua_rowKey hlua (by rw [hform]; decide), keyValue_of_difference hform]
  have hstring : ∀ {id : List UInt8}, keyForm id = .string →
      ((lua (rowKey id)).isSome ↔ quoted .none id ≠ .invalid) := by
    intro id hform
    rw [lua_rowKey hlua (by rw [hform]; decide), keyValue_of_string hform]
    exact Quoted.isSome_key (quoted_ne_other hform)
  have hname : ∀ {id : List UInt8}, keyForm id = .name →
      ((lua (rowKey id)).isSome ↔ (keyName id).isSome) := by
    intro id hform
    rw [lua_rowKey hlua (by rw [hform]; decide), keyValue_of_name hform, Option.isSome_map]
  constructor
  · intro h
    exact ⟨fun id hid hform => (hdifference hform).mp (h id hid),
      fun id hid hform => (hstring hform).mp (h id hid),
      fun id hid hform => (hname hform).mp (h id hid), fun id hid _ => h id hid⟩
  · rintro ⟨hdifferences, hstrings, hnames, hexpressions⟩ id hid
    cases hform : keyForm id with
    | difference => exact (hdifference hform).mpr (hdifferences id hid hform)
    | string => exact (hstring hform).mpr (hstrings id hid hform)
    | name => exact (hname hform).mpr (hnames id hid hform)
    | expression => exact hexpressions id hid hform

/-- The keys that differ, where there are any: those of one form by their values, and an expression
from every other key. -/
theorem distinct_iff {ids : List (List UInt8)} (hvalid : ∀ id ∈ ids, (lua (rowKey id)).isSome) :
    (∀ x ∈ ids, ∀ y ∈ ids, lua (rowKey x) = lua (rowKey y) → x = y) ↔
      (∀ x ∈ ids, ∀ y ∈ ids, keyForm x = .difference → keyForm y = .difference →
        difference x = difference y → x = y) ∧
      (∀ x ∈ ids, ∀ y ∈ ids, keyForm x = .string → keyForm y = .string →
        quoted .none x = quoted .none y → x = y) ∧
      (∀ x ∈ ids, ∀ y ∈ ids, keyForm x = .name → keyForm y = .name →
        keyName x = keyName y → x = y) ∧
      ∀ x ∈ ids, ∀ y ∈ ids, keyForm x = .expression →
        lua (rowKey x) = lua (rowKey y) → x = y := by
  have hread : ∀ {id : List UInt8} {k : KeyForm}, keyForm id = k → k ≠ .expression →
      lua (rowKey id) = keyValue id := fun hform hne => lua_rowKey hlua (hform ▸ hne)
  constructor
  · intro h
    refine ⟨fun x hx y hy hxf hyf hxy => h x hx y hy ?_,
      fun x hx y hy hxf hyf hxy => h x hx y hy ?_, fun x hx y hy hxf hyf hxy => h x hx y hy ?_,
      fun x hx y hy _ hxy => h x hx y hy hxy⟩
    · rw [hread hxf (by decide), hread hyf (by decide), keyValue_of_difference hxf,
        keyValue_of_difference hyf, hxy]
    · rw [hread hxf (by decide), hread hyf (by decide), keyValue_of_string hxf,
        keyValue_of_string hyf, hxy]
    · rw [hread hxf (by decide), hread hyf (by decide), keyValue_of_name hxf,
        keyValue_of_name hyf, hxy]
  · rintro ⟨hnumbers, hspellings, hnamesakes, hapart⟩ x hx y hy hxy
    by_cases hxe : keyForm x = .expression
    · exact hapart x hx y hy hxe hxy
    by_cases hye : keyForm y = .expression
    · exact (hapart y hy x hx hye hxy.symm).symm
    obtain ⟨v, hv⟩ := Option.isSome_iff_exists.mp (hvalid x hx)
    have hxv : keyValue x = some v := by rw [← lua_rowKey hlua hxe, hv]
    have hyv : keyValue y = some v := by rw [← lua_rowKey hlua hye, ← hxy, hv]
    -- The value that they share tells that the form is the same.
    have hforms : keyForm y = keyForm x := (valueForm_eq hyv).symm.trans (valueForm_eq hxv)
    cases hform : keyForm x with
    | difference =>
      rw [hform] at hforms
      rw [keyValue_of_difference hform] at hxv
      rw [keyValue_of_difference hforms] at hyv
      exact hnumbers x hx y hy hform hforms (hxv.trans hyv.symm)
    | string =>
      rw [hform] at hforms
      rw [keyValue_of_string hform] at hxv
      rw [keyValue_of_string hforms] at hyv
      obtain ⟨t, ht, rfl⟩ := Quoted.key_eq_some hxv
      obtain ⟨u, hu, htu⟩ := Quoted.key_eq_some hyv
      cases htu
      exact hspellings x hx y hy hform hforms (ht.trans hu.symm)
    | name =>
      rw [hform] at hforms
      rw [keyValue_of_name hform] at hxv
      rw [keyValue_of_name hforms] at hyv
      refine hnamesakes x hx y hy hform hforms ?_
      exact Option.map_injective (fun _ _ h => KeyValue.string.inj h) (hxv.trans hyv.symm)
    | expression => exact absurd hform hxe

/-- The rows of a sheet have keys that differ in Lua exactly if its IDs are distinguished. -/
theorem fillSheet_keys_iff {c : Context} {shareRows : List ShareRow} {shareCells : List StrPtr}
    {targetIndexs : Option (ℕ → ℤ)} {s : Sheet} {d : SheetDef}
    (h : c.fillSheet shareRows shareCells targetIndexs s = some d) :
    KeysDiffer lua d ↔ Distinguished lua (s.ids.map c.text) := by
  have hvalues := fillSheet_values h lua
  have hvalid : (∀ x ∈ d, (lua x.1).isSome) ↔
      ∀ id ∈ s.ids.map c.text, (lua (rowKey id)).isSome := by
    rw [← List.forall_mem_map (f := fun x : List UInt8 × RowOut => lua x.1)
      (P := fun v => v.isSome = true), hvalues, List.forall_mem_map]
  constructor
  · rintro ⟨hsome, hnodup⟩
    rw [hvalues] at hnodup
    rw [hvalid] at hsome
    obtain ⟨hdifferences, hstrings, hnames, hexpressions⟩ := (valid_iff hlua).mp hsome
    obtain ⟨hnumbers, hspellings, hnamesakes, hapart⟩ :=
      (distinct_iff hlua hsome).mp fun x hx y hy hxy => List.inj_on_of_nodup_map hnodup hx hy hxy
    exact ⟨.of_map _ hnodup, hdifferences, hstrings, hnames, hnumbers, hspellings, hnamesakes,
      hexpressions, hapart⟩
  · intro hids
    have hsome := (valid_iff hlua).mpr
      ⟨hids.differences, hids.strings, hids.names, hids.expressions⟩
    have hinj := (distinct_iff hlua hsome).mpr
      ⟨hids.numbers, hids.spellings, hids.namesakes, hids.apart⟩
    refine ⟨hvalid.mpr hsome, ?_⟩
    rw [hvalues]
    exact hids.nodup.map_on hinj

omit hlua

/-! ## Numbers that are written in two ways -/

/-- A workbook of one sheet, whose two rows have the given IDs. -/
def numbered (x y : String) : Workbook where
  workbook := [⟨.sheet, [], [bytes "A"]⟩]
  sharedStrings := [x, y, "id", "x", "plain", "5"].flatMap fun s =>
    [⟨.si, [], []⟩, ⟨.t, bytes s, []⟩]
  worksheet := fun _ =>
    sharedCell "A1" "2" ++ sharedCell "B1" "4" ++ sharedCell "A2" "2" ++ sharedCell "B2" "3" ++
    sharedCell "A3" "2" ++ sharedCell "A4" "0" ++ sharedCell "B4" "5" ++ sharedCell "A5" "1" ++
    sharedCell "B5" "5"

/-- The rows have these IDs, and `fillSheet` writes them. -/
def numberedWritten (x y : String) : Bool :=
  match firstVvs (numbered x y) with
  | some (_, _, sheet, s') =>
    decide (sheet.ids.map s'.intern.textOf = [bytes x, bytes y]) &&
      ((Context.ofIntern Addresses.below s'.intern).fillSheet [] [] none sheet).isSome
  | none => false

theorem exists_numbered {x y : String} (h : numberedWritten x y = true) :
    ∃ vs s sheet s' d, firstVvs (numbered x y) = some (vs, s, sheet, s') ∧
      sheet.ids.map s'.intern.textOf = [bytes x, bytes y] ∧
      (Context.ofIntern Addresses.below s'.intern).fillSheet [] [] none sheet = some d := by
  unfold numberedWritten at h
  cases hfirst : firstVvs (numbered x y) with
  | none =>
    rw [hfirst] at h
    cases h
  | some r =>
    obtain ⟨vs, s, sheet, s'⟩ := r
    rw [hfirst] at h
    obtain ⟨hids, hsome⟩ := (Bool.and_eq_true _ _).mp h
    obtain ⟨d, hd⟩ := Option.isSome_iff_exists.mp hsome
    exact ⟨vs, s, sheet, s', d, rfl, of_decide_eq_true hids, hd⟩

/-- The texts `1` and `01` are different IDs and one key. -/
theorem keys_collide : ∃ vs s sheet s' d, firstVvs (numbered "1" "01") = some (vs, s, sheet, s') ∧
    (sheet.ids.map s'.intern.textOf).Nodup ∧
    (Context.ofIntern Addresses.below s'.intern).fillSheet [] [] none sheet = some d ∧
    ∀ lua, LuaReads lua → ¬KeysDiffer lua d := by
  have hwritten : numberedWritten "1" "01" = true := by decide +kernel
  obtain ⟨vs, s, sheet, s', d, hfirst, hids, hd⟩ := exists_numbered hwritten
  refine ⟨vs, s, sheet, s', d, hfirst, ?_, hd, fun lua hlua hdiffer => ?_⟩
  · rw [hids]
    decide
  · have hvalues := hdiffer.distinct
    have htext : sheet.ids.map (Context.ofIntern Addresses.below s'.intern).text =
      [bytes "1", bytes "01"] := hids
    rw [fillSheet_values hd lua, htext, List.map_cons, List.map_cons, List.map_nil,
      lua_rowKey hlua (by decide), lua_rowKey hlua (by decide)] at hvalues
    have hsame : keyValue (bytes "1") = keyValue (bytes "01") := by decide +kernel
    rw [hsame] at hvalues
    exact absurd List.mem_cons_self (List.nodup_cons.mp hvalues).1

/-- A difference and a string with an escape are two keys. -/
theorem fillSheet_keys_difference_string : ∃ vs s sheet s' d,
    firstVvs (numbered "1-2" "é\\65") = some (vs, s, sheet, s') ∧
    (Context.ofIntern Addresses.below s'.intern).fillSheet [] [] none sheet = some d ∧
    KeysDiffer plainKeys d := by
  have hwritten : numberedWritten "1-2" "é\\65" = true := by decide +kernel
  obtain ⟨vs, s, sheet, s', d, hfirst, hids, hd⟩ := exists_numbered hwritten
  refine ⟨vs, s, sheet, s', d, hfirst, hd, ?_⟩
  have htext : sheet.ids.map (Context.ofIntern Addresses.below s'.intern).text =
    [bytes "1-2", bytes "é\\65"] := hids
  rw [fillSheet_keys_iff plainKeys_reads hd, htext]
  exact ⟨by decide, by decide +kernel, by decide, by decide, by decide +kernel, by decide,
    by decide, by decide, by decide⟩

end Catse.Myxml2
