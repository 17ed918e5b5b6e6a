import Catse.Myxml2.ShareTables

/-!
# Fields and language columns

What a row is once nothing in it is shared: `fieldText` is a field and `rowText` a row, for the
columns of its sheet (`Context.targets`) or, as in `shareRow`, for every column. The two ways to
write a row agree on rows that no argument affects, and on no others (`rowText_targets`,
`unaffected_of_rowText`). Two types write a cell alike when they are `SameText` for it.
-/

namespace Catse.Myxml2

/-! ## Columns -/

/-- A column whose name has a suffix is marked. -/
def Context.HasSuffix (c : Context) (name : StrPtr) : Prop := isFixPatternNameR (c.text name) ≠ 0

/-- The arguments change nothing in a row: they are no suffixes, or the row has no column with a
suffix. -/
def Context.Unaffected (c : Context) (argv4 argv5 : Option (List UInt8)) (r : ShareRow) : Prop :=
  (isFixPatternName argv4 = false ∧ isFixPatternName argv5 = false) ∨ ∀ j ∈ upFrom 1 r.m,
    ¬c.HasSuffix (r.name j)

section

variable {text : StrPtr → List UInt8} {rnames : ℕ → StrPtr} {m i j : ℕ} {t : ℕ → ℤ}

/-- What marking comes to. -/
theorem markColumns_eq (j : ℕ) :
    markColumns text rnames m t j =
      if j ∈ upFrom 1 m ∧ 0 < isFixPatternNameR (text (rnames j))
        then -(isFixPatternNameR (text (rnames j)) : ℤ) else t j :=
  foldl_update (fun i _ => 0 < isFixPatternNameR (text (rnames i)))
    (fun i => -(isFixPatternNameR (text (rnames i)) : ℤ)) (nodup_upFrom 1 m) t j

/-- What replacing comes to. -/
theorem replaceColumns_eq (pname : List UInt8) (i j : ℕ) :
    replaceColumns text pname rnames m i t j =
      if j ∈ upFrom 1 m ∧ 0 < t j ∧ isFixPatternNameL (text (rnames j)) (text (rnames i)) pname
        then (i : ℤ) else t j :=
  foldl_update (fun j x => 0 < x ∧ isFixPatternNameL (text (rnames j)) (text (rnames i)) pname)
    (fun _ => (i : ℤ)) (nodup_upFrom 1 m) t j

/-- Marking leaves a column without a suffix as it is. -/
theorem markColumns_of_eq_zero (h : isFixPatternNameR (text (rnames j)) = 0) :
    markColumns text rnames m t j = t j := by
  rw [markColumns_eq, h, if_neg fun h => lt_irrefl 0 h.2]

/-- A column that has been dropped stays so, whatever marks it. -/
theorem markColumns_neg (h : t j < 0) : markColumns text rnames m t j < 0 := by
  rw [markColumns_eq]
  split_ifs
  · omega
  · exact h

/-- A column with a suffix is dropped. -/
theorem markColumns_suffix (hj : j ∈ upFrom 1 m) (h : isFixPatternNameR (text (rnames j)) ≠ 0) :
    markColumns text rnames m t j < 0 := by
  rw [markColumns_eq, if_pos ⟨hj, Nat.pos_of_ne_zero h⟩]
  omega

/-- Replacing touches columns that are written only. -/
theorem replaceColumns_neg {pname : List UInt8} (h : t j < 0) :
    replaceColumns text pname rnames m i t j < 0 := by
  rw [replaceColumns_eq, if_neg fun hpos => absurd hpos.2.1 h.asymm]
  exact h

/-- A column that has been dropped is not taken up again. -/
theorem solvePattern_neg {targetName : List UInt8} (h : markColumns text rnames m t j < 0) :
    solvePattern text targetName rnames m t j < 0 := by
  unfold solvePattern
  split_ifs with htarget
  · refine List.foldlRecOn (motive := fun t' : ℕ → ℤ => t' j < 0) _ _ h fun t' ht' i _ => ?_
    split_ifs with hi
    · exact replaceColumns_neg ht'
    · exact ht'
  · exact h

/-- When no column has a suffix, the columns stay as they are. -/
theorem solvePattern_of_eq_zero {targetName : List UInt8}
    (h : ∀ j ∈ upFrom 1 m, isFixPatternNameR (text (rnames j)) = 0)
    (ht : ∀ j ∈ upFrom 1 m, t j = j) :
    ∀ j ∈ upFrom 1 m, solvePattern text targetName rnames m t j = j := by
  have hmarked : ∀ j ∈ upFrom 1 m, markColumns text rnames m t j = j := by
    intro j hj
    rw [markColumns_of_eq_zero (h j hj)]
    exact ht j hj
  unfold solvePattern
  split_ifs with htarget
  · refine List.foldlRecOn (motive := fun t' : ℕ → ℤ => ∀ j ∈ upFrom 1 m, t' j = j) _ _ hmarked
      fun t' ht' i hi => ?_
    -- A column that is written has no mark.
    have hpos := (mem_upFrom.mp hi).1
    have hi' := ht' i hi
    rw [if_neg (by omega)]
    exact ht'
  · exact hmarked

end

/-- A row that no argument affects is written column by column. -/
theorem Context.Unaffected.targets {c : Context} {argv4 argv5 : Option (List UInt8)} {s : Sheet}
    {i j : ℕ} (h : c.Unaffected argv4 argv5 (s.rowAt i)) (hj : j ∈ upFrom 1 s.m) :
    c.targets argv4 argv5 s j = j := by
  rcases h with ⟨h4, h5⟩ | hnone
  · -- No argument is a suffix.
    have hskip : ∀ arg t,
      isFixPatternName arg = false → applySuffix c.text (s.vvs 1) s.m arg t = t := by
      intro arg t harg
      cases arg with
      | none => rfl
      | some name =>
        rw [applySuffix, harg]
        rfl
    rw [Context.targets, hskip _ _ h5, hskip _ _ h4]
  · -- No column has a suffix.
    have happly : ∀ arg t, (∀ j ∈ upFrom 1 s.m, t j = (j : ℤ)) →
        ∀ j ∈ upFrom 1 s.m, applySuffix c.text (s.vvs 1) s.m arg t j = j := by
      intro arg t ht
      cases arg with
      | none => exact ht
      | some name =>
        rw [applySuffix]
        split_ifs
        · exact solvePattern_of_eq_zero (fun j hj => not_not.mp (hnone j hj)) ht
        · exact ht
    exact happly argv5 _ (happly argv4 _ fun _ _ => rfl) j hj

/-- A row that an argument affects has a column that is dropped. -/
theorem Context.exists_dropped {c : Context} {argv4 argv5 : Option (List UInt8)} {s : Sheet} {i : ℕ}
    (h : ¬c.Unaffected argv4 argv5 (s.rowAt i)) :
    ∃ j ∈ upFrom 1 s.m, c.targets argv4 argv5 s j < 0 := by
  obtain ⟨harg, hsuffix⟩ := not_or.mp h
  obtain ⟨j, hsuffix⟩ := not_forall.mp hsuffix
  obtain ⟨hj, hname⟩ := Classical.not_imp.mp hsuffix
  have hname : isFixPatternNameR (c.text (s.vvs 1 j)) ≠ 0 := not_not.mp hname
  have hdrop : ∀ arg t,
    isFixPatternName arg = true → applySuffix c.text (s.vvs 1) s.m arg t j < 0 := by
    intro arg t hfix
    cases arg with
    | none => cases hfix
    | some name =>
      rw [applySuffix, if_pos hfix]
      exact solvePattern_neg (markColumns_suffix hj hname)
  have hstay : ∀ arg t, t j < 0 → applySuffix c.text (s.vvs 1) s.m arg t j < 0 := by
    intro arg t ht
    cases arg with
    | none => exact ht
    | some name =>
      rw [applySuffix]
      split_ifs
      · exact solvePattern_neg (markColumns_neg ht)
      · exact ht
  refine ⟨j, hj, ?_⟩
  cases h5 : isFixPatternName argv5 with
  | true => exact hdrop argv5 _ h5
  | false =>
    have h4 : isFixPatternName argv4 = true := by
      by_contra h4
      exact harg ⟨Bool.not_eq_true _ ▸ h4, h5⟩
    exact hstay argv5 _ (hdrop argv4 _ h4)

/-! ## The columns that are written -/

namespace Context

variable (c : Context)

/-- Without targets every column is written. -/
theorem written_none (r : ShareRow) : c.written none r = (upFrom 1 r.m).map fun j => (j, j) := by
  rw [written, ← List.filterMap_eq_map]
  apply List.filterMap_congr
  intro j hj
  have hpos := (mem_upFrom.mp hj).1
  have hsource : c.sourceColumn none r.row j = j := by
    unfold sourceColumn
    exact ite_self _
  rw [hsource, if_pos (by omega)]
  rfl

/-- Targets that are the columns themselves change nothing. -/
theorem written_of_eq {f : ℕ → ℤ} {r : ShareRow} (h : ∀ j ∈ upFrom 1 r.m, f j = j) :
    c.written (some f) r = c.written none r := by
  apply List.filterMap_congr
  intro j hj
  have hsource : c.sourceColumn (some f) r.row j = c.sourceColumn none r.row j := by
    unfold sourceColumn
    dsimp only
    rw [h j hj]
  rw [hsource]

/-- With a column that is dropped, there are fewer. -/
theorem length_written_lt {f : ℕ → ℤ} {r : ShareRow} (h : ∃ j ∈ upFrom 1 r.m, f j < 0) :
    (c.written (some f) r).length < (c.written none r).length := by
  obtain ⟨j, hj, hneg⟩ := h
  rw [c.written_none, List.length_map, written]
  refine lt_of_le_of_ne (List.length_filterMap_le _ _) fun heq => ?_
  rw [List.filterMap_length_eq_length] at heq
  have hsome := heq j hj
  have hsource : c.sourceColumn (some f) r.row j = f j := by
    unfold sourceColumn
    exact if_neg fun h => absurd h.1 hneg.asymm
  rw [hsource, if_neg hneg.asymm] at hsome
  cases hsome

end Context

/-! ## Fields and rows -/

/-- Two types write a cell alike. -/
def Context.SameText (c : Context) (cell : StrPtr) : StrPtr → StrPtr → Prop
  | .fix .number, .fix .plain => c.number (c.text cell) = c.text cell
  | .fix .plain, .fix .number => c.number (c.text cell) = c.text cell
  | .fix .table, .fix .tbstr => True
  | .fix .tbstr, .fix .table => True
  | t, u => t = u

namespace Context

variable (c : Context)

/-- A field. -/
def fieldText (varType cell : StrPtr) : Option (List UInt8) :=
  match varType with
  | .fix .number => some (c.number (c.text cell))
  | .fix .plain => some (c.text cell)
  | .fix .string => some (bytes "[[" ++ c.text cell ++ bytes "]]")
  | .fix _ => some (fillTb (c.text cell))
  | .buf _ => none

/-- A row. -/
def rowText (targetIndexs : Option (ℕ → ℤ)) (r : ShareRow) : Option RowTable :=
  mapAll (fun x => (c.fieldText (r.varType x.2) (r.row x.2)).map fun v =>
    (fieldKey (c.text (r.name x.1)), some v))
    (c.written targetIndexs r)

/-- A number is neither a string nor a table. -/
theorem number_ne_cons (text rest : List UInt8) {x : UInt8} (hx : x = 91 ∨ x = 123) :
    c.number text ≠ x :: rest := by
  obtain ⟨d, t, hnumber, hd⟩ := c.number_first text
  rw [hnumber]
  intro h
  have hdx : d = x := (List.cons.inj h).1
  subst hdx
  rcases hx with rfl | rfl
  · exact absurd hd (by decide)
  · exact absurd hd (by decide)

/-- Types are alike for a cell when they write the same. -/
theorem sameText_iff (t u : VarType) (cell : StrPtr) :
    c.SameText cell (.fix t) (.fix u) ↔ c.fieldText (.fix t) cell = c.fieldText (.fix u) cell := by
  have hplain_string : ∀ s : List UInt8, s ≠ bytes "[[" ++ s ++ bytes "]]" := by
    intro s h
    have hlen := congrArg List.length h
    rw [List.length_append, List.length_append] at hlen
    have hpos : 0 < (bytes "[[").length := by decide
    omega
  have hplain_table : ∀ s : List UInt8, s ≠ fillTb s := by
    intro s h
    have hlen := congrArg List.length h
    rw [fillTb, List.length_cons, List.length_append] at hlen
    omega
  have hstring_table : ∀ s : List UInt8, bytes "[[" ++ s ++ bytes "]]" ≠ fillTb s := by
    intro s h
    have hhead : (91 : UInt8) = 123 := (List.cons.inj h).1
    exact absurd hhead (by decide)
  have hstring_number : ∀ s : List UInt8, bytes "[[" ++ s ++ bytes "]]" ≠ c.number s :=
    fun s => (c.number_ne_cons s _ (.inl rfl)).symm
  have htable_number : ∀ s : List UInt8, fillTb s ≠ c.number s :=
    fun s => (c.number_ne_cons s _ (.inr rfl)).symm
  cases t <;> cases u <;>
    simp only [SameText, fieldText, Option.some.injEq, StrPtr.fix.injEq, reduceCtorEq,
      hplain_string, hplain_table,
      hstring_table, hstring_number, htable_number, eq_comm]

/-- A cell is written alike, then, in columns of types that are alike. -/
theorem fieldText_of_sameText {t u cell : StrPtr} {v : List UInt8} (h : c.SameText cell t u)
    (hu : c.fieldText u cell = some v) : c.fieldText t cell = some v := by
  cases u with
  | buf q => cases hu
  | fix u =>
    cases t with
    | fix t => exact ((c.sameText_iff t u cell).mp h).trans hu
    | buf p =>
      have heq : StrPtr.buf p = .fix u := h
      cases heq

theorem sameText_of_fieldText {t u cell : StrPtr} {v : List UInt8}
    (ht : c.fieldText t cell = some v)
    (hu : c.fieldText u cell = some v) : c.SameText cell t u := by
  cases t with
  | buf p => cases ht
  | fix t =>
    cases u with
    | buf q => cases hu
    | fix u => exact (c.sameText_iff t u cell).mpr (ht.trans hu.symm)

/-- The field of a column in a row that is written column by column. -/
def columnText (r : ShareRow) (j : ℕ) : Option (List UInt8 × Option (List UInt8)) :=
  (c.fieldText (r.varType j) (r.row j)).map fun v => (fieldKey (c.text (r.name j)), some v)

theorem rowText_none (r : ShareRow) :
    c.rowText none r = mapAll (c.columnText r) (upFrom 1 r.m) := by
  rw [rowText, written_none, mapAll_map]
  rfl

/-- Same rows that are written the same have types that are alike. -/
theorem sameText_of_rowText {x y : ShareRow} {d : RowTable} (h : x.Same y)
    (hx : c.rowText none x = some d) (hy : c.rowText none y = some d) :
    ∀ j ∈ upFrom 1 x.m, c.SameText (x.row j) (x.varType j) (y.varType j) := by
  intro j hj
  rw [rowText_none] at hx hy
  rw [← h.m] at hy
  have hcolumn : c.columnText x j = c.columnText y j := eq_of_mapAll hx hy j hj
  obtain ⟨w, hw⟩ := isSome_of_mapAll hx j hj
  obtain ⟨v, hv, rfl⟩ := Option.map_eq_some_iff.mp hw
  obtain ⟨v', hv', heq⟩ := Option.map_eq_some_iff.mp (hcolumn.symm.trans hw)
  have hvv : v' = v := Option.some.inj (Prod.mk.inj heq).2
  rw [← h.row j hj, hvv] at hv'
  exact c.sameText_of_fieldText hv hv'

/-- Same rows with types that are alike are written the same. -/
theorem rowText_of_sameText {x y : ShareRow} {d : RowTable} (h : x.Same y)
    (htypes : ∀ j ∈ upFrom 1 x.m, c.SameText (x.row j) (x.varType j) (y.varType j))
    (hy : c.rowText none y = some d) : c.rowText none x = some d := by
  rw [rowText_none] at hy ⊢
  rw [← h.m] at hy
  rw [← hy]
  apply mapAll_congr
  intro j hj
  obtain ⟨w, hw⟩ := isSome_of_mapAll hy j hj
  obtain ⟨v, hv, -⟩ := Option.map_eq_some_iff.mp hw
  have hv' : c.fieldText (x.varType j) (x.row j) = some v := by
    apply c.fieldText_of_sameText (htypes j hj)
    rw [h.row j hj]
    exact hv
  rw [columnText, columnText, hv, hv', h.name j hj]

section

variable {argv4 argv5 : Option (List UInt8)} {s : Sheet} {i : ℕ}

/-- A row that no argument affects is written as in `shareRow`. -/
theorem rowText_targets (h : c.Unaffected argv4 argv5 (s.rowAt i)) :
    c.rowText (some (c.targets argv4 argv5 s)) (s.rowAt i) = c.rowText none (s.rowAt i) := by
  have hwritten : c.written (some (c.targets argv4 argv5 s)) (s.rowAt i) =
    c.written none (s.rowAt i) :=
    c.written_of_eq fun j hj => h.targets hj
  rw [rowText, rowText, hwritten]

/-- A row that is written as in `shareRow` is one that no argument affects. -/
theorem unaffected_of_rowText {x : ShareRow} {d : RowTable} (hm : x.m = s.m)
    (h : c.rowText (some (c.targets argv4 argv5 s)) (s.rowAt i) = some d)
    (hx : c.rowText none x = some d) :
    c.Unaffected argv4 argv5 (s.rowAt i) := by
  by_contra haffected
  have hfewer := c.length_written_lt (r := s.rowAt i) (exists_dropped haffected)
  have hlen : d.length = (c.written (some (c.targets argv4 argv5 s)) (s.rowAt i)).length :=
    length_of_mapAll h
  have hall : d.length = (c.written none x).length := length_of_mapAll hx
  rw [written_none, List.length_map] at hall hfewer
  rw [hm] at hall
  have hrow : (s.rowAt i).m = s.m := rfl
  rw [hrow] at hfewer
  omega

end

end Context

end Catse.Myxml2
