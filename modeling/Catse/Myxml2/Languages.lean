import Catse.Myxml2.Columns
import Catse.Myxml2.Duplicates

/-!
# Language columns

What the suffix of a language does to the rows of a sheet. A column whose name ends in a suffix is
the translation of the column of the name without it. `languageSheet` says what is to be written for
a language: the columns without a suffix, each with the value of its translation where there is one.
`fillSheet` works with the marks of `solvePattern` instead. The suffixes do not end in one another
(`suffix_unique`), so a name has one mark at most, and when names are different a column has one
translation at most (`fillSheet_language`).
-/

namespace Catse.Myxml2

/-! ## Names and suffixes -/

/-- The names of the languages. -/
def suffixes : List (List UInt8) := patternNames.tail

/-- The name ends in a suffix. -/
def EndsInSuffix (name : List UInt8) : Prop := ∃ p ∈ suffixes, p <:+ name

instance (name : List UInt8) : Decidable (EndsInSuffix name) :=
  inferInstanceAs (Decidable (∃ p ∈ suffixes, p <:+ name))

theorem ne_nil_of_mem_suffixes : ∀ p ∈ suffixes, p ≠ [] := by decide

/-- A name does not end in two suffixes. -/
theorem suffix_unique {p q name : List UInt8} (hp : p ∈ suffixes) (hq : q ∈ suffixes)
    (hpn : p <:+ name) (hqn : q <:+ name) : p = q := by
  have hall : ∀ p ∈ suffixes, ∀ q ∈ suffixes, p <:+ q → p = q := by decide
  rcases List.suffix_or_suffix_of_suffix hpn hqn with h | h
  · exact hall p hp q hq h
  · exact (hall q hq p hp h).symm

/-- Characters that are compared one by one. -/
theorem all_range_iff {a b : List UInt8} {n : ℕ} (ha : a.length = n) (hb : b.length = n) :
    ((List.range n).all fun k => a[k]? = b[k]?) = true ↔ a = b := by
  rw [List.all_eq_true]
  constructor
  · intro h
    apply List.ext_getElem?
    intro k
    by_cases hk : k < n
    · exact of_decide_eq_true (h k (List.mem_range.mpr hk))
    · rw [List.getElem?_eq_none (by omega), List.getElem?_eq_none (by omega)]
  · rintro rfl k -
    exact decide_eq_true rfl

/-- A comparison that stays within both strings. -/
theorem myStringCmp_within {s u : List UInt8} {i n j : ℕ} (hs : i + n + 1 ≤ s.length)
    (hu : j + n + 1 ≤ u.length) :
    myStringCmp s i (i + n) u j (j + n) = true ↔
      (s.drop i).take (n + 1) = (u.drop j).take (n + 1) := by
  have hs' : sizeLe s.length ((i : ℤ) + n) = false := decide_eq_false (by omega)
  have hu' : sizeLe u.length ((j : ℤ) + n) = false := decide_eq_false (by omega)
  have hlen : ((i : ℤ) + n - i + 1).toNat = n + 1 := by omega
  have hsome : ∀ {l : List UInt8} {a : ℕ}, a + n + 1 ≤ l.length →
      ((l.drop a).take (n + 1)).length = n + 1 := by
    intro l a h
    rw [List.length_take, List.length_drop]
    omega
  rw [myStringCmp, if_neg (by rw [hs']; simp), if_neg (by rw [hu']; simp), if_neg (by omega), hlen,
    ← all_range_iff (hsome hs) (hsome hu), Int.toNat_natCast, Int.toNat_natCast, List.all_eq_true,
    List.all_eq_true]
  -- The characters of the parts are those of the strings.
  refine forall₂_congr fun k hk => ?_
  have hk := List.mem_range.mp hk
  rw [List.getElem?_take_of_lt hk, List.getElem?_take_of_lt hk, List.getElem?_drop,
    List.getElem?_drop]

/-- The comparison of `isFixPatternNameR`: the last characters of a name. -/
theorem myStringCmp_end {name p : List UInt8} (hp : p ≠ []) :
    myStringCmp name (name.length - p.length) (name.length - 1) p 0 (p.length - 1) = true ↔
      p <:+ name := by
  have hpos := List.length_pos_of_ne_nil hp
  rw [List.suffix_iff_eq_drop]
  by_cases hlen : name.length < p.length
  · have hstart : (name.length : ℤ) - p.length < 0 := by omega
    rw [myStringCmp, if_pos (.inl hstart)]
    refine ⟨fun h => (by cases h), fun h => ?_⟩
    have := congrArg List.length h
    rw [List.length_drop] at this
    omega
  · have hwithin := myStringCmp_within (s := name) (u := p) (i := name.length - p.length)
      (n := p.length - 1) (j := 0) (by omega) (by omega)
    have h1 : ((name.length - p.length : ℕ) : ℤ) = name.length - p.length := by omega
    have h2 : ((name.length : ℤ) - p.length) + (p.length - 1 : ℕ) = name.length - 1 := by omega
    have h3 : ((0 : ℕ) : ℤ) + (p.length - 1 : ℕ) = p.length - 1 := by omega
    rw [h1, h2, h3] at hwithin
    refine hwithin.trans ?_
    rw [List.drop_zero, List.take_of_length_le (by rw [List.length_drop]; omega),
      List.take_of_length_le (by omega), eq_comm]

/-- The comparison of `isFixPatternNameL`: a name without its suffix. -/
theorem isFixPatternNameL_iff {name₁ name₂ p : List UInt8} (h₁ : name₁ ≠ []) (hp : p <:+ name₂) :
    isFixPatternNameL name₁ name₂ p = true ↔ name₂ = name₁ ++ p := by
  obtain ⟨base, rfl⟩ := hp
  have hpos := List.length_pos_of_ne_nil h₁
  rw [List.append_left_inj, isFixPatternNameL]
  by_cases hlen : name₁.length = base.length
  · have hwithin := myStringCmp_within (s := name₁) (u := base ++ p) (i := 0)
      (n := name₁.length - 1) (j := 0) (by omega) (by rw [List.length_append]; omega)
    have h1 : ((0 : ℕ) : ℤ) + (name₁.length - 1 : ℕ) = name₁.length - 1 := by omega
    have h2 : ((name₁.length : ℤ) - 1) = (base ++ p).length - p.length - 1 := by
      rw [List.length_append]
      omega
    have hn : name₁.length - 1 + 1 = name₁.length := by omega
    rw [h1, hn, Nat.cast_zero] at hwithin
    rw [← h2, hwithin, List.drop_zero, List.drop_zero, List.take_length, hlen, List.take_left,
      eq_comm]
  · -- The lengths differ, whether the second name is the suffix alone or not.
    have hfalse : myStringCmp name₁ 0 (name₁.length - 1) (base ++ p) 0
        ((base ++ p).length - p.length - 1) = false := by
      rw [myStringCmp, List.length_append]
      split_ifs with hbound hbound' hdiff
      · rfl
      · rfl
      · rfl
      · omega
    rw [hfalse]
    exact ⟨fun h => (by cases h), fun h => absurd (congrArg List.length h).symm hlen⟩

/-- What `isFixPatternNameR` finds: no suffix, or the number of the one that the name ends in. -/
theorem isFixPatternNameR_cases (name : List UInt8) :
    isFixPatternNameR name = 0 ∧ ¬EndsInSuffix name ∨
      isFixPatternNameR name ∈ upFrom 1 patternNames.length ∧
        patternNames.getD (isFixPatternNameR name) [] ∈ suffixes ∧
          patternNames.getD (isFixPatternNameR name) [] <:+ name := by
  have hsuffix : ∀ i ∈ upFrom 1 patternNames.length, patternNames.getD i [] ∈ suffixes := by decide
  have hindex : ∀ p ∈ suffixes, ∃ i ∈ upFrom 1 patternNames.length, patternNames.getD i [] = p := by
    decide
  have hcmp : ∀ i ∈ upFrom 1 patternNames.length,
      myStringCmp name (name.length - (patternNames.getD i []).length) (name.length - 1)
        (patternNames.getD i []) 0 ((patternNames.getD i []).length - 1) = true ↔
      patternNames.getD i [] <:+ name := fun i hi =>
    myStringCmp_end (ne_nil_of_mem_suffixes _ (hsuffix i hi))
  unfold isFixPatternNameR
  dsimp only
  cases hfind : (upFrom 1 patternNames.length).reverse.find? fun i =>
      myStringCmp name (name.length - (patternNames.getD i []).length) (name.length - 1)
        (patternNames.getD i []) 0 ((patternNames.getD i []).length - 1) with
  | none =>
    refine .inl ⟨rfl, ?_⟩
    rintro ⟨p, hp, hname⟩
    obtain ⟨i, hi, rfl⟩ := hindex p hp
    exact List.find?_eq_none.mp hfind i (List.mem_reverse.mpr hi) ((hcmp i hi).mpr hname)
  | some i =>
    have hi := List.mem_reverse.mp (List.mem_of_find?_eq_some hfind)
    have hfound := List.find?_some hfind
    exact .inr ⟨hi, hsuffix i hi, (hcmp i hi).mp hfound⟩

theorem isFixPatternNameR_eq_zero_iff (name : List UInt8) :
    isFixPatternNameR name = 0 ↔ ¬EndsInSuffix name := by
  rcases isFixPatternNameR_cases name with ⟨hzero, hno⟩ | ⟨hmem, hsuffix, hname⟩
  · exact ⟨fun _ => hno, fun _ => hzero⟩
  · have hpos := (mem_upFrom.mp hmem).1
    exact ⟨fun h => by omega, fun h => absurd ⟨_, hsuffix, hname⟩ h⟩

/-- The number of a suffix is its own, and that of every name that ends in it. -/
theorem isFixPatternNameR_suffix {t : List UInt8} (ht : t ∈ suffixes) :
    isFixPatternNameR t ≠ 0 ∧ patternNames.getD (isFixPatternNameR t) [] = t ∧
      ∀ name, isFixPatternNameR name = isFixPatternNameR t ↔ t <:+ name := by
  have hinj : ∀ i ∈ upFrom 1 patternNames.length, ∀ j ∈ upFrom 1 patternNames.length,
      patternNames.getD i [] = patternNames.getD j [] → i = j := by decide
  have hself : EndsInSuffix t := ⟨t, ht, List.suffix_refl t⟩
  have hne : isFixPatternNameR t ≠ 0 := fun h => (isFixPatternNameR_eq_zero_iff t).mp h hself
  obtain ⟨h0, -⟩ | ⟨hmem, hsuffix, hname⟩ := isFixPatternNameR_cases t
  · exact absurd h0 hne
  have hget := suffix_unique hsuffix ht hname (List.suffix_refl t)
  refine ⟨hne, hget, fun name => ?_⟩
  obtain ⟨h0, hno⟩ | ⟨hmem', hsuffix', hname'⟩ := isFixPatternNameR_cases name
  · exact ⟨fun h => absurd (h.symm.trans h0) hne, fun h => absurd ⟨t, ht, h⟩ hno⟩
  · constructor
    · intro h
      rw [h, hget] at hname'
      exact hname'
    · intro h
      exact hinj _ hmem' _ hmem ((suffix_unique hsuffix' ht hname' h).trans hget.symm)

/-! ## The marks -/

/-- Columns whose names are different and not empty. -/
structure Named (text : StrPtr → List UInt8) (rnames : ℕ → StrPtr) (m : ℕ) : Prop where
  ne_nil : ∀ j ∈ upFrom 1 m, text (rnames j) ≠ []
  inj : ∀ i ∈ upFrom 1 m, ∀ j ∈ upFrom 1 m, text (rnames i) = text (rnames j) → i = j

/-- A column with a suffix has its number as its mark, and the others have none. -/
structure Marked (text : StrPtr → List UInt8) (rnames : ℕ → StrPtr) (m : ℕ) (t : ℕ → ℤ) : Prop where
  suffix : ∀ j ∈ upFrom 1 m, EndsInSuffix (text (rnames j)) →
    t j = -(isFixPatternNameR (text (rnames j)) : ℤ)
  base : ∀ j ∈ upFrom 1 m, ¬EndsInSuffix (text (rnames j)) → 0 < t j

section

variable {text : StrPtr → List UInt8} {rnames : ℕ → StrPtr} {m : ℕ} {t : ℕ → ℤ} {p : List UInt8}

theorem marked_markColumns (ht : ∀ j ∈ upFrom 1 m, t j = j) :
    Marked text rnames m (markColumns text rnames m t) := by
  constructor
  · intro j hj hsuffix
    have hne : isFixPatternNameR (text (rnames j)) ≠ 0 := fun h =>
      (isFixPatternNameR_eq_zero_iff _).mp h hsuffix
    rw [markColumns_eq, if_pos ⟨hj, Nat.pos_of_ne_zero hne⟩]
  · intro j hj hbase
    have hzero := (isFixPatternNameR_eq_zero_iff _).mpr hbase
    have hpos := (mem_upFrom.mp hj).1
    rw [markColumns_of_eq_zero hzero, ht j hj]
    omega

/-- The round for the column `i` replaces the column that `i` translates, if it is a translation to
the language, and no other. -/
theorem replace_step (hp : p ∈ suffixes) (hnamed : Named text rnames m)
    (hmarked : Marked text rnames m t) {i j : ℕ} (hi : i ∈ upFrom 1 m) (hj : j ∈ upFrom 1 m)
    (hbase : ¬EndsInSuffix (text (rnames j))) :
    (if t i = -(isFixPatternNameR p : ℤ) then replaceColumns text p rnames m i t else t) j =
      if text (rnames i) = text (rnames j) ++ p then (i : ℤ) else t j := by
  obtain ⟨hne, -, hends⟩ := isFixPatternNameR_suffix hp
  -- The mark of `i` is that of the language just when its name ends in the suffix.
  have hmark : t i = -(isFixPatternNameR p : ℤ) ↔ p <:+ text (rnames i) := by
    rw [← hends]
    by_cases hsuffix : EndsInSuffix (text (rnames i))
    · rw [hmarked.suffix i hi hsuffix]
      omega
    · have hpos := hmarked.base i hi hsuffix
      rw [(isFixPatternNameR_eq_zero_iff _).mpr hsuffix]
      omega
  by_cases hpi : p <:+ text (rnames i)
  · rw [if_pos (hmark.mpr hpi), replaceColumns_eq]
    have hiff := isFixPatternNameL_iff (hnamed.ne_nil j hj) hpi
    have hpos := hmarked.base j hj hbase
    by_cases htranslates : text (rnames i) = text (rnames j) ++ p
    · rw [if_pos ⟨hj, hpos, hiff.mpr htranslates⟩, if_pos htranslates]
    · rw [if_neg fun h => htranslates (hiff.mp h.2.2), if_neg htranslates]
  · have hno : text (rnames i) ≠ text (rnames j) ++ p := fun h => hpi ⟨_, h.symm⟩
    rw [if_neg fun h => hpi (hmark.mp h), if_neg hno]

/-- Columns with a suffix keep their marks. -/
theorem replace_step_suffix (hmarked : Marked text rnames m t) (k : ℤ) {i j : ℕ}
    (hj : j ∈ upFrom 1 m) (hsuffix : EndsInSuffix (text (rnames j))) :
    (if t i = k then replaceColumns text p rnames m i t else t) j = t j := by
  have hneg : t j ≤ 0 := by
    rw [hmarked.suffix j hj hsuffix]
    omega
  split_ifs
  · rw [replaceColumns_eq, if_neg fun h => absurd h.2.1 (not_lt.mpr hneg)]
  · rfl

/-- What a round leaves is marked as before. -/
theorem Marked.step (hp : p ∈ suffixes) (hnamed : Named text rnames m)
    (hmarked : Marked text rnames m t) {i : ℕ} (hi : i ∈ upFrom 1 m) :
    Marked text rnames m
      (if t i = -(isFixPatternNameR p : ℤ) then replaceColumns text p rnames m i t else t) := by
  constructor
  · intro j hj hsuffix
    rw [replace_step_suffix hmarked _ hj hsuffix]
    exact hmarked.suffix j hj hsuffix
  · intro j hj hbase
    have hpos := (mem_upFrom.mp hi).1
    rw [replace_step hp hnamed hmarked hi hj hbase]
    split_ifs
    · omega
    · exact hmarked.base j hj hbase

/-- The rounds for the columns `l`: a column without a suffix is replaced by its translation among
them, if it has one. -/
theorem replace_run (hp : p ∈ suffixes) (hnamed : Named text rnames m) {l : List ℕ} (hl : l.Nodup)
    (hmem : ∀ i ∈ l, i ∈ upFrom 1 m) (hmarked : Marked text rnames m t) {j : ℕ}
    (hj : j ∈ upFrom 1 m) (hbase : ¬EndsInSuffix (text (rnames j))) :
    (∀ i ∈ l, text (rnames i) = text (rnames j) ++ p → l.foldl (fun t i =>
      if t i = -(isFixPatternNameR p : ℤ) then replaceColumns text p rnames m i t else t) t j = i) ∧
      ((∀ i ∈ l, text (rnames i) ≠ text (rnames j) ++ p) → l.foldl (fun t i =>
        if t i = -(isFixPatternNameR p : ℤ) then replaceColumns text p rnames m i t else t) t j =
          t j) := by
  induction l generalizing t with
  | nil => exact ⟨fun i hi => absurd hi List.not_mem_nil, fun _ => rfl⟩
  | cons i l ih =>
    obtain ⟨hil, hl⟩ := List.nodup_cons.mp hl
    obtain ⟨hi, hrest⟩ := List.forall_mem_cons.mp hmem
    obtain ⟨hsome, hnone⟩ := ih hl hrest (hmarked.step hp hnamed hi)
    have hstep := replace_step hp hnamed hmarked hi hj hbase
    rw [List.foldl_cons]
    constructor
    · intro k hk hname
      rcases List.mem_cons.mp hk with rfl | hk
      · -- No other column has the name.
        rw [hnone fun k' hk' hname' => ?_, hstep, if_pos hname]
        have hkk := hnamed.inj k' (hrest k' hk') k hi (hname'.trans hname.symm)
        exact hil (hkk ▸ hk')
      · exact hsome k hk hname
    · intro hno
      obtain ⟨hi', hno⟩ := List.forall_mem_cons.mp hno
      rw [hnone hno, hstep, if_neg hi']

end

/-! ## What is written for a language -/

namespace Context

variable (c : Context)

/-- The names of the columns of a sheet are different and not empty. -/
def NamedSheet (s : Sheet) : Prop := Named c.text (s.vvs 1) s.m

/-- The columns without a suffix, in order. -/
def baseColumns (s : Sheet) : List ℕ :=
  (upFrom 1 s.m).filter fun j => ¬EndsInSuffix (c.text (s.vvs 1 j))

/-- The column whose name is that of the column `j` with the suffix. -/
def translation (s : Sheet) (t : List UInt8) (j : ℕ) : Option ℕ :=
  (upFrom 1 s.m).find? fun k => c.text (s.vvs 1 k) = c.text (s.vvs 1 j) ++ t

/-- The column that the value for the column `j` in the row `i` is taken from: its translation, if
there is one and its cell is not empty. -/
def languageColumn (s : Sheet) (t : List UInt8) (i j : ℕ) : ℕ :=
  match c.translation s t j with
  | some k => if c.text (s.vvs i k) = [] then j else k
  | none => j

/-- The fields of a row in a language. -/
def languageRow (s : Sheet) (t : List UInt8) (i : ℕ) : Option RowDef :=
  mapAll (fun j => (c.fillCell [] (s.vvs 0 (c.languageColumn s t i j))
    (s.vvs i (c.languageColumn s t i j))).map fun v => (fieldKey (c.text (s.vvs 1 j)), v))
    (c.baseColumns s)

/-- The rows of a sheet in a language. -/
def languageSheet (s : Sheet) (t : List UInt8) : Option SheetDef :=
  mapAll (fun i => (c.languageRow s t i).map fun d => (rowKey (c.text (s.vvs i 0)), .fields d))
    (upFrom 2 s.n)

variable {c} {s : Sheet} {t : List UInt8}

theorem translation_some {j k : ℕ} (h : c.translation s t j = some k) :
    k ∈ upFrom 1 s.m ∧ c.text (s.vvs 1 k) = c.text (s.vvs 1 j) ++ t := by
  have hfound := List.find?_some h
  exact ⟨List.mem_of_find?_eq_some h, of_decide_eq_true hfound⟩

theorem translation_none {j : ℕ} (h : c.translation s t j = none) :
    ∀ k ∈ upFrom 1 s.m, c.text (s.vvs 1 k) ≠ c.text (s.vvs 1 j) ++ t :=
  fun k hk hname => List.find?_eq_none.mp h k hk (decide_eq_true hname)

theorem targets_eq (ht : t ∈ patternNames) :
    c.targets (some t) none s = solvePattern c.text t (s.vvs 1) s.m fun j => j := by
  have hfix : isFixPatternName (some t) = true := List.contains_iff_mem.mpr ht
  show applySuffix c.text (s.vvs 1) s.m (some t) _ = _
  rw [applySuffix, if_pos hfix]

/-- A column with a suffix is not written. -/
theorem targets_suffix (ht : t ∈ patternNames) {j : ℕ} (hj : j ∈ upFrom 1 s.m)
    (hsuffix : EndsInSuffix (c.text (s.vvs 1 j))) : c.targets (some t) none s j < 0 := by
  rw [targets_eq ht]
  refine solvePattern_neg (markColumns_suffix hj fun h => ?_)
  exact (isFixPatternNameR_eq_zero_iff _).mp h hsuffix

/-- A column without a suffix is written, with its translation as its target. -/
theorem targets_base (ht : t ∈ patternNames) (hnamed : c.NamedSheet s) {j : ℕ}
    (hj : j ∈ upFrom 1 s.m) (hbase : ¬EndsInSuffix (c.text (s.vvs 1 j))) :
    c.targets (some t) none s j = ((c.translation s t j).getD j : ℕ) := by
  have hfirst : patternNames.getD 0 [] = [] := rfl
  have hmarked : Marked c.text (s.vvs 1) s.m (markColumns c.text (s.vvs 1) s.m fun j => j) :=
    marked_markColumns fun _ _ => rfl
  have hstart : markColumns c.text (s.vvs 1) s.m (fun j => (j : ℤ)) j = j :=
    markColumns_of_eq_zero ((isFixPatternNameR_eq_zero_iff _).mpr hbase)
  rw [targets_eq ht, solvePattern, hfirst]
  rcases List.mem_cons.mp ht with rfl | hp
  · -- Without a suffix a column is its own translation.
    rw [if_neg fun h => h.1 rfl, hstart]
    cases hfind : c.translation s (bytes "") j with
    | none => rfl
    | some k =>
      obtain ⟨hk, hname⟩ := translation_some hfind
      rw [hnamed.inj k hk j hj (hname.trans (List.append_nil _))]
      rfl
  · obtain ⟨-, hget, -⟩ := isFixPatternNameR_suffix hp
    have hrun := replace_run hp hnamed (nodup_upFrom 1 s.m) (fun _ hi => hi) hmarked hj hbase
    rw [hget, if_pos ⟨ne_nil_of_mem_suffixes t hp, rfl⟩]
    cases hfind : c.translation s t j with
    | none =>
      rw [hrun.2 (translation_none hfind), hstart]
      rfl
    | some k =>
      obtain ⟨hk, hname⟩ := translation_some hfind
      exact hrun.1 k hk hname

/-- The value of a column without a suffix comes from its translation, or from itself. -/
theorem sourceColumn_targets (ht : t ∈ patternNames) (hnamed : c.NamedSheet s) (i : ℕ) {j : ℕ}
    (hj : j ∈ upFrom 1 s.m) (hbase : ¬EndsInSuffix (c.text (s.vvs 1 j))) :
    c.sourceColumn (some (c.targets (some t) none s)) (s.rowAt i).row j = c.languageColumn s t i j ∧
      0 < c.languageColumn s t i j := by
  have hpos := (mem_upFrom.mp hj).1
  have hrow : (s.rowAt i).row = s.vvs i := rfl
  rw [hrow, sourceColumn, languageColumn, targets_base ht hnamed hj hbase]
  cases hfind : c.translation s t j with
  | none =>
    rw [Option.getD_none, ite_self]
    exact ⟨rfl, hpos⟩
  | some k =>
    have hk := (mem_upFrom.mp (translation_some hfind).1).1
    rw [Option.getD_some, Int.toNat_natCast]
    by_cases hempty : c.text (s.vvs i k) = []
    · -- The cell is empty, and if it is not the cell of the column itself, that is taken.
      dsimp only
      rw [if_pos hempty]
      refine ⟨?_, hpos⟩
      split_ifs with hother
      · rfl
      · by_contra hne
        exact hother ⟨by omega, hne, hempty⟩
    · dsimp only
      rw [if_neg hempty, if_neg fun h => hempty h.2.2]
      exact ⟨rfl, hk⟩

/-- The columns that are written are those without a suffix, each with the column that its value is
taken from. -/
theorem written_targets (ht : t ∈ patternNames) (hnamed : c.NamedSheet s) (i : ℕ) :
    c.written (some (c.targets (some t) none s)) (s.rowAt i) =
      (c.baseColumns s).map fun j => (j, c.languageColumn s t i j) := by
  rw [written, baseColumns, ← List.filterMap_eq_map, List.filterMap_filter]
  refine List.filterMap_congr fun j hj => ?_
  have hj : j ∈ upFrom 1 s.m := hj
  have hpos := (mem_upFrom.mp hj).1
  by_cases hsuffix : EndsInSuffix (c.text (s.vvs 1 j))
  · have hneg := targets_suffix ht hj hsuffix
    have hsource : c.sourceColumn (some (c.targets (some t) none s)) (s.rowAt i).row j < 0 := by
      rw [sourceColumn, if_neg fun h => absurd h.1 hneg.asymm]
      exact hneg
    rw [if_neg hsource.asymm, if_neg (by simpa using hsuffix)]
  · obtain ⟨hsource, hlang⟩ := sourceColumn_targets ht hnamed i hj hsuffix
    rw [hsource, if_pos (by omega), if_pos (by simpa using hsuffix), Int.toNat_natCast]
    rfl

/-- The fields that are written and those of the columns with a suffix have different keys. -/
theorem fieldKey_ne {j k : ℕ} (hbase : ¬EndsInSuffix (c.text (s.vvs 1 j)))
    (hsuffix : EndsInSuffix (c.text (s.vvs 1 k))) :
    fieldKey (c.text (s.vvs 1 j)) ≠ fieldKey (c.text (s.vvs 1 k)) := by
  obtain ⟨p, hp, hname⟩ := hsuffix
  -- A suffix has an underscore and ends in a letter or a digit.
  have hletter : ∀ p ∈ suffixes, 95 ∈ p ∧ p.getLast? ≠ some 93 := by decide
  obtain ⟨hunder, hlast⟩ := hletter p hp
  have hdigit : isStrDigit (c.text (s.vvs 1 k)) = false := by
    have hmem := hname.subset hunder
    rw [isStrDigit, Bool.and_eq_false_iff]
    right
    rw [List.all_eq_false]
    exact ⟨95, hmem, by decide⟩
  rw [fieldKey, fieldKey, hdigit, if_neg Bool.false_ne_true]
  split_ifs with hj
  · intro heq
    rw [← heq] at hname
    obtain ⟨u, hu⟩ := hname
    have hend := congrArg List.getLast? hu
    rw [List.getLast?_append_of_ne_nil _ (ne_nil_of_mem_suffixes p hp),
      List.getLast?_append_of_ne_nil _ (by decide)] at hend
    exact hlast hend
  · intro heq
    rw [← heq] at hname
    exact hbase ⟨p, hp, hname⟩

/-- With a suffix as `argv[4]` alone, and nothing shared, a sheet is written in that language, and
nothing is written under the name of a column with a suffix. -/
theorem fillSheet_language (ht : t ∈ patternNames) (hnamed : c.NamedSheet s) :
    c.fillSheet [] [] (some (c.targets (some t) none s)) s = c.languageSheet s t ∧
      ∀ j ∈ c.baseColumns s, ∀ k ∈ upFrom 1 s.m, k ∉ c.baseColumns s →
        fieldKey (c.text (s.vvs 1 j)) ≠ fieldKey (c.text (s.vvs 1 k)) := by
  have hrow : ∀ i, c.fillRow [] (some (c.targets (some t) none s)) (s.rowAt i) =
      c.languageRow s t i := by
    intro i
    rw [fillRow, written_targets ht hnamed, mapAll_map, languageRow]
    rfl
  constructor
  · rw [fillSheet, languageSheet]
    refine mapAll_congr fun i _ => ?_
    rw [rowOut, SortedTable.lookup_nil]
    dsimp only
    rw [hrow, Option.map_map]
    rfl
  · intro j hj k hk hbase
    have hj := (List.mem_filter.mp hj).2
    refine fieldKey_ne (of_decide_eq_true hj) (by_contra fun hsuffix => hbase ?_)
    exact List.mem_filter.mpr ⟨hk, decide_eq_true hsuffix⟩

/-- A sheet with the columns `x_tw` and `x`, whose second row has no translation. -/
def translated : Sheet :=
  .ofRows 3 [[.buf 0, .fix .plain, .fix .plain], [.buf 0, .buf 1, .buf 2], [.buf 3, .buf 4, .buf 5],
    [.buf 6, .buf 7, .buf 8]]

/-- The texts of that sheet, with numbers written as they are read. -/
def translatedText : StrPtr → List UInt8
  | .fix u => u.text
  | .buf p => [bytes "id", bytes "x_tw", bytes "x", bytes "1", bytes "5", bytes "6", bytes "2",
      bytes "", bytes "7"].getD p []

/-- The surroundings of that sheet. -/
def translatedContext : Context where
  toAddresses := .below
  text := translatedText
  number := fun _ => bytes "0"
  number_first := fun _ => ⟨48, [], rfl, .inr (by decide)⟩

/-- In the language `_tw` the first row has the translation, and the second what is translated. -/
theorem fillSheet_translated : translatedContext.fillSheet [] []
    (some (translatedContext.targets (some (bytes "_tw")) none translated)) translated =
      some [(bytes "[1]", .fields [(bytes "x", .text (bytes "5"))]),
        (bytes "[2]", .fields [(bytes "x", .text (bytes "7"))])] := by
  have hnamed : translatedContext.NamedSheet translated := ⟨by decide, by decide⟩
  rw [(fillSheet_language (by decide) hnamed).1]
  rfl

end Context

end Catse.Myxml2
