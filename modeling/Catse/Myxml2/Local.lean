import Catse.Myxml2.Duplicates
import Catse.Myxml2.Untouched

/-!
# Conversion is local

Whether the text that a cell is converted to depends on that cell alone. A cell of a shared string
is converted where the string is, and so for every other cell of that string. The strings that are
there at the start are watched (`watched`). Conversions only shorten them, so by `Settles` they are
what they were at the end of a run just when no conversion has written anything new, and that is
when every cell of a shared string holds a text that conversion leaves (`conversion_local_iff`).
Nothing is assumed of the table but that its strings lie in the used part of `buf`: edited strings
may leave it unsorted.
-/

namespace Catse.Myxml2

/-! ## The watched strings -/

/-- The strings of the table lie in the used part of `buf`, and those that are watched are in the
table. -/
structure Allocated (D : StrPtr → Prop) (s : Intern) : Prop where
  lt : ∀ p ∈ s.set, p < s.buflen
  valid : ∀ p, D p → s.Valid p

/-- What the watched pointers point to. -/
def watched (D : StrPtr → Prop) (s : Intern) (p : {p // D p}) : List UInt8 := s.textOf p

/-- What the shared strings are, when they are watched. -/
def sharedOf {D : StrPtr → Prop} {vs : List StrPtr} (hvs : ∀ k, D (pointer vs k))
    (v : {p // D p} → List UInt8) (k : ℕ) : List UInt8 :=
  v ⟨pointer vs k, hvs k⟩

/-- A part of a run with the watched strings. -/
abbrev Converts (D : StrPtr → Prop) (ok : ({p // D p} → List UInt8) → Prop)
    (Q : ({p // D p} → List UInt8) → Intern → Prop) (s s' : Intern) : Prop :=
  Settles (watched D) Intern.Extends ok Q s s'

variable {D : StrPtr → Prop} {vs : List StrPtr}

theorem watched_eq_of_extends {s s' : Intern} (h : Allocated D s) (he : s.Extends s') :
    watched D s' = watched D s :=
  funext fun p => (he p (h.valid p p.2)).2

theorem convertedText_text (t : VarType) : convertedText t.text = converted (.fix t) := by
  cases t <;> decide

/-- What `getStr` does in a table that need not be sorted. -/
theorem getStr_allocated {str : List UInt8} {s s' : Intern} {p : StrPtr} (h : Allocated D s)
    (hr : getStr str s = .ok (p, s')) :
    Allocated D s' ∧ s.Extends s' ∧ Points s' str p ∧ converted p = convertedText str := by
  obtain ⟨t, rfl, rfl, rfl⟩ | ⟨hnew, hr⟩ := getStr_cases hr
  · exact ⟨h, .refl _, ⟨trivial, rfl⟩, (convertedText_text t).symm⟩
  have hnone : convertedText str = none := by
    have hfix : (VarType.fix.find? fun t => t.text = str) = none :=
      List.find?_eq_none.mpr fun t _ ht => hnew t (of_decide_eq_true ht)
    rw [convertedText, hfix]
  obtain ⟨q, hq, hstr, rfl, rfl⟩ | ⟨a, -, rfl, rfl⟩ := hr
  · exact ⟨h, .refl _, ⟨hq, hstr⟩, hnone.symm⟩
  · have he := Intern.extends_enter h.lt a str
    refine ⟨⟨fun p hp => ?_, fun p hp => (he p (h.valid p hp)).1⟩, he,
      ⟨Intern.mem_enter.mpr (.inl rfl), Intern.text_enter_self s a str⟩, hnone.symm⟩
    show p < s.buflen + str.length + 1
    rcases Intern.mem_enter.mp hp with rfl | hp
    · omega
    · have := h.lt p hp
      omega

/-- The same, as a part of a run. -/
theorem getStr_converts {str : List UInt8} {s s' : Intern} {p : StrPtr} (h : Allocated D s)
    (hr : getStr str s = .ok (p, s')) :
    Allocated D s' ∧ Converts D (fun _ => True)
      (fun _ s' => Points s' str p ∧ converted p = convertedText str) s s' := by
  obtain ⟨halloc, he, hpoints, hconv⟩ := getStr_allocated h hr
  have heq := watched_eq_of_extends h he
  exact ⟨halloc, fun p => .inl (congrFun heq p), fun _ => trivial,
    fun _ => ⟨heq, he, hpoints, hconv⟩⟩

/-! ## A cell -/

/-- A cell that conversion does not write to, or writes back as it is. -/
def UntouchedCell (shared : ℕ → List UInt8) (t : Option VarType) (c : Option Raw) : Prop :=
  match t, c with
  | some t, some (.shared k) => Untouched t (shared k)
  | _, _ => True

instance (shared : ℕ → List UInt8) (t : Option VarType) (c : Option Raw) :
    Decidable (UntouchedCell shared t c) :=
  match t, c with
  | some t, some (.shared k) => inferInstanceAs (Decidable (Untouched t (shared k)))
  | some _, some (.inline _) | some _, none | none, _ => inferInstanceAs (Decidable True)

/-- The pointer for a cell points to what the cell's own text is converted to. -/
def RightCell (shared : ℕ → List UInt8) (t : Option VarType) (c : Option Raw) (s : Intern)
    (p : StrPtr) : Prop :=
  ∀ u, t = some u → ∃ r, convert u (cellText shared c) = .ok r ∧ Points s r.2 p

theorem RightCell.extend {shared : ℕ → List UInt8} {t : Option VarType} {c : Option Raw}
    {s s' : Intern} {p : StrPtr} (h : RightCell shared t c s p) (he : s.Extends s') :
    RightCell shared t c s' p := by
  intro u hu
  obtain ⟨r, hr, hp⟩ := h u hu
  exact ⟨r, hr, hp.extend he⟩

/-- A shared string is written over. -/
theorem write_converts (hvs : ∀ k, D (pointer vs k)) {u : VarType} {k q : ℕ} {s s' : Intern}
    {p : StrPtr} {r : List UInt8 × List UInt8} (h : Allocated D s) (hq : pointer vs k = .buf q)
    (hconv : convert u (s.text q) = .ok r) (hr : getStr r.2 (s.write q r.1) = .ok (p, s')) :
    Allocated D s' ∧ Converts D (fun v => Untouched u (sharedOf hvs v k))
      (fun v s' => RightCell (sharedOf hvs v) (some u) (some (.shared k)) s' p) s s' := by
  obtain ⟨hshort, hiff⟩ := convert_spec hconv
  have hwrite : Allocated D (s.write q r.1) := ⟨h.lt, h.valid⟩
  obtain ⟨halloc, he, hpoints, -⟩ := getStr_allocated hwrite hr
  have hD : D (.buf q) := hq ▸ hvs k
  have hshared : sharedOf hvs (watched D s) k = s.text q := by
    show s.textOf (pointer vs k) = s.text q
    rw [hq]
    rfl
  refine ⟨halloc, fun x => ?_, fun heq => ?_, fun hok => ?_⟩
  · -- The string itself becomes shorter, and the others stay.
    rw [congrFun (watched_eq_of_extends hwrite he) x]
    obtain ⟨x, hx⟩ := x
    cases x with
    | fix t => exact .refl _
    | buf x =>
      show Shortened (s.text x) (Function.update s.text q r.1 x)
      by_cases hxq : x = q
      · rw [hxq, Function.update_self]
        exact hshort
      · rw [Function.update_of_ne hxq]
        exact .refl _
  · have hat : watched D s' ⟨.buf q, hD⟩ = s.text q := congrFun heq _
    rw [watched_eq_of_extends hwrite he] at hat
    have hself : (s.write q r.1).text q = r.1 := Function.update_self ..
    rw [hshared]
    exact hiff.mp (hself.symm.trans hat)
  · rw [hshared] at hok
    rw [hiff.mpr hok, write_self] at he
    refine ⟨watched_eq_of_extends h he, he, ?_⟩
    rintro _ ⟨⟩
    refine ⟨r, ?_, hpoints⟩
    rw [cellText, Raw.text, hshared]
    exact hconv

theorem convertCell_converts (hvs : ∀ k, D (pointer vs k)) {t : StrPtr} {c : Option Raw}
    {s s' : Intern} {p : StrPtr} (h : Allocated D s) (hr : convertCell vs t c s = .ok (p, s')) :
    Allocated D s' ∧ Converts D (fun v => UntouchedCell (sharedOf hvs v) (converted t) c)
      (fun v s' => RightCell (sharedOf hvs v) (converted t) c s' p) s s' := by
  unfold convertCell at hr
  cases hconv : converted t with
  | none =>
    rw [hconv] at hr
    obtain ⟨halloc, hget⟩ := getStr_converts h hr
    refine ⟨halloc, hget.imp Iff.rfl fun _ _ => ?_⟩
    rintro u ⟨⟩
  | some u =>
    rw [hconv] at hr
    -- A text of its own is converted there, and only what comes of it is interned.
    have hown : ∀ {r : List UInt8 × List UInt8}, convert u (cellText (present vs s) c) = .ok r →
        getStr r.2 s = .ok (p, s') → Allocated D s' ∧ Converts D (fun _ => True)
          (fun v s' => RightCell (sharedOf hvs v) (some u) c s' p) s s' := by
      intro r hr hget
      obtain ⟨halloc, hget⟩ := getStr_converts h hget
      refine ⟨halloc, hget.imp Iff.rfl fun _ hpoints => ?_⟩
      rintro _ ⟨⟩
      exact ⟨r, hr, hpoints.1⟩
    cases c with
    | none =>
      obtain ⟨r, hr, hget⟩ := ok_of_bind hr
      exact hown hr hget
    | some raw =>
      cases raw with
      | inline text =>
        obtain ⟨r, hr, hget⟩ := ok_of_bind hr
        exact hown hr hget
      | shared k =>
        dsimp only at hr
        cases hptr : pointer vs k with
        | fix t =>
          rw [hptr] at hr
          cases hr
        | buf q =>
          rw [hptr] at hr
          obtain ⟨r, hconvert, hr⟩ := ok_of_bind hr
          exact write_converts hvs h hptr hconvert hr

/-! ## A row -/

/-- The types of the columns are known by their texts. -/
theorem internRow_converts (hvs : ∀ k, D (pointer vs k)) {m : ℕ} {row : RawRow} {s s' : Intern}
    {ps : List StrPtr} (h : Allocated D s) (hr : internRow vs m row s = .ok (ps, s')) :
    Allocated D s' ∧ Converts D (fun _ => True) (fun v _ => ∀ j ∈ upFrom 0 m,
      converted (ps.getD j (.fix .number)) = convertedText (cellText (sharedOf hvs v) (row j)))
      s s' := by
  obtain ⟨halloc, hloop⟩ := mapState_settles (V := watched D) (P := Allocated D)
    (K := fun _ _ => True)
    (Q := fun v _ j p => converted p = convertedText (cellText (sharedOf hvs v) (row j)))
    Intern.Extends.refl Intern.Extends.trans (fun _ hq => hq)
    (fun j _ s p s' hs hr =>
      have hget := getStr_converts hs hr
      ⟨hget.1, hget.2.imp Iff.rfl fun _ hp => hp.2⟩) h hr
  exact ⟨halloc, hloop.imp ⟨fun _ => trivial, fun _ _ _ => trivial⟩ fun _ hps j hj =>
    forall₂_upFrom hps (.fix .number) hj⟩

/-- The cells of a row. -/
theorem convertRow_converts (hvs : ∀ k, D (pointer vs k)) {type : List StrPtr} {m : ℕ}
    {row : RawRow} {s s' : Intern} {ps : List StrPtr} (h : Allocated D s)
    (hr : convertRow vs type m row s = .ok (ps, s')) :
    Allocated D s' ∧ Converts D
      (fun v => ∀ j ∈ upFrom 1 m,
        UntouchedCell (sharedOf hvs v) (converted (type.getD j (.fix .number))) (row j))
      (fun v s' => ∀ j ∈ upFrom 1 m, RightCell (sharedOf hvs v)
        (converted (type.getD j (.fix .number))) (row j) s' (ps.getD j (.fix .number))) s s' := by
  unfold convertRow at hr
  obtain ⟨⟨id, s₁⟩, hid, hr⟩ := ok_of_bind hr
  obtain ⟨⟨cells, s₂⟩, hcells, hr⟩ := ok_of_bind hr
  cases hr
  obtain ⟨halloc₁, hid⟩ := getStr_converts h hid
  obtain ⟨halloc, hloop⟩ := mapState_settles (V := watched D) (P := Allocated D)
    (K := fun j v =>
      UntouchedCell (sharedOf hvs v) (converted (type.getD j (.fix .number))) (row j))
    (Q := fun v s j p =>
      RightCell (sharedOf hvs v) (converted (type.getD j (.fix .number))) (row j) s p)
    Intern.Extends.refl Intern.Extends.trans (fun he hq => hq.extend he)
    (fun j _ s p s' hs hr => convertCell_converts hvs hs hr) halloc₁ hcells
  refine ⟨halloc, (hid.seq hloop Intern.Extends.trans fun he hp => ⟨hp.1.extend he, hp.2⟩).imp
    ⟨fun hok => hok.2, fun hok => ⟨trivial, hok⟩⟩ ?_⟩
  rintro - ⟨-, hps⟩ j hj
  -- The ID stands before the cells.
  have hj1 := (mem_upFrom.mp hj).1
  obtain ⟨i, rfl⟩ : ∃ i, j = i + 1 := ⟨j - 1, by omega⟩
  have hq := forall₂_upFrom hps (.fix .number) hj
  rw [Nat.add_sub_cancel] at hq
  rw [List.getD_cons_succ]
  exact hq

/-! ## A sheet -/

/-- Every cell of a row that is kept is untouched. -/
def UntouchedGrid (shared : ℕ → List UInt8) (grid : Grid) : Prop :=
  ∀ row ∈ grid.data, ∀ j ∈ upFrom 1 grid.m,
    UntouchedCell shared (convertedText (cellText shared (grid.type j))) (row j)

instance (shared : ℕ → List UInt8) (grid : Grid) : Decidable (UntouchedGrid shared grid) :=
  inferInstanceAs (Decidable (∀ row ∈ grid.data, ∀ j ∈ upFrom 1 grid.m, _))

/-- Every cell of a row that is kept is converted as its own text and its type say. -/
def RightGrid (shared : ℕ → List UInt8) (grid : Grid) (sheet : Sheet) (s : Intern) : Prop :=
  ∀ i row, grid.data[i]? = some row → ∀ j ∈ upFrom 1 grid.m,
    RightCell shared (convertedText (cellText shared (grid.type j))) (row j) s (sheet.vvs (i + 2) j)

theorem convertSheet_converts (hvs : ∀ k, D (pointer vs k)) {vd : List Dot} {s s' : Intern}
    {sheet : Sheet} (h : Allocated D s) (hr : convertSheet vs vd s = .ok (sheet, s')) :
    Allocated D s' ∧ Converts D
      (fun v => ∀ g, gather vs.length vd = .ok g →
        UntouchedGrid (sharedOf hvs v) (g.grid (sharedOf hvs v)))
      (fun v s' => ∀ g, gather vs.length vd = .ok g →
        RightGrid (sharedOf hvs v) (g.grid (sharedOf hvs v)) sheet s') s s' := by
  have hpresent : present vs s = sharedOf hvs (watched D s) := rfl
  obtain ⟨g, type, s₁, name, s₂, rows, hg, -, htype, hname, hconvert, rfl⟩ := convertSheet_cases hr
  rw [hpresent] at htype hname hconvert ⊢
  obtain ⟨halloc₁, htype⟩ := internRow_converts hvs h htype
  obtain ⟨halloc₂, hname⟩ := internRow_converts hvs halloc₁ hname
  obtain ⟨halloc, hloop⟩ := mapState_settles (V := watched D) (P := Allocated D)
    (K := fun (row : RawRow) v => ∀ j ∈ upFrom 1 (g.grid (sharedOf hvs (watched D s))).m,
        UntouchedCell (sharedOf hvs v) (converted (type.getD j (.fix .number))) (row j))
    (Q := fun v s' (row : RawRow) (ps : List StrPtr) =>
      ∀ j ∈ upFrom 1 (g.grid (sharedOf hvs (watched D s))).m, RightCell (sharedOf hvs v)
        (converted (type.getD j (.fix .number))) (row j) s' (ps.getD j (.fix .number)))
    Intern.Extends.refl Intern.Extends.trans (fun he hq j hj => (hq j hj).extend he)
    (fun row _ s ps s' hs hr => convertRow_converts hvs hs hr) halloc₂ hconvert
  obtain ⟨hsame₁, -, htypes⟩ := htype.keeps trivial
  -- The types that the rows are converted by are those of the grid.
  have htypes : ∀ j ∈ upFrom 1 (g.grid (sharedOf hvs (watched D s))).m,
      converted (type.getD j (.fix .number)) = convertedText (cellText (sharedOf hvs (watched D s))
        ((g.grid (sharedOf hvs (watched D s))).type j)) := fun j hj =>
    htypes j (mem_upFrom.mpr ⟨Nat.zero_le j, (mem_upFrom.mp hj).2⟩)
  refine ⟨halloc, ((htype.seq hname Intern.Extends.trans fun _ hp => hp).seq hloop
    Intern.Extends.trans fun _ hp => hp).imp ?_ ?_⟩
  · constructor
    · rintro ⟨-, hok⟩ g' hg' row hrow j hj
      cases hg.symm.trans hg'
      rw [← htypes j hj]
      exact hok row hrow j hj
    · intro hok
      refine ⟨⟨trivial, trivial⟩, fun row hrow j hj => ?_⟩
      rw [htypes j hj]
      exact hok g hg row hrow j hj
  · rintro - ⟨-, hrows⟩ g' hg' i row hrow j hj
    cases hg.symm.trans hg'
    obtain ⟨hi, hget⟩ := List.getElem?_eq_some_iff.mp hrow
    have hlen := hrows.length_eq
    have hi' : i < rows.length := by omega
    have hright := (List.forall₂_iff_get.mp hrows).2 i hi hi' j hj
    rw [← htypes j hj]
    rw [List.get_eq_getElem, List.get_eq_getElem, hget] at hright
    have hptr : (Sheet.ofRows (g.grid (sharedOf hvs (watched D s))).m (type :: name :: rows)).vvs
        (i + 2) j = (rows[i]).getD j (.fix .number) := by
      show ((type :: name :: rows).getD (i + 2) []).getD j (.fix .number) = _
      rw [List.getD_cons_succ, List.getD_cons_succ, List.getD_eq_getElem?_getD (l := rows),
        List.getElem?_eq_getElem hi', Option.getD_some]
    rw [hptr]
    exact hright

/-! ## A run -/

/-- The cells that a round comes to are untouched, unless it skips the sheet. -/
def UntouchedRound (hvs : ∀ k, D (pointer vs k)) (w : Workbook) (x : StrPtr × ℕ)
    (v : {p // D p} → List UInt8) : Prop :=
  ∀ hp : D x.1, hasChinese (v ⟨x.1, hp⟩) = false → ∀ g, gather vs.length (w.worksheet x.2) = .ok g →
    UntouchedGrid (sharedOf hvs v) (g.grid (sharedOf hvs v))

/-- The cells of the sheet that a round gives are right. -/
def RightRound (hvs : ∀ k, D (pointer vs k)) (w : Workbook) (v : {p // D p} → List UInt8)
    (s : Memory) (x : StrPtr × ℕ) (result : Option Sheet) : Prop :=
  ∀ sheet, result = some sheet → ∀ g, gather vs.length (w.worksheet x.2) = .ok g →
    RightGrid (sharedOf hvs v) (g.grid (sharedOf hvs v)) sheet s.intern

/-- A round of the loop over the sheets. -/
theorem readSheet_converts {a : Addresses} {w : Workbook} (hvs : ∀ k, D (pointer vs k)) {i : ℕ}
    {p : StrPtr} (hp : D p) {s s' : Memory} {result : Option Sheet} (h : Allocated D s.intern)
    (hr : readSheet a w vs (p, i) s = .ok (result, s')) :
    Allocated D s'.intern ∧
      Settles (fun s : Memory => watched D s.intern) (fun s s' => s.intern.Extends s'.intern)
        (UntouchedRound hvs w (p, i)) (fun v s' => RightRound hvs w v s' (p, i) result) s s' := by
  have hname : watched D s.intern ⟨p, hp⟩ = s.intern.textOf p := rfl
  unfold readSheet at hr
  by_cases hskip : hasChinese (s.intern.textOf p) = true
  · rw [if_pos hskip] at hr
    cases hr
    refine ⟨h, fun _ => .refl _, fun _ _ hno => ?_, fun _ => ⟨rfl, .refl _, ?_⟩⟩
    · rw [hname, hskip] at hno
      cases hno
    · rintro sheet ⟨⟩
  · rw [if_neg hskip] at hr
    obtain ⟨⟨sheet, s₁⟩, hvvs, hr⟩ := ok_of_bind hr
    cases hr
    obtain ⟨halloc, hconv⟩ := convertSheet_converts hvs h (convertSheet_of_getVvs hvvs)
    refine ⟨halloc, hconv.shortened, fun heq _ _ => hconv.still heq, fun hok => ?_⟩
    have hno : hasChinese (watched D s.intern ⟨p, hp⟩) = false := Bool.eq_false_of_not_eq_true hskip
    obtain ⟨heq, he, hright⟩ := hconv.keeps (hok hp hno)
    refine ⟨heq, he, ?_⟩
    rintro _ ⟨⟩
    exact hright

/-- The loop over the sheets. -/
theorem readSheets_converts {a : Addresses} {w : Workbook} (hvs : ∀ k, D (pointer vs k))
    {names : List StrPtr} {k : ℕ} (hnames : ∀ x ∈ names.zipIdx.take k, D x.1) {s s' : Memory}
    {results : List (Option Sheet)} (h : Allocated D s.intern)
    (hr : readSheets a w names vs k s = .ok (results, s')) :
    Settles (fun s : Memory => watched D s.intern) (fun s s' => s.intern.Extends s'.intern)
      (fun v => ∀ x ∈ names.zipIdx.take k, UntouchedRound hvs w x v)
      (fun v s' => List.Forall₂ (RightRound hvs w v s') (names.zipIdx.take k) results) s s' :=
  (mapState_settles (P := fun s : Memory => Allocated D s.intern) (fun _ => .refl _)
    (fun he he' => he.trans he')
    (fun he hq sheet hsheet g hg i row hrow j hj =>
      (hq sheet hsheet g hg i row hrow j hj).extend he)
    (fun x hx _ _ _ hs hstep => readSheet_converts hvs (hnames x hx) hs hstep) h hr).2

/-- Every cell that the sheet keeps is untouched. -/
def UntouchedSheet (texts : List (List UInt8)) (vd : List Dot) : Prop :=
  ∀ grid, sheetGrid texts vd = some grid → UntouchedGrid (sharedText texts) grid

instance (texts : List (List UInt8)) (vd : List Dot) : Decidable (UntouchedSheet texts vd) :=
  match h : sheetGrid texts vd with
  | some grid => decidable_of_iff (UntouchedGrid (sharedText texts) grid)
      ⟨fun hu grid' hg => by cases h.symm.trans hg; exact hu, fun hu => hu grid h⟩
  | none => isTrue fun grid hg => by cases h.symm.trans hg

/-- Every cell of the sheets that have been read is converted as its own text and its type say, and
the strings that were in the table are what they were. -/
structure LocalRun (w : Workbook) (results : List (Option Sheet)) (s₀ s : Intern) : Prop where
  converted : ∀ i sheet, results[i]? = some (some sheet) →
    ∀ grid, sheetGrid (sharedTexts none w.sharedStrings) (w.worksheet i) = some grid →
      RightGrid (sharedText (sharedTexts none w.sharedStrings)) grid sheet s
  kept : s₀.Extends s

theorem sheetGrid_eq_some_iff {texts : List (List UInt8)} {vd : List Dot} {grid : Grid} :
    sheetGrid texts vd = some grid ↔
      ∃ g, gather texts.length vd = .ok g ∧ g.grid (sharedText texts) = grid := by
  unfold sheetGrid
  cases gather texts.length vd with
  | error e => simp
  | ok g => simp

/-- Conversion is local in a run just when every cell that is kept in a converted column, and is a
shared string, holds a text that conversion leaves. -/
theorem conversion_local_iff (a : Addresses) (w : Workbook) {names vs : List StrPtr} {k : ℕ}
    {s₀ s : Memory} {results : List (Option Sheet)} (hstart : start w = .ok (names, vs, s₀))
    (hread : readSheets a w names vs k s₀ = .ok (results, s)) :
    LocalRun w results s₀.intern s.intern ↔
      ∀ i < k, i < (sheetNames w.workbook).length →
        hasChinese ((sheetNames w.workbook).getD i []) = false →
          UntouchedSheet (sharedTexts none w.sharedStrings) (w.worksheet i) := by
  have hreading := start_spec hstart
  have hvs : ∀ k, s₀.intern.Valid (pointer vs k) := fun k => (hreading.ready.pointer k).1
  have halloc : Allocated s₀.intern.Valid s₀.intern := ⟨hreading.ready.wf.lt, fun _ hp => hp⟩
  have hshared : sharedOf hvs (watched s₀.intern.Valid s₀.intern) =
      sharedText (sharedTexts none w.sharedStrings) := hreading.ready.present
  have hlen : vs.length = (sharedTexts none w.sharedStrings).length :=
    hreading.ready.points.length_eq.symm
  have hcount : (sheetNames w.workbook).length = names.length := hreading.names.length_eq
  have hloop := readSheets_converts hvs
    (fun x hx => (hreading.points (mem_rounds.mp hx).2).1) halloc hread
  constructor
  · rintro ⟨-, hkept⟩ i hik hi hname grid hgrid
    obtain ⟨g, hg, rfl⟩ := sheetGrid_eq_some_iff.mp hgrid
    have hi' : i < names.length := by omega
    have hp : names[i]? = some names[i] := List.getElem?_eq_getElem hi'
    have hpoint := hreading.points hp
    -- Nothing that was watched has changed, so every sheet was found untouched.
    have hstill := hloop.still (funext fun p => (hkept p p.2).2) (names[i], i)
      (mem_rounds.mpr ⟨hik, hp⟩) hpoint.1 (by rw [← hpoint.2] at hname; exact hname) g (hlen ▸ hg)
    rw [hshared] at hstill
    exact hstill
  · intro hok
    have hrounds : ∀ x ∈ names.zipIdx.take k,
        UntouchedRound hvs w x (watched s₀.intern.Valid s₀.intern) := by
      rintro ⟨p, i⟩ hx hvalid hname g hg
      obtain ⟨hik, hp⟩ := mem_rounds.mp hx
      obtain ⟨hi, -⟩ := List.getElem?_eq_some_iff.mp hp
      rw [hshared]
      have hname' : hasChinese (s₀.intern.textOf p) = false := hname
      rw [(hreading.points hp).2] at hname'
      rw [hlen] at hg
      exact hok i hik (by omega) hname' _ (sheetGrid_eq_some_iff.mpr ⟨g, hg, rfl⟩)
    obtain ⟨-, he, hrights⟩ := hloop.keeps hrounds
    refine ⟨fun i sheet hsheet grid hgrid => ?_, he⟩
    obtain ⟨g, hg, rfl⟩ := sheetGrid_eq_some_iff.mp hgrid
    obtain ⟨hi, hsheet⟩ := List.getElem?_eq_some_iff.mp hsheet
    have hi' : i < (names.zipIdx.take k).length := hrights.length_eq ▸ hi
    have hright := (List.forall₂_iff_get.mp hrights).2 i hi' hi sheet hsheet
    rw [hshared, hlen] at hright
    have hround : ((names.zipIdx.take k).get ⟨i, hi'⟩).2 = i := by simp
    rw [hround] at hright
    exact hright g hg

/-! ## An ampersand that is escaped twice -/

/-- A workbook of one sheet with two data rows, whose plain cells are one shared string. -/
def sharedPlain (cell : String) : Workbook where
  workbook := [⟨.sheet, [], [bytes "s"]⟩]
  sharedStrings := ["b", "c", cell, "id", "x", "plain"].flatMap fun s =>
    [⟨.si, [], []⟩, ⟨.t, bytes s, []⟩]
  worksheet := fun _ =>
    sharedCell "A1" "3" ++ sharedCell "B1" "5" ++ sharedCell "A2" "3" ++ sharedCell "B2" "4" ++
    sharedCell "A3" "3" ++ sharedCell "A4" "0" ++ sharedCell "B4" "2" ++ sharedCell "A5" "1" ++
      sharedCell "B5" "2"

/-- The first sheet of a run, and the memory before and after it. -/
def firstSheet (w : Workbook) : Option (Sheet × Intern × Intern) :=
  match start w with
  | .error _ => none
  | .ok (names, vs, s₀) =>
    match readSheets Addresses.below w names vs 1 s₀ with
    | .ok (some sheet :: _, s) => some (sheet, s₀.intern, s.intern)
    | _ => none

theorem firstSheet_spec {w : Workbook} {sheet : Sheet} {s₀ s : Intern}
    (h : firstSheet w = some (sheet, s₀, s)) : ∃ names vs m₀ results m,
      start w = .ok (names, vs, m₀) ∧
        readSheets Addresses.below w names vs 1 m₀ = .ok (results, m) ∧
        m₀.intern = s₀ ∧ m.intern = s ∧ results[0]? = some (some sheet) := by
  unfold firstSheet at h
  cases hstart : start w with
  | error e =>
    rw [hstart] at h
    cases h
  | ok r =>
    obtain ⟨names, vs, m₀⟩ := r
    rw [hstart] at h
    dsimp only at h
    split at h
    · rename_i hread
      cases h
      exact ⟨names, vs, m₀, _, _, rfl, hread, rfl, rfl, rfl⟩
    · cases h

/-- When the shared string has nothing to convert, both cells are what it is. -/
theorem conversion_local_sharedPlain : ∃ names vs s₀ results s,
    start (sharedPlain "y") = .ok (names, vs, s₀) ∧
      readSheets Addresses.below (sharedPlain "y") names vs 1 s₀ = .ok (results, s) ∧
        LocalRun (sharedPlain "y") results s₀.intern s.intern := by
  have hsome : (firstSheet (sharedPlain "y")).isSome = true := by decide +kernel
  obtain ⟨⟨sheet, s₀, s⟩, hfirst⟩ := Option.isSome_iff_exists.mp hsome
  obtain ⟨names, vs, m₀, results, m, hstart, hread, -⟩ := firstSheet_spec hfirst
  refine ⟨names, vs, m₀, results, m, hstart, hread,
    (conversion_local_iff Addresses.below (sharedPlain "y") hstart hread).mpr ?_⟩
  decide +kernel

/-- An escaped ampersand that is escaped again is converted for the first cell and then, where it
is, for the second, so that both cells are left with the ampersand alone. -/
theorem ampersand_converted_twice : ∃ names vs s₀ results s,
    start (sharedPlain "&amp;amp;") = .ok (names, vs, s₀) ∧
      readSheets Addresses.below (sharedPlain "&amp;amp;") names vs 1 s₀ = .ok (results, s) ∧
        ¬LocalRun (sharedPlain "&amp;amp;") results s₀.intern s.intern := by
  generalize htexts : sharedText (sharedTexts none (sharedPlain "&amp;amp;").sharedStrings) = shared
  have hfirst : ((firstSheet (sharedPlain "&amp;amp;")).any fun r =>
      r.2.2.textOf (r.1.vvs 2 1) = bytes "&") = true := by
    decide +kernel
  have hcell : ((sheetGrid (sharedTexts none (sharedPlain "&amp;amp;").sharedStrings)
      ((sharedPlain "&amp;amp;").worksheet 0)).any fun grid => grid.data[0]?.any fun row =>
        1 ∈ upFrom 1 grid.m ∧ convertedText (cellText shared (grid.type 1)) = some .plain ∧
          cellText shared (row 1) = bytes "&amp;amp;") = true := by
    rw [← htexts]
    decide +kernel
  obtain ⟨⟨sheet, s₀, s⟩, hrun, htext⟩ := (Option.any_eq_true _ _).mp hfirst
  obtain ⟨grid, hgrid, hcell⟩ := (Option.any_eq_true _ _).mp hcell
  obtain ⟨row, hrow, hcell⟩ := (Option.any_eq_true _ _).mp hcell
  obtain ⟨hj, htype, hsource⟩ := of_decide_eq_true hcell
  obtain ⟨names, vs, m₀, results, m, hstart, hread, rfl, rfl, hsheet⟩ := firstSheet_spec hrun
  refine ⟨names, vs, m₀, results, m, hstart, hread, fun hlocal => ?_⟩
  have hright := hlocal.converted 0 sheet hsheet grid hgrid 0 row hrow 1 hj
  rw [htexts] at hright
  obtain ⟨r, hr, hpoints⟩ := hright .plain htype
  rw [hsource] at hr
  -- On its own the cell would come to the text that is escaped once.
  have halone : convert .plain (bytes "&amp;amp;") = .ok (bytes "&amp;", bytes "&amp;") := by
    decide +kernel
  cases halone.symm.trans hr
  exact absurd (hpoints.2.symm.trans (of_decide_eq_true htext)) (by decide)

end Catse.Myxml2
