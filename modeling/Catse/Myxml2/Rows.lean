import Catse.Myxml2.Duplicates
import Mathlib.Data.List.Dedup

/-!
# Rows by their numbers

A cell says by its reference in which row it stands. `excelRows` puts every cell there, so that it
says what a sheet has in each row, and `rowNumbers` are the rows that there are. The first loop of
`getVvs` does not use the numbers for this: it begins a new row at a number that is greater than the
last. `gather_rows` connects the two: the rows are those of `rowNumbers`, in order, whatever the
numbers are. The fourth of them is where the data begins, and whether this is the fourth row of the
sheet is what `rows_kept_iff` is about.
-/

namespace Catse.Myxml2

/-! ## The cells of a sheet, where they stand -/

/-- The row of an element that is a cell. -/
def cellRow (d : Dot) : Option ℤ :=
  if d.name = .c then some (rowOf (d.vkv.headD [])) else none

/-- The numbers of the rows that have cells, in order. -/
def rowNumbers (vd : List Dot) : List ℤ :=
  ((vd.filterMap cellRow).filter fun r => 0 < r).dedup.insertionSort fun r r' => r ≤ r'

/-- The current cell, and all cells by their rows. -/
structure Place where
  row : ℤ
  col : ℤ
  ist : Bool
  cells : ℤ → RawRow

/-- What an element adds: a value goes to the row and the column of the current cell. -/
def Place.step (vsLen : ℕ) (p : Place) (d : Dot) : Place :=
  match d.name with
  | .c => { p with
      row := rowOf (d.vkv.headD [])
      col := columnOf (d.vkv.headD [])
      ist := d.vkv.tail.head? = some [115] }
  | .v =>
    let old := p.cells p.row p.col.toNat
    let value := (valueOf vsLen p.ist d.text old).toOption.getD old
    { p with
      cells := Function.update p.cells p.row (Function.update (p.cells p.row) p.col.toNat value) }
  | _ => p

/-- What each row of a sheet has. -/
def excelRows (vsLen : ℕ) (vd : List Dot) : ℤ → RawRow :=
  (vd.foldl (Place.step vsLen) ⟨0, 0, false, fun _ _ => none⟩).cells

theorem mem_rowNumbers {vd : List Dot} {r : ℤ} :
    r ∈ rowNumbers vd ↔ 0 < r ∧ r ∈ vd.filterMap cellRow := by
  rw [rowNumbers, (List.perm_insertionSort _ _).mem_iff, List.mem_dedup, List.mem_filter,
    decide_eq_true_iff, and_comm]

theorem rowNumbers_pairwise (vd : List Dot) : (rowNumbers vd).Pairwise (· < ·) := by
  have hle : (rowNumbers vd).Pairwise (· ≤ ·) := List.pairwise_insertionSort _ _
  have hne : (rowNumbers vd).Nodup :=
    (List.perm_insertionSort _ _).nodup_iff.mpr (List.nodup_dedup _)
  exact (hle.and hne).imp fun ⟨hle, hne⟩ => lt_of_le_of_ne hle hne

/-! ## What the first loop does -/

variable {vsLen : ℕ}

/-- The first loop is where the cells of `p` are placed, and `ns` are the numbers of its rows, the
newest first. -/
structure Gather.At (g : Gather) (p : Place) (ns : List ℤ) : Prop where
  row : p.row = g.rowOld
  col : p.col = g.col
  ist : p.ist = g.ist
  rows : g.rows = ns.map p.cells
  last : ns.headD 0 = g.rowOld
  desc : ns.Pairwise (· > ·)
  pos : ∀ r ∈ ns, 0 < r
  empty : ∀ r ∉ ns, p.cells r = fun _ => none

theorem Gather.At.le {g : Gather} {p : Place} {ns : List ℤ} (h : g.At p ns) :
    0 ≤ g.rowOld ∧ ∀ r ∈ ns, r ≤ g.rowOld := by
  have hlast := h.last
  cases ns with
  | nil => exact ⟨hlast.le, fun r hr => absurd hr List.not_mem_nil⟩
  | cons n ns =>
    have hn : n = g.rowOld := hlast
    have hpos := h.pos n List.mem_cons_self
    refine ⟨by omega, fun r hr => ?_⟩
    rcases List.mem_cons.mp hr with rfl | hr
    · exact hn.le
    · have := (List.pairwise_cons.mp h.desc).1 r hr
      omega

/-- A cell in a row that is greater than the last. -/
theorem Gather.At.newRow {g : Gather} {p : Place} {ns : List ℤ} (h : g.At p ns) {r col : ℤ}
    {ist : Bool} (hr : g.rowOld < r) :
    Gather.At { g with rows := (fun _ => none) :: g.rows, rowOld := r, col := col, ist := ist }
      { p with row := r, col := col, ist := ist } (r :: ns) := by
  obtain ⟨h0, hle⟩ := h.le
  have hnew : r ∉ ns := fun hmem => absurd (hle r hmem) (not_le.mpr hr)
  constructor
  · rfl
  · rfl
  · rfl
  · show (fun _ => none) :: g.rows = p.cells r :: ns.map p.cells
    rw [h.empty r hnew, h.rows]
  · rfl
  · refine List.pairwise_cons.mpr ⟨fun r' hr' => ?_, h.desc⟩
    exact lt_of_le_of_lt (hle r' hr') hr
  · exact List.forall_mem_cons.mpr ⟨by omega, h.pos⟩
  · intro r' hr'
    exact h.empty r' fun hmem => hr' (List.mem_cons_of_mem _ hmem)

/-- A value in the last row. -/
theorem Gather.At.value {g : Gather} {p : Place} {ns : List ℤ} (h : g.At p ns) {row : RawRow}
    {rows : List RawRow} (hrows : g.rows = row :: rows) (m : ℕ) (v : Option Raw) :
    p.cells p.row = row ∧
      Gather.At { g with rows := Function.update row g.col.toNat v :: rows, m := m }
        { p with
          cells := Function.update p.cells p.row (Function.update (p.cells p.row) p.col.toNat v) }
        ns := by
  have hmap := h.rows.symm.trans hrows
  cases ns with
  | nil => cases hmap
  | cons n ns =>
    obtain ⟨hcells, hrest⟩ := List.cons.inj hmap
    have hn : n = p.row := h.last.trans h.row.symm
    rw [hn] at hcells
    -- The other rows are below the last one.
    have hother : ∀ r ∈ ns, r ≠ p.row := fun r hr heq =>
      absurd ((List.pairwise_cons.mp h.desc).1 r hr) (by omega)
    refine ⟨hcells, ⟨h.row, h.col, h.ist, ?_, h.last, h.desc, h.pos, ?_⟩⟩
    · rw [List.map_cons, hn]
      dsimp only
      rw [Function.update_self, hcells, h.col, ← hrest]
      congr 1
      exact List.map_congr_left fun r hr => (Function.update_of_ne (hother r hr) _ _).symm
    · intro r hr
      have hne : r ≠ p.row := fun heq => hr (heq ▸ hn ▸ List.mem_cons_self)
      show Function.update p.cells p.row _ r = _
      rw [Function.update_of_ne hne]
      exact h.empty r hr

/-- One element. -/
theorem Gather.At.step {g g' : Gather} {p : Place} {ns : List ℤ} {d : Dot} (h : g.At p ns)
    (hr : gatherStep vsLen g d = .ok g') :
    ∃ ns', g'.At (p.step vsLen d) ns' ∧
      ∀ r, r ∈ ns' ↔ r ∈ ns ∨ 0 < r ∧ cellRow d = some r := by
  obtain ⟨ref, vkv, hname, hvkv, hcases⟩ | ⟨row, rows, v, hname, hrows, -, -, hv, rfl⟩ |
    ⟨hc, hv, rfl⟩ := gatherStep_cases hr
  · have hcell : cellRow d = some (rowOf ref) := by rw [cellRow, if_pos hname, hvkv]; rfl
    have hstep : p.step vsLen d = { p with
        row := rowOf ref
        col := columnOf ref
        ist := vkv.head? = some [115] } := by
      rw [Place.step, hname, hvkv]
      rfl
    obtain ⟨h0, hle⟩ := h.le
    rw [hstep, hcell]
    -- A cell of a new row, or of the row that is being read.
    rcases hcases with ⟨hnew, -, rfl⟩ | ⟨hold, rfl⟩
    · refine ⟨rowOf ref :: ns, h.newRow hnew, fun r => ?_⟩
      rw [List.mem_cons, or_comm, Option.some.injEq]
      exact or_congr_right ⟨fun hr => ⟨by omega, hr.symm⟩, fun hr => hr.2.symm⟩
    · refine ⟨ns, ⟨hold.symm, rfl, rfl, h.rows, h.last, h.desc, h.pos, h.empty⟩, fun r => ?_⟩
      refine ⟨.inl, fun hr => hr.elim id fun ⟨hpos, hr⟩ => ?_⟩
      have hrow : rowOf ref = r := Option.some.inj hr
      have hlast := h.last
      cases ns with
      | nil => exact absurd hlast (by rw [List.headD_nil]; omega)
      | cons n ns =>
        have hn : n = r := by rw [List.headD_cons] at hlast; omega
        exact hn ▸ List.mem_cons_self
  · -- A value goes to the current cell of the last row.
    obtain ⟨hcells, hat⟩ := h.value hrows (max g.m (g.col.toNat + 1)) v
    have hstep : p.step vsLen d =
        { p with
          cells :=
            Function.update p.cells p.row (Function.update (p.cells p.row) p.col.toNat v) } := by
      rw [Place.step, hname]
      dsimp only
      rw [hcells, h.col, h.ist, hv]
      rfl
    have hcell : cellRow d = none := if_neg (by rw [hname]; decide)
    rw [hstep, hcell]
    exact ⟨ns, hat, fun r => ⟨.inl, fun hr => hr.elim id fun hr => by cases hr.2⟩⟩
  · -- Any other element passes.
    have hstep : p.step vsLen d = p := by
      cases hname : d.name with
      | c => exact absurd hname hc
      | v => exact absurd hname hv
      | si | t | sheet => rw [Place.step, hname]
    rw [hstep, cellRow, if_neg hc]
    exact ⟨ns, h, fun r => ⟨.inl, fun hr => hr.elim id fun hr => by cases hr.2⟩⟩

/-- The whole loop. -/
theorem Gather.At.run {vd : List Dot} {g g' : Gather} {p : Place} {ns : List ℤ} (h : g.At p ns)
    (hr : vd.foldlM (gatherStep vsLen) g = .ok g') :
    ∃ ns', g'.At (vd.foldl (Place.step vsLen) p) ns' ∧
      ∀ r, r ∈ ns' ↔ r ∈ ns ∨ 0 < r ∧ r ∈ vd.filterMap cellRow := by
  induction vd generalizing g p ns with
  | nil =>
    cases hr
    exact ⟨ns, h, fun r => by simp⟩
  | cons d vd ih =>
    rw [List.foldlM_cons] at hr
    obtain ⟨g₁, hstep, hr⟩ := ok_of_bind hr
    obtain ⟨ns₁, h₁, hmem₁⟩ := h.step hstep
    obtain ⟨ns', h', hmem'⟩ := ih h₁ hr
    refine ⟨ns', h', fun r => ?_⟩
    have hcons :
        r ∈ (d :: vd).filterMap cellRow ↔ cellRow d = some r ∨ r ∈ vd.filterMap cellRow := by
      rw [List.mem_filterMap, List.mem_filterMap, List.exists_mem_cons_iff]
    rw [hmem', hmem₁, hcons, or_assoc, ← and_or_left]

/-- The rows of the first loop are the rows that there are, in order. -/
theorem gather_rows {vd : List Dot} {g : Gather} (h : gather vsLen vd = .ok g) :
    g.rows.reverse = (rowNumbers vd).map (excelRows vsLen vd) := by
  have hinit : Gather.At ⟨[], 0, 0, false, 0⟩ ⟨0, 0, false, fun _ _ => none⟩ [] :=
    ⟨rfl, rfl, rfl, rfl, rfl, List.Pairwise.nil, fun _ hr => absurd hr List.not_mem_nil,
      fun _ _ => rfl⟩
  obtain ⟨ns, hat, hmem⟩ := hinit.run h
  have hns : ns.reverse = rowNumbers vd := by
    refine (List.pairwise_reverse.mpr hat.desc).eq_of_mem_iff (rowNumbers_pairwise vd) fun r => ?_
    rw [List.mem_reverse, hmem, mem_rowNumbers]
    simp
  rw [hat.rows, ← List.map_reverse, hns]
  rfl

/-! ## The rows that are kept -/

/-- What is left of a row in the columns that are kept. -/
def Gather.compact (shared : ℕ → List UInt8) (g : Gather) (row : RawRow) : RawRow :=
  let h := (upFrom 1 g.m).foldl (Header.step shared)
    ⟨1, g.rows.reverse.getD 0 fun _ => none, g.rows.reverse.getD 1 fun _ => none, fun _ => false⟩
  (compactRow h.f (trim h.f g.m) row).2

theorem grid_data (shared : ℕ → List UInt8) (g : Gather) :
    (g.grid shared).data = ((g.rows.reverse.drop 3).filter fun row => filled shared (row 0)).map
      (g.compact shared) := by
  rw [Gather.grid, List.map_map]
  rfl

/-- The numbers of the rows from the fourth on that have an ID. -/
def dataNumbers (shared : ℕ → List UInt8) (vsLen : ℕ) (vd : List Dot) : List ℤ :=
  (rowNumbers vd).filter fun r => 4 ≤ r ∧ filled shared (excelRows vsLen vd r 0)

/-- The data rows of a sheet are those from the fourth row on that have an ID. -/
def KeepsDataRows (shared : ℕ → List UInt8) (vsLen : ℕ) (vd : List Dot) (sheet : Sheet) : Prop :=
  sheet.n = (dataNumbers shared vsLen vd).length + 2 ∧
    ∀ g, gather vsLen vd = .ok g → (g.grid shared).data =
      (dataNumbers shared vsLen vd).map fun r => g.compact shared (excelRows vsLen vd r)

/-- The third row has a cell, or the first row after it that has one has no ID. -/
def ThirdRow (shared : ℕ → List UInt8) (vsLen : ℕ) (vd : List Dot) : Prop :=
  3 ∈ rowNumbers vd ∨ ∀ r, (rowNumbers vd).find? (4 ≤ ·) = some r →
    filled shared (excelRows vsLen vd r 0) = false

/-- The numbers of a sheet with a first and a second row. -/
theorem rowNumbers_eq_cons {vd : List Dot} (h₁ : 1 ∈ rowNumbers vd) (h₂ : 2 ∈ rowNumbers vd) :
    ∃ rest, rowNumbers vd = 1 :: 2 :: rest ∧ rest.Pairwise (· < ·) ∧ ∀ r ∈ rest, 3 ≤ r := by
  have hsorted := rowNumbers_pairwise vd
  have hpos : ∀ r ∈ rowNumbers vd, 0 < r := fun r hr => (mem_rowNumbers.mp hr).1
  generalize rowNumbers vd = l at *
  obtain ⟨a, l, rfl⟩ := List.exists_cons_of_ne_nil (List.ne_nil_of_mem h₁)
  obtain ⟨ha, hsorted⟩ := List.pairwise_cons.mp hsorted
  have hapos := hpos a List.mem_cons_self
  have ha1 : a = 1 := by
    rcases List.mem_cons.mp h₁ with h | h
    · exact h.symm
    · have := ha 1 h
      omega
  have h₂ : 2 ∈ l := by
    rcases List.mem_cons.mp h₂ with h | h
    · omega
    · exact h
  obtain ⟨b, l, rfl⟩ := List.exists_cons_of_ne_nil (List.ne_nil_of_mem h₂)
  obtain ⟨hb, hsorted⟩ := List.pairwise_cons.mp hsorted
  have hab := ha b List.mem_cons_self
  have hb2 : b = 2 := by
    rcases List.mem_cons.mp h₂ with h | h
    · exact h.symm
    · have := hb 2 h
      omega
  refine ⟨l, by rw [ha1, hb2], hsorted, fun r hr => ?_⟩
  have := hb r hr
  omega

/-- The rows after the third of those that there are, without those that have no ID. -/
def keptNumbers (shared : ℕ → List UInt8) (vsLen : ℕ) (vd : List Dot) : List ℤ :=
  ((rowNumbers vd).drop 3).filter fun r => filled shared (excelRows vsLen vd r 0)

theorem grid_data_eq {shared : ℕ → List UInt8} {vd : List Dot} {g : Gather}
    (h : gather vsLen vd = .ok g) :
    (g.grid shared).data =
      (keptNumbers shared vsLen vd).map fun r => g.compact shared (excelRows vsLen vd r) := by
  rw [grid_data, gather_rows h, ← List.map_drop, List.filter_map, List.map_map]
  rfl

section

variable {shared : ℕ → List UInt8} {vd : List Dot}

/-- From the fourth row on, those with an ID are the data rows. -/
theorem filter_from_four {l : List ℤ} (h : ∀ r ∈ l, 4 ≤ r) :
    l.filter (fun r => 4 ≤ r ∧ filled shared (excelRows vsLen vd r 0)) =
      l.filter fun r => filled shared (excelRows vsLen vd r 0) := by
  refine List.filter_congr fun r hr => ?_
  simp [h r hr]

/-- The third row that there is, and which is dropped, is no data row. -/
theorem dataNumbers_of_thirdRow (h₁ : 1 ∈ rowNumbers vd) (h₂ : 2 ∈ rowNumbers vd)
    (h : ThirdRow shared vsLen vd) : dataNumbers shared vsLen vd = keptNumbers shared vsLen vd := by
  obtain ⟨rest, hrest, hsorted, hge⟩ := rowNumbers_eq_cons h₁ h₂
  unfold ThirdRow at h
  unfold dataNumbers keptNumbers
  rw [hrest] at h ⊢
  cases rest with
  | nil => rfl
  | cons n rest =>
    obtain ⟨hn, -⟩ := List.pairwise_cons.mp hsorted
    have hn3 := hge n List.mem_cons_self
    have hge4 : ∀ r ∈ rest, 4 ≤ r := fun r hr => by
      have := hn r hr
      omega
    have hdrop : ¬(4 ≤ n ∧ filled shared (excelRows vsLen vd n 0) = true) := by
      rintro ⟨h4, hid⟩
      rcases h with hmem | hfirst
      · have hmem : 3 ∈ rest := by
          have h3n : (3 : ℤ) ≠ n := by omega
          simpa [h3n] using hmem
        exact absurd (hge4 3 hmem) (by decide)
      · rw [hfirst n (by simp [h4])] at hid
        cases hid
    rw [List.drop_succ_cons, List.drop_succ_cons, List.drop_succ_cons, List.drop_zero,
      ← filter_from_four hge4]
    rw [List.filter_cons_of_neg (by simp), List.filter_cons_of_neg (by simp),
      List.filter_cons_of_neg (by simpa using hdrop)]

/-- A data row is dropped in place of a third row that is not there. -/
theorem dataNumbers_of_not_thirdRow (h₁ : 1 ∈ rowNumbers vd) (h₂ : 2 ∈ rowNumbers vd)
    (h : ¬ThirdRow shared vsLen vd) :
    ∃ n, dataNumbers shared vsLen vd = n :: keptNumbers shared vsLen vd := by
  obtain ⟨rest, hrest, hsorted, hge⟩ := rowNumbers_eq_cons h₁ h₂
  unfold ThirdRow at h
  unfold dataNumbers keptNumbers
  rw [hrest] at h ⊢
  push Not at h
  obtain ⟨h3, n, hfirst, hid⟩ := h
  cases rest with
  | nil => simp at hfirst
  | cons n' rest =>
    obtain ⟨hn, -⟩ := List.pairwise_cons.mp hsorted
    have hn3 := hge n' List.mem_cons_self
    have hne : (3 : ℤ) ≠ n' := by
      rintro rfl
      exact h3 (by simp)
    have h4 : 4 ≤ n' := by omega
    have hnn : n' = n := by simpa [h4] using hfirst
    have hge4 : ∀ r ∈ rest, 4 ≤ r := fun r hr => by
      have := hn r hr
      omega
    refine ⟨n, ?_⟩
    rw [List.drop_succ_cons, List.drop_succ_cons, List.drop_succ_cons, List.drop_zero,
      ← filter_from_four hge4]
    rw [List.filter_cons_of_neg (by simp), List.filter_cons_of_neg (by simp),
      List.filter_cons_of_pos (by simpa [← hnn, h4] using hid), hnn]

end

/-- The rows that are kept are the data rows just when the third row is there to be dropped, or what
is dropped for it has no ID. -/
theorem rows_kept_iff {a : Addresses} {vs : List StrPtr} {vd : List Dot} {s s' : Memory}
    {sheet : Sheet} (h : getVvs a vs vd s = .ok (sheet, s')) (h₁ : 1 ∈ rowNumbers vd)
    (h₂ : 2 ∈ rowNumbers vd) :
    KeepsDataRows (present vs s.intern) vs.length vd sheet ↔
      ThirdRow (present vs s.intern) vs.length vd := by
  obtain ⟨g, type, s₁, name, s₂, rows, hg, -, -, -, hconvert, rfl⟩ :=
    convertSheet_cases (convertSheet_of_getVvs h)
  have hlen := length_of_mapState hconvert
  rw [grid_data_eq hg, List.length_map] at hlen
  have hn : (Sheet.ofRows (g.grid (present vs s.intern)).m (type :: name :: rows)).n =
      (keptNumbers (present vs s.intern) vs.length vd).length + 2 := by
    rw [← hlen]
    rfl
  constructor
  · rintro ⟨hdata, -⟩
    by_contra hno
    obtain ⟨n, heq⟩ := dataNumbers_of_not_thirdRow h₁ h₂ hno
    rw [hn, heq, List.length_cons] at hdata
    omega
  · intro hthird
    have heq := dataNumbers_of_thirdRow h₁ h₂ hthird
    refine ⟨by rw [hn, heq], fun g' hg' => ?_⟩
    rw [heq, grid_data_eq hg']

/-! ## A sheet without a comment -/

/-- A workbook of one sheet with a data row in the fourth row, and the given cells above it. -/
def fourthRow (comment : List Dot) : Workbook where
  workbook := [⟨.sheet, [], [bytes "s"]⟩]
  sharedStrings := ["b", "id", "x", "plain"].flatMap fun s => [⟨.si, [], []⟩, ⟨.t, bytes s, []⟩]
  worksheet := fun _ =>
    sharedCell "A1" "1" ++ sharedCell "B1" "3" ++ sharedCell "A2" "1" ++ sharedCell "B2" "2" ++
      comment ++ sharedCell "A4" "0" ++ sharedCell "B4" "0"

/-- With a comment in the third row the data row is kept. -/
theorem rows_kept_comment : ∃ names vs s sheet s',
    start (fourthRow (sharedCell "A3" "1")) = .ok (names, vs, s) ∧
      getVvs Addresses.below vs ((fourthRow (sharedCell "A3" "1")).worksheet 0) s =
        .ok (sheet, s') ∧
      KeepsDataRows (present vs s.intern) vs.length
        ((fourthRow (sharedCell "A3" "1")).worksheet 0) sheet := by
  have hsome : (firstVvs (fourthRow (sharedCell "A3" "1"))).isSome = true := by decide +kernel
  obtain ⟨⟨vs, s, sheet, s'⟩, hfirst⟩ := Option.isSome_iff_exists.mp hsome
  obtain ⟨⟨names, hstart⟩, hvvs⟩ := firstVvs_spec hfirst
  exact ⟨names, vs, s, sheet, s', hstart, hvvs,
    (rows_kept_iff hvvs (by decide +kernel) (by decide +kernel)).mpr (.inl (by decide +kernel))⟩

/-- Without one the data row itself is dropped in its place. -/
theorem fourth_row_lost : ∃ names vs s sheet s',
    start (fourthRow []) = .ok (names, vs, s) ∧
      getVvs Addresses.below vs ((fourthRow []).worksheet 0) s = .ok (sheet, s') ∧
        1 ∈ rowNumbers ((fourthRow []).worksheet 0) ∧ 2 ∈ rowNumbers ((fourthRow []).worksheet 0) ∧
          ¬KeepsDataRows (present vs s.intern) vs.length ((fourthRow []).worksheet 0) sheet := by
  have hlost : ((firstVvs (fourthRow [])).any fun r => r.2.2.1.n = 2 ∧
      (dataNumbers (present r.1 r.2.1.intern) r.1.length ((fourthRow []).worksheet 0)).length = 1) =
      true := by
    decide +kernel
  obtain ⟨⟨vs, s, sheet, s'⟩, hfirst, hlost⟩ := (Option.any_eq_true _ _).mp hlost
  obtain ⟨⟨names, hstart⟩, hvvs⟩ := firstVvs_spec hfirst
  obtain ⟨hn, hdata⟩ := of_decide_eq_true hlost
  refine ⟨names, vs, s, sheet, s', hstart, hvvs, by decide +kernel, by decide +kernel, ?_⟩
  rintro ⟨hlen, -⟩
  rw [hn, hdata] at hlen
  cases hlen

end Catse.Myxml2
