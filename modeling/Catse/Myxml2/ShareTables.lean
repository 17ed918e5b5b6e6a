import Catse.Myxml2.Share

/-!
# What the tables of shared things hold

The comparators order cells, rows and sheets by lists of addresses, so that the sorted tables are
right about them. What `cmpRow` takes to be the same row is `ShareRow.Same`, and what `cmpSheet`
takes to be the same sheet is `Sheet.Same`; types are in the second and not in the first. The two
results are about where things stand in the book: a row is found among the shared ones when it
stands in two places of the sheets that `cmpSheet` keeps apart (`found_row_iff`), and a sheet when
it stands in two places of the book (`found_sheet_iff`).
-/

namespace Catse.Myxml2

open SortedTable

/-! ## Differences -/

/-- The list of differences of two lists of the same length. -/
structure Diffs (ds k l : List ℤ) : Prop where
  eq : ds = List.zipWith (fun x y => x - y) k l
  length : k.length = l.length

theorem Diffs.append {ds ds' k k' l l' : List ℤ} (h : Diffs ds k l) (h' : Diffs ds' k' l') :
    Diffs (ds ++ ds') (k ++ k') (l ++ l') where
  eq := by rw [h.eq, h'.eq, List.zipWith_append h.length]
  length := by rw [List.length_append, List.length_append, h.length, h'.length]

theorem diffs_map {ι : Type} (f g : ι → ℤ) (is : List ι) :
    Diffs (is.map fun i => f i - g i) (is.map f) (is.map g) where
  eq := by rw [List.zipWith_map, List.zipWith_self]
  length := by rw [List.length_map, List.length_map]

theorem diffs_flatMap {ι : Type} {d f g : ι → List ℤ} (is : List ι)
    (h : ∀ i ∈ is, Diffs (d i) (f i) (g i)) :
    Diffs (is.flatMap d) (is.flatMap f) (is.flatMap g) := by
  induction is with
  | nil => exact ⟨rfl, rfl⟩
  | cons i is ih =>
    rw [List.flatMap_cons, List.flatMap_cons, List.flatMap_cons]
    exact (h i List.mem_cons_self).append (ih fun j hj => h j (List.mem_cons_of_mem _ hj))

theorem firstDiff_cons_neg_iff {x y : ℤ} {ds : List ℤ} :
    firstDiff ((x - y) :: ds) < 0 ↔ x < y ∨ x = y ∧ firstDiff ds < 0 := by
  rw [firstDiff]
  split_ifs <;> omega

theorem firstDiff_cons_eq_zero_iff {x y : ℤ} {ds : List ℤ} :
    firstDiff ((x - y) :: ds) = 0 ↔ x = y ∧ firstDiff ds = 0 := by
  rw [firstDiff]
  split_ifs <;> omega

/-- The first difference is that of the first position where the lists differ. -/
theorem Diffs.neg_iff {ds k l : List ℤ} (h : Diffs ds k l) : firstDiff ds < 0 ↔ k < l := by
  obtain ⟨rfl, hlen⟩ := h
  induction k generalizing l with
  | nil =>
    have hl : l = [] := List.length_eq_zero_iff.mp hlen.symm
    rw [hl]
    exact ⟨fun h => absurd h (by decide), fun h => absurd h (lt_irrefl _)⟩
  | cons x k ih =>
    cases l with
    | nil => exact absurd hlen (by simp)
    | cons y l =>
      rw [List.zipWith_cons_cons, firstDiff_cons_neg_iff, List.cons_lt_cons_iff,
        ih (Nat.succ.inj hlen)]

theorem Diffs.zero_iff {ds k l : List ℤ} (h : Diffs ds k l) : firstDiff ds = 0 ↔ k = l := by
  obtain ⟨rfl, hlen⟩ := h
  induction k generalizing l with
  | nil =>
    have hl : l = [] := List.length_eq_zero_iff.mp hlen.symm
    rw [hl]
    exact ⟨fun _ => rfl, fun _ => rfl⟩
  | cons x k ih =>
    cases l with
    | nil => exact absurd hlen (by simp)
    | cons y l =>
      rw [List.zipWith_cons_cons, firstDiff_cons_eq_zero_iff, List.cons.injEq,
        ih (Nat.succ.inj hlen)]

/-! ## The comparators -/

namespace Addresses

variable (a : Addresses)

/-- What `cmpRow` orders by. -/
def keyOfRow (x : ShareRow) : List ℤ :=
  x.m :: ((upFrom 1 x.m).map (fun j => a.addr (x.name j)) ++ (upFrom 1 x.m).map fun j =>
    a.addr (x.row j))

/-- What `cmpSheet` orders by. -/
def keyOfSheet (x : Sheet) : List ℤ :=
  x.n :: x.m :: (upFrom 0 x.n).flatMap fun i => (upFrom 0 x.m).map fun j => a.addr (x.vvs i j)

theorem compares_cmpCell (x : StrPtr) : Compares (a.addr x) a.addr (a.cmpCell x) where
  neg_iff := fun _ => sub_neg
  zero_iff := fun _ => sub_eq_zero

theorem compares_cmpRow (x : ShareRow) : Compares (a.keyOfRow x) a.keyOfRow (a.cmpRow x) := by
  have hcells : ∀ y : ShareRow, x.m = y.m →
      Diffs ((upFrom 1 x.m).map (fun j => a.addr (x.name j) - a.addr (y.name j)) ++
          (upFrom 1 x.m).map fun j => a.addr (x.row j) - a.addr (y.row j))
        ((upFrom 1 x.m).map (fun j => a.addr (x.name j)) ++ (upFrom 1 x.m).map fun j =>
          a.addr (x.row j))
        ((upFrom 1 y.m).map (fun j => a.addr (y.name j)) ++ (upFrom 1 y.m).map fun j =>
          a.addr (y.row j)) := by
    intro y hm
    rw [← hm]
    exact (diffs_map _ _ _).append (diffs_map _ _ _)
  constructor
  · intro y
    rw [cmpRow, firstDiff_cons_neg_iff, keyOfRow, keyOfRow, List.cons_lt_cons_iff]
    refine or_congr_right (and_congr_right fun hm => ?_)
    exact (hcells y (Int.natCast_inj.mp hm)).neg_iff
  · intro y
    rw [cmpRow, firstDiff_cons_eq_zero_iff, keyOfRow, keyOfRow, List.cons.injEq]
    refine and_congr_right fun hm => ?_
    exact (hcells y (Int.natCast_inj.mp hm)).zero_iff

theorem compares_cmpSheet (x : Sheet) : Compares (a.keyOfSheet x) a.keyOfSheet (a.cmpSheet x) := by
  have hrows : ∀ y : Sheet, x.n = y.n → x.m = y.m →
      Diffs ((upFrom 0 x.n).flatMap fun i => (upFrom 0 x.m).map fun j =>
        a.addr (x.vvs i j) - a.addr (y.vvs i j))
        ((upFrom 0 x.n).flatMap fun i => (upFrom 0 x.m).map fun j => a.addr (x.vvs i j))
        ((upFrom 0 y.n).flatMap fun i => (upFrom 0 y.m).map fun j => a.addr (y.vvs i j)) := by
    intro y hn hm
    rw [← hn, ← hm]
    exact diffs_flatMap _ fun i _ => diffs_map _ _ _
  constructor
  · intro y
    rw [cmpSheet, firstDiff_cons_neg_iff, firstDiff_cons_neg_iff, keyOfSheet, keyOfSheet,
      List.cons_lt_cons_iff,
      List.cons_lt_cons_iff]
    refine or_congr_right (and_congr_right fun hn => or_congr_right (and_congr_right fun hm => ?_))
    exact (hrows y (Int.natCast_inj.mp hn) (Int.natCast_inj.mp hm)).neg_iff
  · intro y
    rw [cmpSheet, firstDiff_cons_eq_zero_iff, firstDiff_cons_eq_zero_iff, keyOfSheet, keyOfSheet,
      List.cons.injEq,
      List.cons.injEq]
    refine and_congr_right fun hn => and_congr_right fun hm => ?_
    exact (hrows y (Int.natCast_inj.mp hn) (Int.natCast_inj.mp hm)).zero_iff

end Addresses

/-- The same row for `cmpRow`: the names and the cells are those of the other, from the second
column on. -/
structure ShareRow.Same (x y : ShareRow) : Prop where
  m : x.m = y.m
  name : ∀ j ∈ upFrom 1 x.m, x.name j = y.name j
  row : ∀ j ∈ upFrom 1 x.m, x.row j = y.row j

/-- The same sheet for `cmpSheet`. -/
structure Sheet.Same (x y : Sheet) : Prop where
  n : x.n = y.n
  m : x.m = y.m
  vvs : ∀ i ∈ upFrom 0 x.n, ∀ j ∈ upFrom 0 x.m, x.vvs i j = y.vvs i j

theorem ShareRow.Same.symm {x y : ShareRow} (h : x.Same y) : y.Same x :=
  ⟨h.m.symm, fun j hj => (h.name j (h.m ▸ hj)).symm, fun j hj => (h.row j (h.m ▸ hj)).symm⟩

theorem ShareRow.Same.trans {x y z : ShareRow} (h : x.Same y) (h' : y.Same z) : x.Same z :=
  ⟨h.m.trans h'.m, fun j hj => (h.name j hj).trans (h'.name j (h.m ▸ hj)),
    fun j hj => (h.row j hj).trans (h'.row j (h.m ▸ hj))⟩

theorem Sheet.Same.symm {x y : Sheet} (h : x.Same y) : y.Same x :=
  ⟨h.n.symm, h.m.symm, fun i hi j hj => (h.vvs i (h.n ▸ hi) j (h.m ▸ hj)).symm⟩

theorem Sheet.Same.trans {x y z : Sheet} (h : x.Same y) (h' : y.Same z) : x.Same z :=
  ⟨h.n.trans h'.n, h.m.trans h'.m,
    fun i hi j hj => (h.vvs i hi j hj).trans (h'.vvs i (h.n ▸ hi) j (h.m ▸ hj))⟩

/-- A row with its number belongs to the sheet. -/
theorem mem_upFrom_zero {i n : ℕ} (h : i ∈ upFrom 2 n) :
    i ∈ upFrom 0 n ∧ 0 ∈ upFrom 0 n ∧ 1 ∈ upFrom 0 n := by
  simp only [mem_upFrom] at h ⊢
  omega

/-- Same sheets have the same rows. -/
theorem Sheet.Same.rowAt {x y : Sheet} (h : x.Same y) {i : ℕ} (hi : i ∈ upFrom 2 x.n) :
    (x.rowAt i).Same (y.rowAt i) := by
  obtain ⟨hi, -, h1⟩ := mem_upFrom_zero hi
  have hcol : ∀ j ∈ upFrom 1 x.m, j ∈ upFrom 0 x.m := fun j hj => by
    simp only [mem_upFrom] at hj ⊢
    omega
  exact ⟨h.m, fun j hj => h.vvs 1 h1 j (hcol j hj), fun j hj => h.vvs i hi j (hcol j hj)⟩

/-- Same sheets have the same types. -/
theorem Sheet.Same.varType {x y : Sheet} (h : x.Same y) {i : ℕ} (hi : i ∈ upFrom 2 x.n) :
    ∀ j ∈ upFrom 1 x.m, (x.rowAt i).varType j = (y.rowAt i).varType j := by
  obtain ⟨-, h0, -⟩ := mem_upFrom_zero hi
  intro j hj
  refine h.vvs 0 h0 j ?_
  simp only [mem_upFrom] at hj ⊢
  omega

namespace Addresses

variable (a : Addresses)

theorem keyOfRow_eq_iff {x y : ShareRow} : a.keyOfRow x = a.keyOfRow y ↔ x.Same y := by
  rw [keyOfRow, keyOfRow, List.cons.injEq, Int.natCast_inj]
  constructor
  · rintro ⟨hm, h⟩
    rw [← hm] at h
    obtain ⟨hname, hrow⟩ := List.append_inj h (by rw [List.length_map, List.length_map])
    exact ⟨hm, fun j hj => a.injective (List.map_inj_left.mp hname j hj),
      fun j hj => a.injective (List.map_inj_left.mp hrow j hj)⟩
  · intro h
    refine ⟨h.m, ?_⟩
    rw [← h.m, List.map_congr_left fun j hj => congrArg a.addr (h.name j hj),
      List.map_congr_left fun j hj => congrArg a.addr (h.row j hj)]

/-- Equal sequences of rows are equal row by row. -/
theorem flatMap_map_inj {f g : ℕ → ℕ → ℤ} (is js : List ℕ)
    (h : is.flatMap (fun i => js.map (f i)) = is.flatMap fun i => js.map (g i)) :
    ∀ i ∈ is, ∀ j ∈ js, f i j = g i j := by
  induction is with
  | nil => exact fun i hi => absurd hi List.not_mem_nil
  | cons k is ih =>
    rw [List.flatMap_cons, List.flatMap_cons] at h
    obtain ⟨hk, hrest⟩ := List.append_inj h (by rw [List.length_map, List.length_map])
    intro i hi
    rcases List.mem_cons.mp hi with rfl | hi
    · exact List.map_inj_left.mp hk
    · exact ih hrest i hi

theorem keyOfSheet_eq_iff {x y : Sheet} : a.keyOfSheet x = a.keyOfSheet y ↔ x.Same y := by
  rw [keyOfSheet, keyOfSheet, List.cons.injEq, List.cons.injEq, Int.natCast_inj, Int.natCast_inj]
  constructor
  · rintro ⟨hn, hm, h⟩
    rw [← hn, ← hm] at h
    have hall := flatMap_map_inj (f := fun i j => a.addr (x.vvs i j))
      (g := fun i j => a.addr (y.vvs i j)) _ _ h
    exact ⟨hn, hm, fun i hi j hj => a.injective (hall i hi j hj)⟩
  · intro h
    refine ⟨h.n, h.m, ?_⟩
    rw [← h.n, ← h.m]
    refine List.flatMap_congr fun i hi => List.map_congr_left fun j hj => ?_
    exact congrArg a.addr (h.vvs i hi j hj)

/-- Same rows are looked up with the same result. -/
theorem cmpRow_congr {x y : ShareRow} (h : x.Same y) : a.cmpRow x = a.cmpRow y := by
  funext z
  have hname : (upFrom 1 x.m).map (fun j => a.addr (x.name j) - a.addr (z.name j)) =
      (upFrom 1 x.m).map fun j => a.addr (y.name j) - a.addr (z.name j) :=
    List.map_congr_left fun j hj => by rw [h.name j hj]
  have hrow : (upFrom 1 x.m).map (fun j => a.addr (x.row j) - a.addr (z.row j)) =
      (upFrom 1 x.m).map fun j => a.addr (y.row j) - a.addr (z.row j) :=
    List.map_congr_left fun j hj => by rw [h.row j hj]
  rw [cmpRow, cmpRow, ← h.m, hname, hrow]

/-- Same sheets are looked up with the same result. -/
theorem cmpSheet_congr {x y : Sheet} (h : x.Same y) : a.cmpSheet x = a.cmpSheet y := by
  funext z
  have hcells : ((upFrom 0 x.n).flatMap fun i => (upFrom 0 x.m).map fun j =>
        a.addr (x.vvs i j) - a.addr (z.vvs i j)) =
      (upFrom 0 x.n).flatMap fun i => (upFrom 0 x.m).map fun j =>
        a.addr (y.vvs i j) - a.addr (z.vvs i j) :=
    List.flatMap_congr fun i hi => List.map_congr_left fun j hj => by rw [h.vvs i hi j hj]
  rw [cmpSheet, cmpSheet, ← h.n, ← h.m, hcells]

/-! ## How many targets there are -/

theorem counts_sheets (sheets : List Sheet) : Counts a.keyOfSheet sheets (a.countSheets sheets) :=
  Counts.foldl a.compares_cmpSheet sheets

theorem counts_rows (sheets : List Sheet) :
    Counts a.keyOfRow ((a.countSheets sheets).flatMap fun t => t.1.rows) (a.countRows sheets) :=
  Counts.foldl a.compares_cmpRow _

theorem counts_cells (sheets : List Sheet) :
    Counts a.addr ((a.countRows sheets).flatMap fun t => t.1.cells) (a.countCells sheets) :=
  Counts.foldl a.compares_cmpCell _

theorem length_flatMap_le {α β : Type} {f : α → List β} {l : List α} {k : ℕ}
    (h : ∀ x ∈ l, (f x).length ≤ k) :
    (l.flatMap f).length ≤ l.length * k := by
  induction l with
  | nil => exact Nat.zero_le _
  | cons x l ih =>
    have hx := h x List.mem_cons_self
    have hl := ih fun y hy => h y (List.mem_cons_of_mem _ hy)
    rw [List.flatMap_cons, List.length_append, List.length_cons, Nat.succ_mul]
    omega

/-- The limits of a book are limits of the three sequences of targets. -/
theorem length_targets (book : Book) :
    (book.sheets.map Prod.snd).length ≤ 511 ∧
      ((a.countSheets (book.sheets.map Prod.snd)).flatMap fun t => t.1.rows).length ≤ 511 * 20000 ∧
        ((a.countRows (book.sheets.map Prod.snd)).flatMap fun t => t.1.cells).length ≤
          511 * 20000 * 128 := by
  generalize hsheets : book.sheets.map Prod.snd = sheets
  have hlen : sheets.length ≤ 511 := by
    rw [← hsheets, List.length_map]
    exact Nat.le_of_lt_succ book.length_lt
  have hsize : ∀ s ∈ sheets, s.n ≤ 20000 ∧ s.m ≤ 128 := by
    intro s hs
    rw [← hsheets] at hs
    obtain ⟨x, hx, rfl⟩ := List.mem_map.mp hs
    exact ⟨book.n_le x hx, book.m_le x hx⟩
  have hentries : (a.countSheets sheets).length ≤ 511 := (length_foldl_le _ _).trans hlen
  have hcounted : ∀ t ∈ a.countSheets sheets, t.1 ∈ sheets := (a.counts_sheets sheets).mem
  -- Each sheet has up to 20000 rows, and each row up to 128 cells.
  have hrows : ((a.countSheets sheets).flatMap fun t => t.1.rows).length ≤ 511 * 20000 := by
    refine (length_flatMap_le (k := 20000) fun t ht => ?_).trans (Nat.mul_le_mul_right _ hentries)
    have hn := (hsize t.1 (hcounted t ht)).1
    rw [Sheet.rows, List.length_map, upFrom, List.length_range']
    omega
  have hrow : ∀ t ∈ a.countRows sheets, t.1.m ≤ 128 := by
    intro t ht
    obtain ⟨u, hu, hmem⟩ := List.mem_flatMap.mp ((a.counts_rows sheets).mem t ht)
    obtain ⟨i, -, heq⟩ := List.mem_map.mp hmem
    rw [← heq]
    exact (hsize u.1 (hcounted u hu)).2
  refine ⟨hlen, hrows, ?_⟩
  refine (length_flatMap_le (k := 128) fun t ht => ?_).trans
    (Nat.mul_le_mul_right _ ((length_foldl_le _ _).trans hrows))
  have hm := hrow t ht
  have hfilter := List.length_filter_le
    (fun i => decide (t.1.varType i = .fix .table ∨ t.1.varType i = .fix .tbstr))
    (upFrom 1 t.1.m)
  rw [upFrom, List.length_range'] at hfilter
  rw [ShareRow.cells, List.length_map]
  exact hfilter.trans (by omega)

/-! ## Where shared things stand -/

/-- The places of the rows that are entered. -/
def places (sheets : List Sheet) : List (Sheet × ℕ) :=
  (a.countSheets sheets).flatMap fun t => (upFrom 2 t.1.n).map fun i => (t.1, i)

theorem rows_eq_map_places (sheets : List Sheet) :
    ((a.countSheets sheets).flatMap fun t => t.1.rows) =
    (a.places sheets).map fun p => p.1.rowAt p.2 := by
  rw [places, List.map_flatMap]
  refine List.flatMap_congr fun t _ => ?_
  rw [List.map_map]
  rfl

theorem nodup_places (sheets : List Sheet) : (a.places sheets).Nodup := by
  rw [places, List.nodup_flatMap]
  constructor
  · intro t _
    refine List.Nodup.map (fun i j h => (Prod.mk.inj h).2) ?_
    exact List.nodup_range'
  · refine (a.counts_sheets sheets).sorted.imp fun {t u} hlt => ?_
    -- Entries with different keys are different sheets.
    intro p hp hp'
    obtain ⟨i, -, rfl⟩ := List.mem_map.mp hp
    obtain ⟨j, -, h⟩ := List.mem_map.mp hp'
    have hsheet : u.1 = t.1 := (Prod.mk.inj h).1
    rw [hsheet] at hlt
    exact lt_irrefl _ hlt

theorem mem_places {sheets : List Sheet} {p : Sheet × ℕ} :
    p ∈ a.places sheets ↔ (∃ n, (p.1, n) ∈ a.countSheets sheets) ∧ p.2 ∈ upFrom 2 p.1.n := by
  obtain ⟨s, i⟩ := p
  simp only [places, List.mem_flatMap, List.mem_map, Prod.mk.injEq, Prod.exists]
  constructor
  · rintro ⟨s', n, hs, i', hi, rfl, rfl⟩
    exact ⟨⟨n, hs⟩, hi⟩
  · rintro ⟨⟨n, hs⟩, hi⟩
    exact ⟨s, n, hs, i, hi, rfl, rfl⟩

/-- A row is found when it stands in two of the places. -/
theorem found_row_iff {sheets : List Sheet} {r : ShareRow} :
    (∃ k, lookup (a.cmpRow r) (a.shares false sheets).rows = .found k) ↔
      ∃ p ∈ a.places sheets, ∃ q ∈ a.places sheets, p ≠ q ∧ (p.1.rowAt p.2).Same r ∧
      (q.1.rowAt q.2).Same r := by
  have hcounts := a.counts_rows sheets
  rw [a.rows_eq_map_places] at hcounts
  simp only [← a.keyOfRow_eq_iff]
  rw [← one_lt_countP_map_iff (a.nodup_places sheets) (fun p => p.1.rowAt p.2) (a.keyOfRow r)]
  constructor
  · rintro ⟨k, hk⟩
    obtain ⟨hlt, h0⟩ := lookup_found hk
    have hkey := ((a.compares_cmpRow r).zero_iff _).mp h0
    rw [hkey]
    exact (hcounts.count_kept (List.getElem_mem hlt)).2
  · intro hcount
    exact hcounts.lookup_kept a.compares_cmpRow 1 hcount

/-- A shared row is one of the rows. -/
theorem mem_places_of_rows {sheets : List Sheet} {x : ShareRow}
    (h : x ∈ (a.shares false sheets).rows) :
    ∃ p ∈ a.places sheets, p.1.rowAt p.2 = x := by
  have hmem := ((a.counts_rows sheets).count_kept h).1
  rw [a.rows_eq_map_places] at hmem
  exact List.mem_map.mp hmem

/-- A sheet is found when it stands in two places of the book. -/
theorem found_sheet_iff {sheets : List Sheet} {s : Sheet} :
    (∃ k, lookup (a.cmpSheet s) (a.shares false sheets).sheets = .found k) ↔
      ∃ (i j : ℕ) (t u : Sheet), i ≠ j ∧ sheets[i]? = some t ∧ sheets[j]? = some u ∧ t.Same s ∧
        u.Same s := by
  have hcounts := a.counts_sheets sheets
  -- The sheets by their numbers.
  have hmap : (List.finRange sheets.length).map (fun i => sheets[i]) = sheets := by
    apply List.ext_getElem
    · rw [List.length_map, List.length_finRange]
    · intro i hi hi'
      rw [List.getElem_map, List.getElem_finRange]
      rfl
  have hcount := @one_lt_countP_map_iff _ _ _ a.keyOfSheet _ _ (List.nodup_finRange sheets.length)
    (fun i => sheets[i]) (a.keyOfSheet s)
  rw [hmap] at hcount
  simp only [a.keyOfSheet_eq_iff] at hcount
  constructor
  · rintro ⟨k, hk⟩
    obtain ⟨hlt, h0⟩ := lookup_found hk
    have hkey := ((a.compares_cmpSheet s).zero_iff _).mp h0
    have htwice := (hcounts.count_kept (List.getElem_mem hlt)).2
    rw [← hkey] at htwice
    obtain ⟨i, -, j, -, hne, hi, hj⟩ := hcount.mp htwice
    exact ⟨i, j, _, _, fun h => hne (Fin.ext h), List.getElem?_eq_getElem i.2,
      List.getElem?_eq_getElem j.2, hi, hj⟩
  · rintro ⟨i, j, t, u, hne, hi, hj, ht, hu⟩
    obtain ⟨hlti, rfl⟩ := List.getElem?_eq_some_iff.mp hi
    obtain ⟨hltj, rfl⟩ := List.getElem?_eq_some_iff.mp hj
    have htwice := hcount.mpr ⟨⟨i, hlti⟩, List.mem_finRange _, ⟨j, hltj⟩, List.mem_finRange _,
      fun h => hne (Fin.mk.inj h), ht, hu⟩
    exact hcounts.lookup_kept a.compares_cmpSheet 1 htwice

/-- Each sheet of the book is the same as one that was entered. -/
theorem exists_countSheets {sheets : List Sheet} {s : Sheet} (h : s ∈ sheets) :
    ∃ t n, (t, n) ∈ a.countSheets sheets ∧ t.Same s := by
  obtain ⟨x, hx, hkey⟩ := (a.counts_sheets sheets).all s h
  exact ⟨x.1, x.2, hx, a.keyOfSheet_eq_iff.mp hkey⟩

end Addresses

end Catse.Myxml2
