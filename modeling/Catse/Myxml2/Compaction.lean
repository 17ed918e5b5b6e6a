import Catse.Myxml2.Books
import Catse.Myxml2.Rows

/-!
# Columns through compaction

The header rows and the data rows are compacted by two loops, each row where it is. Both are the
loop `slide`: over the header with a test that reads cells which the loop has not moved yet
(`header_eq`), and over a data row with the results of that test, up to the `m` that has been
trimmed, which leaves no column out (`filter_trim`). So all rows keep the same columns, those that
have a type and a name, in order (`columns_aligned`).
-/

namespace Catse.Myxml2

variable {shared : ℕ → List UInt8} {vsLen : ℕ} {vd : List Dot}

/-! ## The loops -/

/-- A round of the loop over the header. A column that stays where it is is not written. -/
theorem header_step_eq {f : ℕ → Bool} {h : Header} {j : ℕ} (hlen : h.len ≤ j)
    (hf : f j = (filled shared (h.type j) && filled shared (h.name j))) :
    Header.step shared h j =
      { len := (slideStep f (h.len, h.type) j).1
        type := (slideStep f (h.len, h.type) j).2
        name := (slideStep f (h.len, h.name) j).2
        f := Function.update h.f j (f j) } := by
  have hsame : ∀ row : RawRow, (if h.len < j then Function.update row h.len (row j) else row) =
      Function.update row h.len (row j) := by
    intro row
    split_ifs with hlt
    · rfl
    · have heq : j = h.len := by omega
      rw [heq, Function.update_eq_self]
  unfold Header.step slideStep
  rw [← hf]
  cases f j with
  | false => rfl
  | true =>
    rw [if_pos rfl, if_pos rfl, if_pos rfl, hsame, hsame]

/-- The loop over the header: the two rows slide by the same test. -/
theorem header_eq {f : ℕ → Bool} {l : List ℕ} (hl : l.Pairwise (· < ·)) {h : Header}
    (hlen : ∀ j ∈ l, h.len ≤ j)
    (hf : ∀ j ∈ l, f j = (filled shared (h.type j) && filled shared (h.name j))) :
    l.foldl (Header.step shared) h =
      { len := (slide f l (h.len, h.type)).1
        type := (slide f l (h.len, h.type)).2
        name := (slide f l (h.len, h.name)).2
        f := fun j => if j ∈ l then f j else h.f j } := by
  induction l generalizing h with
  | nil => simp [slide]
  | cons j l ih =>
    obtain ⟨hj, hl⟩ := List.pairwise_cons.mp hl
    obtain ⟨hlenj, hlen⟩ := List.forall_mem_cons.mp hlen
    obtain ⟨hfj, hf⟩ := List.forall_mem_cons.mp hf
    -- What is still to be read has not been written to.
    have hahead : ∀ i ∈ l, h.len < i := fun i hi => lt_of_le_of_lt hlenj (hj i hi)
    rw [List.foldl_cons, header_step_eq hlenj hfj, ih hl]
    · have hname : ((slideStep f (h.len, h.type) j).1, (slideStep f (h.len, h.name) j).2) =
          slideStep f (h.len, h.name) j :=
        Prod.ext (by rw [slideStep_fst, slideStep_fst]) rfl
      have hkeep : (fun i => if i ∈ l then f i else Function.update h.f j (f j) i) =
          fun i => if i ∈ j :: l then f i else h.f i := by
        funext i
        by_cases hil : i ∈ l
        · rw [if_pos hil, if_pos (List.mem_cons_of_mem _ hil)]
        · rw [if_neg hil]
          by_cases hij : i = j
          · rw [hij, Function.update_self, if_pos List.mem_cons_self]
          · rw [Function.update_of_ne hij, if_neg (by simp [hij, hil])]
      dsimp only
      rw [hkeep, slide_cons, slide_cons, hname]
    · intro i hi
      have := hahead i hi
      dsimp only
      rw [slideStep_fst]
      split_ifs <;> omega
    · intro i hi
      dsimp only
      rw [slideStep_snd_of_lt f (hahead i hi), slideStep_snd_of_lt f (hahead i hi)]
      exact hf i hi

/-- Trimming leaves no column out. -/
theorem filter_trim (f : ℕ → Bool) (m : ℕ) :
    (upFrom 1 (trim f m)).filter f = (upFrom 1 m).filter f := by
  induction m with
  | zero => rfl
  | succ m ih =>
    rw [trim]
    by_cases hf : f m = true
    · rw [if_pos hf]
    · rw [if_neg hf, ih]
      cases m with
      | zero => rfl
      | succ m =>
        have hlast : upFrom 1 (m + 1 + 1) = upFrom 1 (m + 1) ++ [m + 1] := by
          rw [upFrom, upFrom, Nat.add_sub_cancel, Nat.add_sub_cancel, List.range'_concat, one_mul,
            Nat.add_comm 1 m]
        rw [hlast, List.filter_append, List.filter_cons_of_neg hf, List.filter_nil, List.append_nil]

/-! ## The columns -/

/-- The first loop has put no cell in a column from `m` on. -/
theorem gather_none {g : Gather} (h : gather vsLen vd = .ok g) :
    ∀ row ∈ g.rows, ∀ j, g.m ≤ j → row j = none := by
  refine gather_induction (P := fun g => ∀ row ∈ g.rows, ∀ j, g.m ≤ j → row j = none)
    (fun g d g' hg hstep => ?_) (fun row hrow => absurd hrow List.not_mem_nil) h
  obtain ⟨-, -, -, -, ⟨-, -, rfl⟩ | ⟨-, rfl⟩⟩ | ⟨row, rows, v, -, hrows, h0, -, -, rfl⟩ |
    ⟨-, -, rfl⟩ := gatherStep_cases hstep
  · exact List.forall_mem_cons.mpr ⟨fun _ _ => rfl, hg⟩
  · exact hg
  · rw [hrows] at hg
    obtain ⟨hrow, hrest⟩ := List.forall_mem_cons.mp hg
    refine List.forall_mem_cons.mpr ⟨fun j hj => ?_, fun row' hrow' j hj => ?_⟩
    · have hj := max_le_iff.mp hj
      rw [Function.update_of_ne (by omega)]
      exact hrow j hj.1
    · exact hrest row' hrow' j (max_le_iff.mp hj).1
  · exact hg

/-- The rows of a sheet, by their numbers. -/
def sheetRows (vsLen : ℕ) (vd : List Dot) : List RawRow :=
  (rowNumbers vd).map (excelRows vsLen vd)

/-- The row of the types. -/
def typeRow (vsLen : ℕ) (vd : List Dot) : RawRow := (sheetRows vsLen vd).getD 0 fun _ => none

/-- The row of the names. -/
def nameRow (vsLen : ℕ) (vd : List Dot) : RawRow := (sheetRows vsLen vd).getD 1 fun _ => none

/-- The rows that are kept. -/
def keptRows (shared : ℕ → List UInt8) (vsLen : ℕ) (vd : List Dot) : List RawRow :=
  ((sheetRows vsLen vd).drop 3).filter fun row => filled shared (row 0)

/-- Does a column have a type and a name? -/
def isField (shared : ℕ → List UInt8) (vsLen : ℕ) (vd : List Dot) (j : ℕ) : Bool :=
  filled shared (typeRow vsLen vd j) && filled shared (nameRow vsLen vd j)

/-- The columns from the second on that have a type and a name, of the 128 that there can be. -/
def keptColumns (shared : ℕ → List UInt8) (vsLen : ℕ) (vd : List Dot) : List ℕ :=
  (upFrom 1 128).filter (isField shared vsLen vd)

/-- The columns after compaction are the kept ones, in order, in the header and in each row. -/
structure Aligned (shared : ℕ → List UInt8) (vsLen : ℕ) (vd : List Dot) (grid : Grid) : Prop where
  count : grid.m - 1 = (keptColumns shared vsLen vd).length
  type : ∀ k j, (keptColumns shared vsLen vd)[k]? = some j →
    grid.type (k + 1) = typeRow vsLen vd j
  name : ∀ k j, (keptColumns shared vsLen vd)[k]? = some j →
    grid.name (k + 1) = nameRow vsLen vd j
  data : List.Forall₂ (fun row' row => ∀ k j, (keptColumns shared vsLen vd)[k]? = some j →
    row' (k + 1) = row j) grid.data (keptRows shared vsLen vd)

/-- A column with a type is below `m`. -/
theorem lt_of_filled_type {g : Gather} (h : gather vsLen vd = .ok g) {j : ℕ}
    (hj : filled shared (typeRow vsLen vd j) = true) : j < g.m := by
  have hrows : g.rows.reverse = sheetRows vsLen vd := gather_rows h
  by_contra hm
  have hnone : typeRow vsLen vd j = none := by
    rw [typeRow, ← hrows, List.getD_eq_getElem?_getD]
    cases hget : g.rows.reverse[0]? with
    | none => rfl
    | some row =>
      have hmem := List.mem_reverse.mp (List.mem_of_getElem? hget)
      exact gather_none h row hmem j (not_lt.mp hm)
  rw [hnone] at hj
  cases hj

/-- The columns that the loops keep are those of the sheet. -/
theorem keptColumns_eq {g : Gather} (h : gather vsLen vd = .ok g) :
    (upFrom 1 g.m).filter (isField shared vsLen vd) = keptColumns shared vsLen vd := by
  refine ((upFrom_pairwise 1 g.m).filter _).eq_of_mem_iff ((upFrom_pairwise 1 128).filter _)
    fun j => ?_
  rw [keptColumns, List.mem_filter, List.mem_filter, mem_upFrom, mem_upFrom, isField,
    Bool.and_eq_true]
  have hle := (gather_bounded h).m
  constructor
  · rintro ⟨hj, hfilled⟩
    exact ⟨⟨hj.1, by omega⟩, hfilled⟩
  · rintro ⟨hj, hfilled⟩
    exact ⟨⟨hj.1, lt_of_filled_type h hfilled.1⟩, hfilled⟩

/-- The grid of a sheet, in terms of its kept rows and columns. -/
theorem grid_eq {g : Gather} (h : gather vsLen vd = .ok g) :
    g.grid shared =
      { m := if keptRows shared vsLen vd = [] then 1
          else 1 + (keptColumns shared vsLen vd).length
        type := placed 1 (keptColumns shared vsLen vd) (typeRow vsLen vd)
        name := placed 1 (keptColumns shared vsLen vd) (nameRow vsLen vd)
        data := (keptRows shared vsLen vd).map (placed 1 (keptColumns shared vsLen vd)) } := by
  have hrows : g.rows.reverse = sheetRows vsLen vd := gather_rows h
  have hge : ∀ m, ∀ j ∈ upFrom 1 m, 1 ≤ j := fun m j hj => (mem_upFrom.mp hj).1
  have hslide : ∀ row : RawRow, slide (isField shared vsLen vd) (upFrom 1 g.m) (1, row) =
      (1 + (keptColumns shared vsLen vd).length, placed 1 (keptColumns shared vsLen vd) row) := by
    intro row
    rw [slide_eq _ (upFrom_pairwise 1 g.m) (hge g.m), keptColumns_eq h]
  -- A row is compacted by what the header has found, up to the last column that is kept.
  have hrow : ∀ f : ℕ → Bool, (∀ j ∈ upFrom 1 g.m, f j = isField shared vsLen vd j) →
      compactRow f (trim f g.m) = fun row =>
        (1 + (keptColumns shared vsLen vd).length, placed 1 (keptColumns shared vsLen vd) row) := by
    intro f hf
    funext row
    rw [compactRow_eq, filter_trim, List.filter_congr hf, keptColumns_eq h]
  unfold Gather.grid
  dsimp only
  rw [hrows, header_eq (f := isField shared vsLen vd) (upFrom_pairwise 1 g.m) (hge g.m)
    fun _ _ => rfl]
  dsimp only
  rw [hrow _ fun j hj => if_pos hj, hslide, hslide, List.map_map, List.getLast?_map]
  change Grid.mk (((keptRows shared vsLen vd).getLast?.map _).map Prod.fst |>.getD 1) _ _ _ = _
  cases hkept : (keptRows shared vsLen vd).getLast? with
  | none =>
    rw [List.getLast?_eq_none_iff] at hkept
    rw [if_pos hkept]
    rfl
  | some row =>
    have hne : keptRows shared vsLen vd ≠ [] := by
      rintro hnil
      rw [hnil] at hkept
      cases hkept
    rw [if_neg hne]
    rfl

/-- Every column that has a type and a name keeps its place among them, in the header and in every
row that is kept. -/
theorem columns_aligned {a : Addresses} {vs : List StrPtr} {s s' : Memory} {sheet : Sheet}
    (h : getVvs a vs vd s = .ok (sheet, s')) (hn : 2 < sheet.n) :
    ∃ g, gather vs.length vd = .ok g ∧ sheet.m = (g.grid (present vs s.intern)).m ∧
      Aligned (present vs s.intern) vs.length vd (g.grid (present vs s.intern)) := by
  obtain ⟨g, type, s₁, name, s₂, rows, hg, -, -, -, hconvert, rfl⟩ :=
    convertSheet_cases (convertSheet_of_getVvs h)
  have hlen := length_of_mapState hconvert
  refine ⟨g, hg, rfl, ?_⟩
  rw [grid_eq hg] at hlen ⊢
  have hne : keptRows (present vs s.intern) vs.length vd ≠ [] := by
    intro hnil
    rw [hnil] at hlen
    have hrows : rows = [] := List.length_eq_zero_iff.mp hlen
    rw [hrows] at hn
    exact absurd hn (lt_irrefl 2)
  rw [if_neg hne]
  constructor
  · exact Nat.add_sub_cancel_left ..
  · intro k j hk
    rw [Nat.add_comm k 1]
    exact placed_add _ hk
  · intro k j hk
    rw [Nat.add_comm k 1]
    exact placed_add _ hk
  · rw [List.forall₂_map_left_iff, List.forall₂_same]
    intro row _ k j hk
    rw [Nat.add_comm k 1]
    exact placed_add _ hk

/-- A workbook of one sheet whose column C has no name, and stands between two that do. -/
def gapInColumns : Workbook where
  workbook := [⟨.sheet, [], [bytes "s"]⟩]
  sharedStrings := ["b", "id", "x", "y", "plain"].flatMap fun s =>
    [⟨.si, [], []⟩, ⟨.t, bytes s, []⟩]
  worksheet := fun _ =>
    sharedCell "A1" "1" ++ sharedCell "B1" "4" ++ sharedCell "C1" "4" ++ sharedCell "D1" "4" ++
    sharedCell "A2" "1" ++ sharedCell "B2" "2" ++ sharedCell "D2" "3" ++ sharedCell "A3" "1" ++
    sharedCell "A4" "0" ++ sharedCell "C4" "2" ++ sharedCell "D4" "3"

/-- The columns B and D of that sheet are the first and the second field. -/
theorem columns_aligned_gap : ∃ vs s sheet s' g,
    getVvs Addresses.below vs (gapInColumns.worksheet 0) s = .ok (sheet, s') ∧
      gather vs.length (gapInColumns.worksheet 0) = .ok g ∧
        sheet.m = (g.grid (present vs s.intern)).m ∧
          keptColumns (present vs s.intern) vs.length (gapInColumns.worksheet 0) = [1, 3] ∧
            Aligned (present vs s.intern) vs.length (gapInColumns.worksheet 0)
              (g.grid (present vs s.intern)) := by
  have hsome : ((firstVvs gapInColumns).any fun r => 2 < r.2.2.1.n ∧
      keptColumns (present r.1 r.2.1.intern) r.1.length (gapInColumns.worksheet 0) = [1, 3]) =
        true := by
    decide +kernel
  obtain ⟨⟨vs, s, sheet, s'⟩, hfirst, hsome⟩ := (Option.any_eq_true _ _).mp hsome
  obtain ⟨-, hvvs⟩ := firstVvs_spec hfirst
  obtain ⟨hn, hkept⟩ := of_decide_eq_true hsome
  obtain ⟨g, hg, hm, haligned⟩ := columns_aligned hvvs hn
  exact ⟨vs, s, sheet, s', g, hvvs, hg, hm, hkept, haligned⟩

end Catse.Myxml2
