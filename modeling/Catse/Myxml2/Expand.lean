import Catse.Myxml2.Columns

/-!
# What the output defines

Where a row is shared, its value is the shared row, written column by column, and otherwise it is
the row itself (`Context.sharedRow`); with sheets it is the same (`Context.sharedSheet`).
`emit_expand` and `exists_emit` say that `emit` yields these values and when it does, and
`preserves_iff` puts the two outputs side by side. With noshare nothing is shared, since no table
has room for as many entries as the limit asks for (`shares_noshare`).
-/

namespace Catse.Myxml2

open SortedTable

/-! ## References -/

/-- A reference stands for what was written for the entry. -/
theorem Output.entry_of_mapAll {α β : Type} {f : α → Option β} {l : List α} {ys : List β}
    (h : mapAll f l = some ys) {k : ℕ} (hk : k < l.length) : Output.entry ys (k + 1) = f l[k] := by
  obtain ⟨y, hy, hf⟩ := getElem?_of_mapAll h hk
  rw [hf, ← hy]
  rfl

namespace Context

variable (c : Context)

/-- A field, whether it is shared or not. -/
theorem fillCell_expand (shareCells : List StrPtr) (varType cell : StrPtr) :
    (c.fillCell shareCells varType cell).map
    (Output.cell (shareCells.map fun p => fillTb (c.text p))) =
      (c.fieldText varType cell).map some := by
  have htable : (c.fillCell shareCells (.fix .table) cell).map
      (Output.cell (shareCells.map fun p => fillTb (c.text p))) =
        some (some (fillTb (c.text cell))) := by
    unfold Context.fillCell
    dsimp only
    cases hl : lookup (c.cmpCell cell) shareCells with
    | absent a => rfl
    | found i =>
      obtain ⟨hi, h0⟩ := lookup_found hl
      have hcell : shareCells[i] = cell := c.injective (sub_eq_zero.mp h0).symm
      have hentry : Output.entry (shareCells.map fun p => fillTb (c.text p)) (i + 1) =
        some (fillTb (c.text cell)) := by
        show (shareCells.map fun p => fillTb (c.text p))[i]? = _
        rw [List.getElem?_map, List.getElem?_eq_getElem hi, hcell]
        rfl
      exact congrArg some hentry
  cases varType with
  | buf p => rfl
  | fix t =>
    cases t with
    | number => rfl
    | plain => rfl
    | string => rfl
    | table => exact htable
    | tbstr => exact htable

/-- A row that is written out. -/
theorem fillRow_expand (shareCells : List StrPtr) (targetIndexs : Option (ℕ → ℤ)) (r : ShareRow) :
    (c.fillRow shareCells targetIndexs r).map
    (Output.fields (shareCells.map fun p => fillTb (c.text p))) =
      c.rowText targetIndexs r := by
  have hmap := map_mapAll
    (fun x : ℕ × ℕ => (c.fillCell shareCells (r.varType x.2) (r.row x.2)).map fun v =>
      (fieldKey (c.text (r.name x.1)), v))
    (fun x => (x.1, Output.cell (shareCells.map fun p => fillTb (c.text p)) x.2))
      (c.written targetIndexs r)
  refine hmap.trans (mapAll_congr fun x _ => ?_)
  have hfield := c.fillCell_expand shareCells (r.varType x.2) (r.row x.2)
  have hpair := congrArg (Option.map fun v => (fieldKey (c.text (r.name x.1)), v)) hfield
  rw [Option.map_map] at hpair ⊢
  exact hpair.trans (Option.map_map _ _ _)

/-! ## Rows and sheets -/

/-- What a row stands for: the shared one that is the same, or itself. -/
def sharedRow (shareRows : List ShareRow) (targetIndexs : Option (ℕ → ℤ)) (r : ShareRow) :
    Option RowTable :=
  match lookup (c.cmpRow r) shareRows with
  | .found k => shareRows[k]?.bind (c.rowText none)
  | .absent _ => c.rowText targetIndexs r

/-- A sheet, given its rows. -/
def sheetTable (row : ℕ → Option RowTable) (s : Sheet) : Option SheetTable :=
  mapAll (fun i => (row i).map fun d => (rowKey (c.text (s.vvs i 0)), some d)) (upFrom 2 s.n)

/-- A sheet that is written out. -/
def ownSheet (shareRows : List ShareRow) (targetIndexs : Option (ℕ → ℤ)) (s : Sheet) :
    Option SheetTable :=
  c.sheetTable (fun i => c.sharedRow shareRows targetIndexs (s.rowAt i)) s

/-- What a sheet stands for: the shared one that is the same, or itself. -/
def sharedSheet (sh : Shares) (targetIndexs : ℕ → ℤ) (s : Sheet) : Option SheetTable :=
  match lookup (c.cmpSheet s) sh.sheets with
  | .found k => sh.sheets[k]?.bind (c.ownSheet sh.rows none)
  | .absent _ => c.ownSheet sh.rows (some targetIndexs) s

/-- A row of a sheet, given the definitions of the shared ones. -/
theorem rowOut_expand {shareRows : List ShareRow} {shareCells : List StrPtr} {defs : List RowDef}
    (hdefs : mapAll (c.fillRow shareCells none) shareRows = some defs)
    (targetIndexs : Option (ℕ → ℤ)) (r : ShareRow) :
    (c.rowOut shareRows shareCells targetIndexs r).map
        (Output.row (shareCells.map fun p => fillTb (c.text p)) defs) =
      (c.sharedRow shareRows targetIndexs r).map some := by
  unfold rowOut sharedRow
  cases hl : lookup (c.cmpRow r) shareRows with
  | absent a =>
    have hrow := congrArg (Option.map some) (c.fillRow_expand shareCells targetIndexs r)
    rw [Option.map_map] at hrow
    refine Eq.trans ?_ hrow
    exact Option.map_map _ _ _
  | found k =>
    obtain ⟨hk, -⟩ := lookup_found hl
    obtain ⟨d, -, hd⟩ := getElem?_of_mapAll hdefs hk
    have hentry : Output.entry defs (k + 1) = some d := (Output.entry_of_mapAll hdefs hk).trans hd
    have hrow := c.fillRow_expand shareCells none shareRows[k]
    rw [hd] at hrow
    show some ((Output.entry defs (k + 1)).map _) = (shareRows[k]?.bind (c.rowText none)).map some
    rw [hentry, List.getElem?_eq_getElem hk, Option.bind_some, ← hrow]
    rfl

/-- A sheet that is written out, given the definitions of the shared rows. -/
theorem fillSheet_expand {shareRows : List ShareRow} {shareCells : List StrPtr} {defs : List RowDef}
    (hdefs : mapAll (c.fillRow shareCells none) shareRows = some defs)
    (targetIndexs : Option (ℕ → ℤ)) (s : Sheet) :
    (c.fillSheet shareRows shareCells targetIndexs s).map
        (Output.rows (shareCells.map fun p => fillTb (c.text p)) defs) =
      c.ownSheet shareRows targetIndexs s := by
  have hmap := map_mapAll
    (fun i => (c.rowOut shareRows shareCells targetIndexs (s.rowAt i)).map fun v =>
      (rowKey (c.text (s.vvs i 0)), v))
    (fun x => (x.1, Output.row (shareCells.map fun p => fillTb (c.text p)) defs x.2)) (upFrom 2 s.n)
  refine hmap.trans (mapAll_congr fun i _ => ?_)
  have hrow := c.rowOut_expand hdefs targetIndexs (s.rowAt i)
  have hpair := congrArg (Option.map fun v => (rowKey (c.text (s.vvs i 0)), v)) hrow
  rw [Option.map_map] at hpair ⊢
  exact hpair.trans (Option.map_map _ _ _)

/-- The value of a sheet, given the definitions of the shared ones. -/
theorem sheetOut_expand {sh : Shares} {o : Output}
    (hcell : o.shareCell = sh.cells.map fun p => fillTb (c.text p))
    (hrows : mapAll (c.fillRow sh.cells none) sh.rows = some o.shareRow)
    (hsheets : mapAll (c.fillSheet sh.rows sh.cells none) sh.sheets = some o.shareSheet)
    (targetIndexs : ℕ → ℤ) (s : Sheet) : (c.sheetOut sh targetIndexs s).map o.sheet =
    (c.sharedSheet sh targetIndexs s).map some := by
  have hsheet := fun τ s => c.fillSheet_expand hrows τ s
  rw [← hcell] at hsheet
  unfold sheetOut sharedSheet
  cases hl : lookup (c.cmpSheet s) sh.sheets with
  | absent a =>
    have habsent := congrArg (Option.map some) (hsheet (some targetIndexs) s)
    rw [Option.map_map] at habsent
    refine Eq.trans ?_ habsent
    exact Option.map_map _ _ _
  | found k =>
    obtain ⟨hk, -⟩ := lookup_found hl
    obtain ⟨d, -, hd⟩ := getElem?_of_mapAll hsheets hk
    have hentry : Output.entry o.shareSheet (k + 1) = some d :=
      (Output.entry_of_mapAll hsheets hk).trans hd
    have hfound := hsheet none sh.sheets[k]
    rw [hd] at hfound
    show some ((Output.entry o.shareSheet (k + 1)).map _) = (sh.sheets[k]?.bind _).map some
    rw [hentry, List.getElem?_eq_getElem hk, Option.bind_some, ← hfound]
    rfl

/-! ## The output -/

end Context

/-- The tables of the book, given each sheet. -/
def Book.tables (book : Book) (table : Sheet → Option SheetTable) :
    Option (List (List UInt8 × Option SheetTable)) :=
  mapAll (fun x => (table x.2).map fun d => (sheetKey x.1, some d)) book.sheets

namespace Context

variable (c : Context)

/-- All that is shared can be written. -/
structure Defined (sh : Shares) : Prop where
  rows : ∀ x ∈ sh.rows, ∃ d, c.rowText none x = some d
  sheets : ∀ s ∈ sh.sheets, ∃ d, c.ownSheet sh.rows none s = some d

variable {noshare : Bool} {argv4 argv5 : Option (List UInt8)} {book : Book}

/-- The tables, with all references replaced. -/
def sharedTables (noshare : Bool) (argv4 argv5 : Option (List UInt8)) (book : Book) :
    Option (List (List UInt8 × Option SheetTable)) :=
  book.tables fun s =>
    c.sharedSheet (c.shares noshare (book.sheets.map Prod.snd)) (c.targets argv4 argv5 s) s

/-- What an output is, in parts. -/
theorem emit_eq_some_iff {o : Output} (hcheck : argv4 ≠ some (bytes "check")) {sh : Shares}
    (hsh : c.shares noshare (book.sheets.map Prod.snd) = sh) :
    c.emit noshare argv4 argv5 book.sheets = some o ↔
      o.shareCell = (sh.cells.map fun p => fillTb (c.text p)) ∧
      mapAll (c.fillRow sh.cells none) sh.rows = some o.shareRow ∧
      mapAll (c.fillSheet sh.rows sh.cells none) sh.sheets = some o.shareSheet ∧
      mapAll (fun x => (c.sheetOut sh (c.targets argv4 argv5 x.2) x.2).map fun v =>
        (sheetKey x.1, v)) book.sheets = some o.tables := by
  obtain ⟨cells, rows, sheets, tables⟩ := o
  rw [emit, if_neg hcheck, hsh]
  dsimp only
  split
  · next hrows hsheets htables =>
    rw [hrows, hsheets, htables]
    simp only [Option.some.injEq, Output.mk.injEq, eq_comm]
  · next hnone =>
    constructor
    · intro h
      cases h
    · rintro ⟨-, hrows, hsheets, htables⟩
      exact absurd htables (hnone _ _ _ hrows hsheets)

/-- The tables of an output. -/
theorem tables_expand (argv4 argv5 : Option (List UInt8)) (book : Book) {sh : Shares} {o : Output}
    (hcell : o.shareCell = sh.cells.map fun p => fillTb (c.text p))
    (hrows : mapAll (c.fillRow sh.cells none) sh.rows = some o.shareRow)
    (hsheets : mapAll (c.fillSheet sh.rows sh.cells none) sh.sheets = some o.shareSheet) :
    (mapAll (fun x => (c.sheetOut sh (c.targets argv4 argv5 x.2) x.2).map fun v =>
      (sheetKey x.1, v)) book.sheets).map (List.map fun x => (x.1, o.sheet x.2)) =
      book.tables fun s => c.sharedSheet sh (c.targets argv4 argv5 s) s := by
  rw [map_mapAll]
  apply mapAll_congr
  intro x _
  have hsheet := c.sheetOut_expand hcell hrows hsheets (c.targets argv4 argv5 x.2) x.2
  have hpair := congrArg (Option.map fun v => (sheetKey x.1, v)) hsheet
  rw [Option.map_map] at hpair ⊢
  exact hpair.trans (Option.map_map _ _ _)

/-- An output expands to the tables, and all that is shared is defined. -/
theorem emit_expand {o : Output} (hcheck : argv4 ≠ some (bytes "check"))
    (h : c.emit noshare argv4 argv5 book.sheets = some o) :
    c.Defined (c.shares noshare (book.sheets.map Prod.snd)) ∧
      c.sharedTables noshare argv4 argv5 book = some o.expand := by
  obtain ⟨hcell, hrows, hsheets, htables⟩ := (c.emit_eq_some_iff hcheck rfl).mp h
  refine ⟨⟨fun x hx => ?_, fun s hs => ?_⟩, ?_⟩
  · obtain ⟨d, hd⟩ := isSome_of_mapAll hrows x hx
    have hrow := c.fillRow_expand (c.shares noshare (book.sheets.map Prod.snd)).cells none x
    rw [hd] at hrow
    exact ⟨_, hrow.symm⟩
  · obtain ⟨d, hd⟩ := isSome_of_mapAll hsheets s hs
    have hsheet := c.fillSheet_expand hrows none s
    rw [hd] at hsheet
    exact ⟨_, hsheet.symm⟩
  · rw [sharedTables, ← c.tables_expand argv4 argv5 book hcell hrows hsheets, htables]
    rfl

/-- When all that is shared is defined, and the tables are, there is an output. -/
theorem exists_emit {b : List (List UInt8 × Option SheetTable)}
    (hcheck : argv4 ≠ some (bytes "check"))
    (hdefined : c.Defined (c.shares noshare (book.sheets.map Prod.snd)))
    (hb : c.sharedTables noshare argv4 argv5 book = some b) :
    ∃ o, c.emit noshare argv4 argv5 book.sheets = some o ∧ o.expand = b := by
  generalize hsh : c.shares noshare (book.sheets.map Prod.snd) = sh at hdefined
  obtain ⟨rows, hrows⟩ : ∃ rows, mapAll (c.fillRow sh.cells none) sh.rows = some rows := by
    apply exists_mapAll
    intro x hx
    obtain ⟨d, hd⟩ := hdefined.rows x hx
    rw [← c.fillRow_expand sh.cells none x] at hd
    obtain ⟨y, hy, -⟩ := Option.map_eq_some_iff.mp hd
    exact ⟨y, hy⟩
  obtain ⟨sheets, hsheets⟩ :
    ∃ sheets, mapAll (c.fillSheet sh.rows sh.cells none) sh.sheets = some sheets := by
    apply exists_mapAll
    intro s hs
    obtain ⟨d, hd⟩ := hdefined.sheets s hs
    rw [← c.fillSheet_expand hrows none s] at hd
    obtain ⟨y, hy, -⟩ := Option.map_eq_some_iff.mp hd
    exact ⟨y, hy⟩
  have hexpand := c.tables_expand argv4 argv5 book
    (o := ⟨sh.cells.map fun p => fillTb (c.text p), rows, sheets, []⟩) rfl hrows hsheets
  rw [sharedTables, hsh, ← hexpand] at hb
  obtain ⟨tables, htables, hb⟩ := Option.map_eq_some_iff.mp hb
  refine ⟨⟨sh.cells.map fun p => fillTb (c.text p), rows, sheets, tables⟩, ?_, ?_⟩
  · exact (c.emit_eq_some_iff hcheck hsh).mpr ⟨rfl, hrows, hsheets, htables⟩
  · exact hb

/-! ## Without sharing -/

/-- With noshare nothing is shared. -/
theorem shares_noshare (book : Book) : c.shares true (book.sheets.map Prod.snd) = ⟨[], [], []⟩ := by
  obtain ⟨hsheets, hrows, hcells⟩ := c.length_targets book
  have htop : Addresses.top true = 0x7fffffff := rfl
  have hc : kept (Addresses.top true) (c.countCells (book.sheets.map Prod.snd)) = [] :=
    (c.counts_cells _).kept_eq_nil (by omega)
  have hr : kept (Addresses.top true) (c.countRows (book.sheets.map Prod.snd)) = [] :=
    (c.counts_rows _).kept_eq_nil (by omega)
  have hs : kept (Addresses.top true) (c.countSheets (book.sheets.map Prod.snd)) = [] :=
    (c.counts_sheets _).kept_eq_nil (by omega)
  rw [Addresses.shares, hc, hr, hs]

/-- The tables with noshare: every sheet and row is itself. -/
def plainTables (argv4 argv5 : Option (List UInt8)) (book : Book) :
    Option (List (List UInt8 × Option SheetTable)) :=
  book.tables fun s =>
    c.sheetTable (fun i => c.rowText (some (c.targets argv4 argv5 s)) (s.rowAt i)) s

theorem sharedTables_noshare (argv4 argv5 : Option (List UInt8)) (book : Book) :
    c.sharedTables true argv4 argv5 book = c.plainTables argv4 argv5 book := by
  unfold sharedTables plainTables
  apply mapAll_congr
  intro x _
  have hrow : ∀ τ r, c.sharedRow [] τ r = c.rowText τ r := by
    intro τ r
    rw [sharedRow, lookup_nil]
  have hsheet : c.sharedSheet ⟨[], [], []⟩ (c.targets argv4 argv5 x.2) x.2 =
      c.sheetTable (fun i => c.rowText (some (c.targets argv4 argv5 x.2)) (x.2.rowAt i)) x.2 := by
    rw [sharedSheet, lookup_nil]
    simp only [ownSheet, hrow]
  rw [shares_noshare]
  dsimp only
  rw [hsheet]

/-- The outputs with and without sharing define the same when the tables are the same and all that
is shared is defined. -/
theorem preserves_iff (hcheck : argv4 ≠ some (bytes "check")) :
    c.Preserves argv4 argv5 book.sheets ↔ ∀ b, c.plainTables argv4 argv5 book = some b →
      c.Defined (c.shares false (book.sheets.map Prod.snd)) ∧
        c.sharedTables false argv4 argv5 book = some b := by
  have hnoshare : c.Defined (c.shares true (book.sheets.map Prod.snd)) := by
    rw [shares_noshare]
    exact ⟨fun x hx => absurd hx List.not_mem_nil, fun s hs => absurd hs List.not_mem_nil⟩
  constructor
  · intro h b hb
    rw [← sharedTables_noshare] at hb
    obtain ⟨o, ho, rfl⟩ := c.exists_emit hcheck hnoshare hb
    obtain ⟨o', ho', hexpand⟩ := h o ho
    rw [← hexpand]
    exact c.emit_expand hcheck ho'
  · intro h o ho
    have hb := (c.emit_expand hcheck ho).2
    rw [sharedTables_noshare] at hb
    obtain ⟨hdefined, hshared⟩ := h _ hb
    exact c.exists_emit hcheck hdefined hshared

end Context

end Catse.Myxml2
