import Catse.Myxml2.Sheets

/-!
# Sharing

What `main` of `myxml2` does with the sheets: equal sheets, rows and cells are counted in sorted
tables, those that occur more than once become `shareSheet`, `shareRow` and `shareCell`, and the
tables of the sheets refer to them. With `noshare` nothing occurs often enough. The output is its
structure, with the texts that stand in it, and `expand` is what it defines after the references are
replaced. The sizes of the buffers and of the arrays are left out: a run that exceeds them writes
nothing. `BinInsert` has the tables as arrays, with their size.
-/

namespace Catse.Myxml2

open SortedTable

/-! ## Comparators -/

/-- A loop that returns the first difference. -/
def firstDiff : List ℤ → ℤ
  | [] => 0
  | d :: ds => if d ≠ 0 then d else firstDiff ds

/-- `struct shareRow`, without the count. -/
structure ShareRow where
  m : ℕ
  varType : ℕ → StrPtr
  name : ℕ → StrPtr
  row : ℕ → StrPtr

/-- A row of a sheet. -/
def Sheet.rowAt (s : Sheet) (i : ℕ) : ShareRow := ⟨s.m, s.vvs 0, s.vvs 1, s.vvs i⟩

namespace Addresses

/-- `cmpCell`. -/
def cmpCell (a : Addresses) (x y : StrPtr) : ℤ := a.addr x - a.addr y

/-- `cmpRow`. -/
def cmpRow (a : Addresses) (x y : ShareRow) : ℤ :=
  firstDiff (((x.m : ℤ) - y.m) ::
    ((upFrom 1 x.m).map (fun j => a.addr (x.name j) - a.addr (y.name j)) ++
    (upFrom 1 x.m).map fun j => a.addr (x.row j) - a.addr (y.row j)))

/-- `cmpSheet`. -/
def cmpSheet (a : Addresses) (x y : Sheet) : ℤ :=
  firstDiff (((x.n : ℤ) - y.n) :: ((x.m : ℤ) - y.m) :: (upFrom 0 x.n).flatMap fun i =>
    (upFrom 0 x.m).map fun j => a.addr (x.vvs i j) - a.addr (y.vvs i j))

end Addresses

/-! ## What is shared -/

/-- The rows of a sheet that are entered. -/
def Sheet.rows (s : Sheet) : List ShareRow := (upFrom 2 s.n).map s.rowAt

/-- The cells of a row that are entered. -/
def ShareRow.cells (r : ShareRow) : List StrPtr :=
  ((upFrom 1 r.m).filter fun i => r.varType i = .fix .table ∨ r.varType i = .fix .tbstr).map r.row

/-- `shareCells`, `shareRows` and `shareSheets`. -/
structure Shares where
  cells : List StrPtr
  rows : List ShareRow
  sheets : List Sheet

namespace Addresses

/-- `shareSheets` before it is filtered. -/
def countSheets (a : Addresses) (sheets : List Sheet) :
    List (Sheet × ℕ) := sheets.foldl (countInsert a.cmpSheet) []

/-- `shareRows` before it is filtered. -/
def countRows (a : Addresses) (sheets : List Sheet) : List (ShareRow × ℕ) :=
  ((a.countSheets sheets).flatMap fun t => t.1.rows).foldl (countInsert a.cmpRow) []

/-- `shareCells` before it is filtered. -/
def countCells (a : Addresses) (sheets : List Sheet) : List (StrPtr × ℕ) :=
  ((a.countRows sheets).flatMap fun t => t.1.cells).foldl (countInsert a.cmpCell) []

/-- `top`. -/
def top (noshare : Bool) : ℕ := if noshare then 0x7fffffff else 1

/-- The three tables after they are filtered. -/
def shares (a : Addresses) (noshare : Bool) (sheets : List Sheet) : Shares where
  cells := kept (top noshare) (a.countCells sheets)
  rows := kept (top noshare) (a.countRows sheets)
  sheets := kept (top noshare) (a.countSheets sheets)

end Addresses

/-! ## Rows -/

/-- The surroundings of the output: the addresses and the texts of the strings, and how `fillRow`
writes a number, which starts with a digit or a minus sign. -/
structure Context extends Addresses where
  text : StrPtr → List UInt8
  number : List UInt8 → List UInt8
  number_first : ∀ s, ∃ c t, number s = c :: t ∧ (c = 45 ∨ 48 ≤ c ∧ c ≤ 57)

/-- `isStrDigit`. -/
def isStrDigit (p : List UInt8) : Bool := !p.isEmpty && p.all fun x => (47 < x && x < 58) || x = 45

/-- The value of a field: `shareCell[i]`, or a text. -/
inductive CellOut where
  | ref (i : ℕ)
  | text (s : List UInt8)
  deriving DecidableEq

/-- The fields that are written for a row. -/
abbrev RowDef := List (List UInt8 × CellOut)

/-- `fillTb`. -/
def fillTb (cell : List UInt8) : List UInt8 := 123 :: (cell ++ [125])

/-- The name of a field. -/
def fieldKey (tname : List UInt8) : List UInt8 :=
  if isStrDigit tname then bytes "[" ++ tname ++ bytes "]" else tname

namespace Context

variable (c : Context)

/-- The value of a field by its type, which fails for a type that is none of the five. -/
def fillCell (shareCells : List StrPtr) (varType cell : StrPtr) : Option CellOut :=
  match varType with
  | .fix .number => some (.text (c.number (c.text cell)))
  | .fix .plain => some (.text (c.text cell))
  | .fix .string => some (.text (bytes "[[" ++ c.text cell ++ bytes "]]"))
  | .fix _ =>
    match lookup (c.cmpCell cell) shareCells with
    | .found i => some (.ref (i + 1))
    | .absent _ => some (.text (fillTb (c.text cell)))
  | .buf _ => none

/-- The column whose value is written for the column `tj`: none if it is not positive. -/
def sourceColumn (targetIndexs : Option (ℕ → ℤ)) (row : ℕ → StrPtr) (tj : ℕ) : ℤ :=
  let j : ℤ := match targetIndexs with
    | some f => f tj
    | none => tj
  -- An empty cell of a language column falls back to the column itself.
  if 0 < j ∧ j ≠ tj ∧ c.text (row j.toNat) = [] then tj else j

/-- The columns that are written, each with the one that its value comes from. -/
def written (targetIndexs : Option (ℕ → ℤ)) (r : ShareRow) : List (ℕ × ℕ) :=
  (upFrom 1 r.m).filterMap fun tj =>
    if 0 < c.sourceColumn targetIndexs r.row tj
      then some (tj, (c.sourceColumn targetIndexs r.row tj).toNat) else none

/-- `fillRow`. -/
def fillRow (shareCells : List StrPtr) (targetIndexs : Option (ℕ → ℤ)) (r : ShareRow) :
    Option RowDef :=
  mapAll (fun x => (c.fillCell shareCells (r.varType x.2) (r.row x.2)).map fun v =>
    (fieldKey (c.text (r.name x.1)), v))
    (c.written targetIndexs r)

end Context

/-! ## Sheets -/

/-- The value of a row: `shareRow[i]`, or its fields. -/
inductive RowOut where
  | ref (i : ℕ)
  | fields (d : RowDef)

/-- The rows that are written for a sheet. -/
abbrev SheetDef := List (List UInt8 × RowOut)

/-- The key of a row. -/
def rowKey (id : List UInt8) : List UInt8 :=
  if isStrDigit id then bytes "[" ++ id ++ bytes "]"
  else if hasChinese id then bytes "[\"" ++ id ++ bytes "\"]"
  else id

/-- The value of a row in `fillSheet`. -/
def Context.rowOut (c : Context) (shareRows : List ShareRow) (shareCells : List StrPtr)
    (targetIndexs : Option (ℕ → ℤ)) (r : ShareRow) : Option RowOut :=
  match lookup (c.cmpRow r) shareRows with
  | .found k => some (.ref (k + 1))
  | .absent _ => (c.fillRow shareCells targetIndexs r).map .fields

/-- `fillSheet`. -/
def Context.fillSheet (c : Context) (shareRows : List ShareRow) (shareCells : List StrPtr)
    (targetIndexs : Option (ℕ → ℤ)) (s : Sheet) : Option SheetDef :=
  mapAll (fun i => (c.rowOut shareRows shareCells targetIndexs (s.rowAt i)).map fun v =>
    (rowKey (c.text (s.vvs i 0)), v)) (upFrom 2 s.n)

/-! ## Languages -/

/-- `patternNames`. -/
def patternNames : List (List UInt8) :=
  [bytes "", bytes "_bt2", bytes "_tw", bytes "_en", bytes "_vi", bytes "_kr", bytes "_jp"]

/-- `isFixPatternName`. -/
def isFixPatternName (name : Option (List UInt8)) : Bool :=
  match name with
  | some name => patternNames.contains name
  | none => false

/-- `myStringCmp`. -/
def myStringCmp (str1 : List UInt8) (st1 ed1 : ℤ) (str2 : List UInt8) (st2 ed2 : ℤ) : Bool :=
  if st1 < 0 ∨ sizeLe str1.length ed1 then false
  else if st2 < 0 ∨ sizeLe str2.length ed2 then false
  else if ed1 - st1 ≠ ed2 - st2 then false
  else (List.range (ed1 - st1 + 1).toNat).all fun k => str1[st1.toNat + k]? = str2[st2.toNat + k]?

/-- `isFixPatternNameR`: the last suffix of the list that the name ends in, or zero. -/
def isFixPatternNameR (rname : List UInt8) : ℕ :=
  ((upFrom 1 patternNames.length).reverse.find? fun i =>
    let patternName := patternNames.getD i []
    myStringCmp rname (rname.length - patternName.length) (rname.length - 1) patternName 0
      (patternName.length - 1)).getD 0

/-- `isFixPatternNameL`. -/
def isFixPatternNameL (name1 name2 pname : List UInt8) : Bool :=
  myStringCmp name1 0 (name1.length - 1) name2 0 (name2.length - pname.length - 1)

/-- The first loop of `solvePattern`: columns whose names have a suffix are marked. -/
def markColumns (text : StrPtr → List UInt8) (rnames : ℕ → StrPtr) (m : ℕ) (targetIndexs : ℕ → ℤ) :
    ℕ → ℤ :=
  (upFrom 1 m).foldl (fun t i =>
    if 0 < isFixPatternNameR (text (rnames i))
      then Function.update t i (-isFixPatternNameR (text (rnames i))) else t)
    targetIndexs

/-- The innermost loop of `solvePattern`: the column `i` replaces the columns of the name without
the suffix. -/
def replaceColumns (text : StrPtr → List UInt8) (pname : List UInt8) (rnames : ℕ → StrPtr) (m i : ℕ)
    (targetIndexs : ℕ → ℤ) : ℕ → ℤ :=
  (upFrom 1 m).foldl (fun t j =>
    if 0 < t j ∧ isFixPatternNameL (text (rnames j)) (text (rnames i)) pname
      then Function.update t j i else t)
    targetIndexs

/-- `solvePattern`. -/
def solvePattern (text : StrPtr → List UInt8) (targetName : List UInt8)
    (rnames : ℕ → StrPtr) (m : ℕ) (targetIndexs : ℕ → ℤ) : ℕ → ℤ :=
  let marked := markColumns text rnames m targetIndexs
  let ptype := isFixPatternNameR targetName
  if targetName ≠ patternNames.getD 0 [] ∧ targetName = patternNames.getD ptype [] then
    (upFrom 1 m).foldl (fun t i =>
      if t i = -ptype then replaceColumns text
        (patternNames.getD ptype []) rnames m i t else t) marked
  else marked

/-- What an argument does to the columns. -/
def applySuffix (text : StrPtr → List UInt8) (rnames : ℕ → StrPtr) (m : ℕ)
    (arg : Option (List UInt8)) (targetIndexs : ℕ → ℤ) : ℕ → ℤ :=
  match arg with
  | some name => if isFixPatternName arg then solvePattern text name rnames m targetIndexs
      else targetIndexs
  | none => targetIndexs

/-- `targetIndexs` of a sheet, for `argv[4]` and `argv[5]`. -/
def Context.targets (c : Context) (argv4 argv5 : Option (List UInt8)) (s : Sheet) : ℕ → ℤ :=
  applySuffix c.text (s.vvs 1) s.m argv5 (applySuffix c.text (s.vvs 1) s.m argv4 fun j => j)

/-! ## The output -/

/-- The value of a sheet: `shareSheet[i]`, or its rows. -/
inductive SheetOut where
  | ref (i : ℕ)
  | rows (d : SheetDef)

/-- The definitions in the output file. -/
structure Output where
  shareCell : List (List UInt8)
  shareRow : List RowDef
  shareSheet : List SheetDef
  tables : List (List UInt8 × SheetOut)

/-- The left side of the definition of a sheet. -/
def sheetKey (name : List UInt8) : List UInt8 :=
  if isStrDigit name then bytes "getfenv()[" ++ name ++ bytes "]" else name

/-- The sheets that are read, with their names: the limits are those of `workbook` and of `vvs`, and
`getVvs` counts the first column whether there is a row or not. -/
structure Book where
  sheets : List (List UInt8 × Sheet)
  length_lt : sheets.length < 512
  n_le : ∀ x ∈ sheets, x.2.n ≤ 20000
  one_le : ∀ x ∈ sheets, 1 ≤ x.2.m
  m_le : ∀ x ∈ sheets, x.2.m ≤ 128

/-- The value of a sheet in `main`. -/
def Context.sheetOut (c : Context) (sh : Shares) (targetIndexs : ℕ → ℤ) (s : Sheet) :
    Option SheetOut :=
  match lookup (c.cmpSheet s) sh.sheets with
  | .found k => some (.ref (k + 1))
  | .absent _ => (c.fillSheet sh.rows sh.cells (some targetIndexs) s).map .rows

/-- The output of `main`, or none where it fails, or checks only. -/
def Context.emit (c : Context) (noshare : Bool) (argv4 argv5 : Option (List UInt8))
    (sheets : List (List UInt8 × Sheet)) : Option Output :=
  if argv4 = some (bytes "check") then none
  else
    let sh := c.shares noshare (sheets.map Prod.snd)
    match mapAll (c.fillRow sh.cells none) sh.rows,
      mapAll (c.fillSheet sh.rows sh.cells none) sh.sheets,
      mapAll (fun x => (c.sheetOut sh (c.targets argv4 argv5 x.2) x.2).map fun v =>
        (sheetKey x.1, v)) sheets with
    | some rows, some shared, some tables =>
      some ⟨sh.cells.map fun p => fillTb (c.text p), rows, shared, tables⟩
    | _, _, _ => none

/-! ## What the output defines -/

/-- A row, by its fields. A reference without a definition is `nil`. -/
abbrev RowTable := List (List UInt8 × Option (List UInt8))

/-- A sheet, by its rows. -/
abbrev SheetTable := List (List UInt8 × Option RowTable)

instance : DecidableEq RowTable := inferInstanceAs
    (DecidableEq (List (List UInt8 × Option (List UInt8))))

instance : DecidableEq SheetTable := inferInstanceAs
    (DecidableEq (List (List UInt8 × Option RowTable)))

namespace Output

/-- The entry of a Lua table at the index `i`. -/
def entry {α : Type} (l : List α) (i : ℕ) : Option α := if i = 0 then none else l[i - 1]?

/-- A field after replacement. -/
def cell (shareCell : List (List UInt8)) : CellOut → Option (List UInt8)
  | .ref i => entry shareCell i
  | .text s => some s

/-- The fields of a row after replacement. -/
def fields (shareCell : List (List UInt8)) (d : RowDef) :
    RowTable := d.map fun x => (x.1, cell shareCell x.2)

/-- A row after replacement. -/
def row (shareCell : List (List UInt8)) (shareRow : List RowDef) : RowOut → Option RowTable
  | .ref i => (entry shareRow i).map (fields shareCell)
  | .fields d => some (fields shareCell d)

/-- The rows of a sheet after replacement. -/
def rows (shareCell : List (List UInt8)) (shareRow : List RowDef) (d : SheetDef) : SheetTable :=
  d.map fun x => (x.1, row shareCell shareRow x.2)

/-- A sheet after replacement. -/
def sheet (o : Output) : SheetOut → Option SheetTable
  | .ref i => (entry o.shareSheet i).map (rows o.shareCell o.shareRow)
  | .rows d => some (rows o.shareCell o.shareRow d)

/-- The tables after every reference is replaced by its definition. -/
def expand (o : Output) :
    List (List UInt8 × Option SheetTable) := o.tables.map fun x => (x.1, o.sheet x.2)

end Output

/-- What noshare generates is generated with sharing, too, and it is the same. -/
def Context.Preserves (c : Context) (argv4 argv5 : Option (List UInt8))
    (sheets : List (List UInt8 × Sheet)) : Prop :=
  ∀ o, c.emit true argv4 argv5 sheets = some o →
    ∃ o', c.emit false argv4 argv5 sheets = some o' ∧ o'.expand = o.expand

end Catse.Myxml2
