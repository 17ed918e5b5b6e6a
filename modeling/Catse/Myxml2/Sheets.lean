import Catse.Myxml2.Convert
import Catse.Lib.Bytes
import Catse.Lib.Compact
import Catse.Lib.Loops
import Mathlib.Data.List.Sort

/-!
# Reading the sheets

`getVvs` and what `main` does before it: the names of the sheets and the shared strings are
interned, and then every sheet is read in order with the one table of `getStr`. The input is what
`getXml` returns for each file. A cell of a sheet is a shared string, by its number, or a text of
its own (`Raw`); in memory the first is the interned string itself, and converting the cell writes
over it.
-/

namespace Catse.Myxml2

/-- The names of elements that `getXml` records. -/
inductive DotName where
  | si
  | t
  | sheet
  | c
  | v
  deriving DecidableEq

/-- `struct dot`: the text, and the values of the first attributes that are recorded. -/
structure Dot where
  name : DotName
  text : List UInt8
  vkv : List (List UInt8)

/-- The files of a workbook, as `getXml` returns them. -/
structure Workbook where
  workbook : List Dot
  sharedStrings : List Dot
  worksheet : ℕ → List Dot

/-! ## The names of the sheets and the shared strings -/

/-- `getWorkbook`, with the number of names so far. -/
def getWorkbook (outLen : ℕ) (s : Intern) : List Dot → Except Fail (List StrPtr × Intern)
  | [] => .ok ([], s)
  | d :: vd =>
    if d.name = .sheet then
      if 512 ≤ outLen + 1 then .error .sheetNames
      else
        match d.vkv with
        | [] => .error .undefined
        | v :: _ => do
          let r ← getStr v s
          let rs ← getWorkbook (outLen + 1) r.2 vd
          .ok (r.1 :: rs.1, rs.2)
    else getWorkbook outLen s vd

/-- `getSharedStrings`, with the number of strings so far and the current one. -/
def getSharedStrings (outlen : ℕ) (buf : Option (List UInt8)) (s : Intern) :
    List Dot → Except Fail (List StrPtr × Intern)
  | [] =>
    match buf with
    | none => .ok ([], s)
    | some str => do
      let r ← getStr str s
      .ok ([r.1], r.2)
  | d :: vd =>
    match d.name, buf with
    | .si, none => if 65536 ≤ outlen then .error .sharedStrings else getSharedStrings (outlen + 1)
        (some []) s vd
    | .si, some str =>
      if 65536 ≤ outlen then .error .sharedStrings
      else do
        let r ← getStr str s
        let rs ← getSharedStrings (outlen + 1) (some []) r.2 vd
        .ok (r.1 :: rs.1, rs.2)
    | .t, none => .error .undefined
    | .t, some str =>
      if 65536 ≤ str.length + d.text.length then .error .stringLength
      else getSharedStrings outlen (some (str ++ d.text)) s vd
    | _, _ => getSharedStrings outlen buf s vd

/-! ## The cells of a sheet -/

/-- The content of a cell: the number of a shared string, or a text in the sheet. -/
inductive Raw where
  | shared (k : ℕ)
  | inline (text : List UInt8)

/-- The text of a cell, given the texts of the shared strings. -/
def Raw.text (shared : ℕ → List UInt8) : Raw → List UInt8
  | .shared k => shared k
  | .inline text => text

/-- The text of a cell that may be absent. -/
def cellText (shared : ℕ → List UInt8) (c : Option Raw) : List UInt8 :=
  match c with
  | some r => r.text shared
  | none => []

/-- A row of `vvs`. -/
abbrev RawRow := ℕ → Option Raw

/-- `atoi`. -/
def atoi (s : List UInt8) : ℤ :=
  match s.dropWhile fun x => x = 32 ∨ 9 ≤ x ∧ x ≤ 13 with
  | 45 :: t => -digits t
  | 43 :: t => digits t
  | t => digits t
where
  /-- The digits at the start. -/
  digits (t : List UInt8) : ℤ :=
    (t.takeWhile fun x => 48 ≤ x ∧ x ≤ 57).foldl
      (fun (n : ℤ) x => 10 * n + ((x.toNat : ℤ) - 48)) 0

/-- Is it a capital letter? -/
def isCapital (x : UInt8) : Bool := 65 ≤ x && x ≤ 90

/-- The column of a reference such as `AB12`, counted from zero. -/
def columnOf (r : List UInt8) : ℤ :=
  (r.takeWhile isCapital).foldl (fun (col : ℤ) x => 26 * col + ((x.toNat : ℤ) - 64)) 0 - 1

/-- The row of a reference. -/
def rowOf (r : List UInt8) : ℤ := atoi (r.dropWhile isCapital)

/-- The variables of the first loop of `getVvs`: the rows, the newest first, the last row number,
the column and the kind of the current cell, and `m`. -/
structure Gather where
  rows : List RawRow
  rowOld : ℤ
  col : ℤ
  ist : Bool
  m : ℕ

/-- The value of a cell, given the number of shared strings. An empty text leaves the cell as it
is. -/
def valueOf (vsLen : ℕ) (ist : Bool) (text : List UInt8) (old : Option Raw) :
    Except Fail (Option Raw) :=
  if ist then
    let sum := text.foldl (fun (sum : ℤ) x => 10 * sum + (toChar x.toNat - 48)) 0
    if 0 ≤ sum ∧ sum < vsLen then .ok (some (.shared sum.toNat)) else .error .undefined
  else if text = [] then .ok old
  else .ok (some (.inline text))

/-- One element. -/
def gatherStep (vsLen : ℕ) (g : Gather) (d : Dot) : Except Fail Gather :=
  match d.name with
  | .c =>
    match d.vkv with
    | [] => .error .undefined
    | r :: vkv =>
      let ist : Bool := vkv.head? = some [115]
      if rowOf r < g.rowOld then .error .rowOrder
      else if g.rowOld < rowOf r then
        if 20000 ≤ g.rows.length then .error .rows
        else .ok { g with
          rows := (fun _ => none) :: g.rows
          rowOld := rowOf r
          col := columnOf r
          ist := ist }
      else .ok { g with col := columnOf r, ist := ist }
  | .v =>
    match g.rows with
    | [] => .error .undefined
    | row :: rows =>
      if g.col < 0 then .error .undefined
      else do
        let v ← valueOf vsLen g.ist d.text (row g.col.toNat)
        if 128 < g.col + 1 then .error .columns
        else .ok { g with
          rows := Function.update row g.col.toNat v :: rows
          m := max g.m (g.col.toNat + 1) }
  | _ => .ok g

/-- The first loop. -/
def gather (vsLen : ℕ) (vd : List Dot) : Except Fail Gather :=
  vd.foldlM (gatherStep vsLen) ⟨[], 0, 0, false, 0⟩

/-- What the first loop can do at an element: it begins a row, goes on in the last one, sets the
current cell, or passes. -/
theorem gatherStep_cases {vsLen : ℕ} {g g' : Gather} {d : Dot} (h : gatherStep vsLen g d = .ok g') :
    (∃ r vkv, d.name = .c ∧ d.vkv = r :: vkv ∧
      ((g.rowOld < rowOf r ∧ g.rows.length < 20000 ∧ g' = { g with
          rows := (fun _ => none) :: g.rows
          rowOld := rowOf r
          col := columnOf r
          ist := vkv.head? = some [115] }) ∨
        (g.rowOld = rowOf r ∧ g' = { g with col := columnOf r, ist := vkv.head? = some [115] }))) ∨
      (∃ row rows v, d.name = .v ∧ g.rows = row :: rows ∧ 0 ≤ g.col ∧ g.col < 128 ∧
        valueOf vsLen g.ist d.text (row g.col.toNat) = .ok v ∧
          g' = { g with
            rows := Function.update row g.col.toNat v :: rows
            m := max g.m (g.col.toNat + 1) }) ∨
        (d.name ≠ .c ∧ d.name ≠ .v ∧ g' = g) := by
  unfold gatherStep at h
  cases hname : d.name with
  | c =>
    -- A cell begins: its reference is in the row that is being read, or in a later one.
    left
    rw [hname] at h
    cases hvkv : d.vkv with
    | nil =>
      rw [hvkv] at h
      cases h
    | cons r vkv =>
      rw [hvkv] at h
      dsimp only at h
      split_ifs at h with hlt hnew hfull
      · cases h
        exact ⟨r, vkv, rfl, rfl, .inl ⟨hnew, not_le.mp hfull, rfl⟩⟩
      · cases h
        exact ⟨r, vkv, rfl, rfl, .inr ⟨by omega, rfl⟩⟩
  | v =>
    -- A value belongs to the cell that began last.
    right; left
    rw [hname] at h
    cases hrows : g.rows with
    | nil =>
      rw [hrows] at h
      cases h
    | cons row rows =>
      rw [hrows] at h
      dsimp only at h
      by_cases hcol : g.col < 0
      · rw [if_pos hcol] at h
        cases h
      rw [if_neg hcol] at h
      obtain ⟨v, hv, h⟩ := ok_of_bind h
      split_ifs at h with hbound
      cases h
      exact ⟨row, rows, v, rfl, rfl, by omega, by omega, hv, rfl⟩
  | si | t | sheet =>
    rw [hname] at h
    cases h
    exact .inr (.inr ⟨by simp, by simp, rfl⟩)

/-- What every element keeps, the loop keeps. -/
theorem gather_induction {vsLen : ℕ} {P : Gather → Prop}
    (hstep : ∀ g d g', P g → gatherStep vsLen g d = .ok g' → P g') {vd : List Dot} {g : Gather}
    (hinit : P ⟨[], 0, 0, false, 0⟩) (h : gather vsLen vd = .ok g) : P g := by
  have hrun : ∀ g₀, P g₀ → vd.foldlM (gatherStep vsLen) g₀ = .ok g → P g := by
    clear h
    induction vd with
    | nil =>
      intro g₀ h₀ hg
      cases hg
      exact h₀
    | cons d vd ih =>
      intro g₀ h₀ hg
      rw [List.foldlM_cons] at hg
      obtain ⟨g₁, h₁, hg⟩ := ok_of_bind hg
      exact ih g₁ (hstep g₀ d g₁ h₀ h₁) hg
  exact hrun _ hinit h

/-! ## Dropping rows and columns -/

/-- Is there a text? -/
def filled (shared : ℕ → List UInt8) (c : Option Raw) : Bool := !(cellText shared c).isEmpty

/-- The loop over the header: `len`, the two header rows, and `f`. -/
structure Header where
  len : ℕ
  type : RawRow
  name : RawRow
  f : ℕ → Bool

/-- A column that has a type and a name moves to the left. -/
def Header.step (shared : ℕ → List UInt8) (h : Header) (i : ℕ) : Header :=
  if filled shared (h.type i) && filled shared (h.name i) then
    { len := h.len + 1
      type := if h.len < i then Function.update h.type h.len (h.type i) else h.type
      name := if h.len < i then Function.update h.name h.len (h.name i) else h.name
      f := Function.update h.f i true }
  else { h with f := Function.update h.f i false }

/-- The numbers from `a` up to `b`, as a loop counts them. -/
def upFrom (a b : ℕ) : List ℕ := List.range' a (b - a)

theorem mem_upFrom {a b j : ℕ} : j ∈ upFrom a b ↔ a ≤ j ∧ j < b := by
  rw [upFrom, List.mem_range'_1]
  omega

/-- `while (*m && !f[*m - 1]) --*m`, where `f[0]` is not set, and not used. -/
def trim (f : ℕ → Bool) : ℕ → ℕ
  | 0 => 0
  | m + 1 => if f m then m + 1 else trim f m

/-- The loop over a row that is kept, with `jj`. -/
def compactRow (f : ℕ → Bool) (m : ℕ) (row : RawRow) : ℕ × RawRow :=
  (upFrom 1 m).foldl
    (fun r j => if f j then (r.1 + 1, Function.update r.2 r.1 (r.2 j)) else r) (1, row)

theorem upFrom_pairwise (a b : ℕ) : (upFrom a b).Pairwise (· < ·) := List.pairwise_lt_range'

theorem nodup_upFrom (a b : ℕ) : (upFrom a b).Nodup := List.nodup_range'

theorem compactRow_eq_slide (f : ℕ → Bool) (m : ℕ) (row : RawRow) :
    compactRow f m row = slide f (upFrom 1 m) (1, row) := rfl

/-- A row that is kept has its columns from the second on in the places from the second on. -/
theorem compactRow_eq (f : ℕ → Bool) (m : ℕ) (row : RawRow) :
    compactRow f m row =
      (1 + ((upFrom 1 m).filter f).length, placed 1 ((upFrom 1 m).filter f) row) := by
  rw [compactRow_eq_slide]
  exact slide_eq f (upFrom_pairwise 1 m) (fun j hj => (mem_upFrom.mp hj).1) row

/-- The rows and columns that are kept. -/
structure Grid where
  m : ℕ
  type : RawRow
  name : RawRow
  data : List RawRow

/-- The header is compacted, and of the rows from the fourth on those with a first cell are. -/
def Gather.grid (shared : ℕ → List UInt8) (g : Gather) : Grid :=
  let rows := g.rows.reverse
  let h := (upFrom 1 g.m).foldl (Header.step shared)
    ⟨1, rows.getD 0 fun _ => none, rows.getD 1 fun _ => none, fun _ => false⟩
  let kept := ((rows.drop 3).filter fun row => filled shared (row 0)).map
    (compactRow h.f (trim h.f g.m))
  { m := (kept.getLast?.map Prod.fst).getD 1
    type := h.type
    name := h.name
    data := kept.map Prod.snd }

/-! ## Conversion -/

/-- The pointer of a shared string. -/
def pointer (vs : List StrPtr) (k : ℕ) : StrPtr := vs.getD k (.fix .number)

/-- What the shared strings are at present. -/
def present (vs : List StrPtr) (s : Intern) (k : ℕ) : List UInt8 := s.textOf (pointer vs k)

/-- The conversion of a cell in a column of type `t`. A shared string is written over where it
is. -/
def convertCell (vs : List StrPtr) (t : StrPtr) (c : Option Raw) (s : Intern) :
    Except Fail (StrPtr × Intern) :=
  match converted t, c with
  | none, c => getStr (cellText (present vs s) c) s
  | some t, some (.shared k) =>
    match pointer vs k with
    | .fix _ => .error .readOnly
    | .buf p => do
      let r ← convert t (s.text p)
      getStr r.2 (s.write p r.1)
  | some t, c => do
    let r ← convert t (cellText (present vs s) c)
    getStr r.2 s

/-- The conversion of a row. -/
def convertRow (vs type : List StrPtr) (m : ℕ) (row : RawRow) (s : Intern) :
    Except Fail (List StrPtr × Intern) := do
  let id ← getStr (cellText (present vs s) (row 0)) s
  let cells ← mapState (fun j => convertCell vs (type.getD j (.fix .number)) (row j))
    (upFrom 1 m) id.2
  .ok (id.1 :: cells.1, cells.2)

/-- A row of the header. -/
def internRow (vs : List StrPtr) (m : ℕ) (row : RawRow) (s : Intern) :
    Except Fail (List StrPtr × Intern) :=
  mapState (fun j s => getStr (cellText (present vs s) (row j)) s) (upFrom 0 m) s

/-- What `getVvs` returns. -/
structure Sheet where
  n : ℕ
  m : ℕ
  vvs : ℕ → ℕ → StrPtr

/-- The sheet of given rows. -/
def Sheet.ofRows (m : ℕ) (rows : List (List StrPtr)) : Sheet where
  n := rows.length
  m := m
  vvs := fun i j => (rows.getD i []).getD j (.fix .number)

/-- `getVvs` up to the checks. -/
def convertSheet (vs : List StrPtr) (vd : List Dot) (s : Intern) :
    Except Fail (Sheet × Intern) := do
  let g ← gather vs.length vd
  if g.rows.length < 2 then .error .tooFewRows
  else do
    let grid := g.grid (present vs s)
    let type ← internRow vs grid.m grid.type s
    let name ← internRow vs grid.m grid.name type.2
    let rows ← mapState (convertRow vs type.1 grid.m) grid.data name.2
    .ok (Sheet.ofRows grid.m (type.1 :: name.1 :: rows.1), rows.2)

/-- What the conversion of a sheet has gone through. -/
theorem convertSheet_cases {vs : List StrPtr} {vd : List Dot} {s s' : Intern} {sheet : Sheet}
    (h : convertSheet vs vd s = .ok (sheet, s')) :
    ∃ g type s₁ name s₂ rows, gather vs.length vd = .ok g ∧ 2 ≤ g.rows.length ∧
      internRow vs (g.grid (present vs s)).m (g.grid (present vs s)).type s = .ok (type, s₁) ∧
      internRow vs (g.grid (present vs s)).m (g.grid (present vs s)).name s₁ = .ok (name, s₂) ∧
      mapState (convertRow vs type (g.grid (present vs s)).m) (g.grid (present vs s)).data s₂ =
        .ok (rows, s') ∧
      sheet = Sheet.ofRows (g.grid (present vs s)).m (type :: name :: rows) := by
  unfold convertSheet at h
  obtain ⟨g, hg, h⟩ := ok_of_bind h
  by_cases hrows : g.rows.length < 2
  · rw [if_pos hrows] at h
    cases h
  rw [if_neg hrows] at h
  obtain ⟨⟨type, s₁⟩, htype, h⟩ := ok_of_bind h
  obtain ⟨⟨name, s₂⟩, hname, h⟩ := ok_of_bind h
  obtain ⟨⟨rows, s₃⟩, hconvert, h⟩ := ok_of_bind h
  cases h
  exact ⟨g, type, s₁, name, s₂, rows, hg, not_lt.mp hrows, htype, hname, hconvert, rfl⟩

/-! ## The checks -/

/-- The address that each pointer has. -/
structure Addresses where
  addr : StrPtr → ℤ
  injective : Function.Injective addr

/-- `qsort` of `vc` by `cmp`. -/
def Addresses.qsort (a : Addresses) (vc : List StrPtr) : List StrPtr :=
  vc.insertionSort fun p q => a.addr p ≤ a.addr q

/-- The first pointer that is equal to the one before it. -/
def firstRepeat : List StrPtr → Option StrPtr
  | p :: q :: l => if p = q then some q else firstRepeat (q :: l)
  | _ => none

/-- The first column, from the third row on. -/
def Sheet.ids (sheet : Sheet) : List StrPtr := (upFrom 2 sheet.n).map fun i => sheet.vvs i 0

/-- The names, from the second column on. -/
def Sheet.names (sheet : Sheet) : List StrPtr := (upFrom 1 sheet.m).map fun j => sheet.vvs 1 j

/-- The static data: the table of `getStr`, and the used length of `vvsMem`. -/
structure Memory where
  intern : Intern
  vvsMemLen : ℕ

/-- `getVvs`. -/
def getVvs (a : Addresses) (vs : List StrPtr) (vd : List Dot) (s : Memory) :
    Except Fail (Sheet × Memory) := do
  let r ← convertSheet vs vd s.intern
  match firstRepeat (a.qsort r.1.ids) with
  | some p => .error (.duplicateId (r.2.textOf p))
  | none =>
    match firstRepeat (a.qsort r.1.names) with
    | some p => .error (.duplicateName (r.2.textOf p))
    | none =>
      if 2^22 < s.vvsMemLen + 8 * r.1.n + 8 * (r.1.n * r.1.m) then .error .sheetSize
      else .ok (r.1, ⟨r.2, s.vvsMemLen + 8 * r.1.n + 8 * (r.1.n * r.1.m)⟩)

/-- A sheet that passes the checks is the one that has been converted. -/
theorem convertSheet_of_getVvs {a : Addresses} {vs : List StrPtr} {vd : List Dot} {s s' : Memory}
    {sheet : Sheet} (h : getVvs a vs vd s = .ok (sheet, s')) :
    convertSheet vs vd s.intern = .ok (sheet, s'.intern) := by
  unfold getVvs at h
  obtain ⟨⟨sheet₁, s₁⟩, hconvert, h⟩ := ok_of_bind h
  dsimp only at h
  split at h
  · cases h
  split at h
  · cases h
  split at h
  · cases h
  · cases h
    exact hconvert

/-! ## All sheets -/

/-- `hasChinese`. -/
def hasChinese (p : List UInt8) : Bool := p.any fun x => !decide (x < 128)

/-- One round of the loop over the sheets: the sheet of the given name and number, unless it is
skipped. -/
def readSheet (a : Addresses) (w : Workbook) (vs : List StrPtr) (x : StrPtr × ℕ) (s : Memory) :
    Except Fail (Option Sheet × Memory) :=
  if hasChinese (s.intern.textOf x.1) then .ok (none, s)
  else do
    let r ← getVvs a vs (w.worksheet x.2) s
    .ok (some r.1, r.2)

/-- What comes before the loop: the names, the shared strings, and the memory. -/
def start (w : Workbook) : Except Fail (List StrPtr × List StrPtr × Memory) := do
  let names ← getWorkbook 0 Intern.init w.workbook
  let vs ← getSharedStrings 0 none names.2 w.sharedStrings
  .ok (names.1, vs.1, ⟨vs.2, 0⟩)

/-- The first `k` rounds of the loop. -/
def readSheets (a : Addresses) (w : Workbook) (names vs : List StrPtr) (k : ℕ) (s : Memory) :
    Except Fail (List (Option Sheet) × Memory) :=
  mapState (readSheet a w vs) (names.zipIdx.take k) s

end Catse.Myxml2
