import Catse.Myxml2.Books
import Catse.Myxml2.Duplicates
import Catse.Myxml2.Expand
import Catse.Myxml2.Numbers

/-!
# When sharing preserves the tables

`sharing_preserves` is the exact condition. Rows that `cmpRow` takes to be the same are written
once, column by column and with the types of the first of them; so any two of them, at different
places of the book, must have no column that an argument drops, and types that write their cells
alike. What is written instead of a row is `Instead`: a shared row (`shareRow`), or the row of a
shared sheet. A row has something instead of it when it stands in a second place
(`Instead.elsewhere`), and two places of a row have the same instead of it (`exists_instead`).
-/

namespace Catse.Myxml2

open SortedTable

/-! ## The condition -/

/-- The row `i` of the sheet `s`, which is the sheet number `k` of the book. -/
structure Book.At (book : Book) (k i : ℕ) (s : Sheet) : Prop where
  sheet : (book.sheets.map Prod.snd)[k]? = some s
  row : i ∈ upFrom 2 s.n

/-- One of two rows can be written for both. -/
structure Context.Alike (c : Context) (argv4 argv5 : Option (List UInt8)) (x y : ShareRow) :
    Prop where
  unaffected : c.Unaffected argv4 argv5 x
  types : ∀ j ∈ upFrom 1 x.m, c.SameText (x.row j) (x.varType j) (y.varType j)

/-- Rows at different places that are the same for `cmpRow` can be written for each other. -/
def Context.Agrees (c : Context) (argv4 argv5 : Option (List UInt8)) (book : Book) : Prop :=
  ∀ k k' i i' s s', book.At k i s → book.At k' i' s' → (k, i) ≠ (k', i') →
    (s.rowAt i).Same (s'.rowAt i') →
    c.Alike argv4 argv5 (s.rowAt i) (s'.rowAt i')

/-- A row has a column to write whose type is none of the five. -/
def Context.Refused (c : Context) (argv4 argv5 : Option (List UInt8)) (book : Book) : Prop :=
  ∃ k i s, book.At k i s ∧ ∃ x ∈ c.written (some (c.targets argv4 argv5 s)) (s.rowAt i), ∀ t,
    s.vvs 0 x.2 ≠ .fix t

/-! ## What is written instead -/

namespace Context

variable (c : Context)

/-- The row that is written instead of the row `i` of the sheet `s`. -/
inductive Instead (sh : Shares) (s : Sheet) (i : ℕ) : ShareRow → Prop
  | row {q : ℕ} {x : ShareRow} (hfound : lookup (c.cmpRow (s.rowAt i)) sh.rows = .found q)
      (hx : sh.rows[q]? = some x) : Instead sh s i x
  | sheet {a p : ℕ} {y : Sheet} (habsent : lookup (c.cmpRow (s.rowAt i)) sh.rows = .absent a)
      (hfound : lookup (c.cmpSheet s) sh.sheets = .found p) (hy : sh.sheets[p]? = some y) :
      Instead sh s i (y.rowAt i)

/-- The value of the row `i` of the sheet `s`. -/
def rowValue (sh : Shares) (targetIndexs : ℕ → ℤ) (s : Sheet) (i : ℕ) : Option RowTable :=
  match lookup (c.cmpRow (s.rowAt i)) sh.rows, lookup (c.cmpSheet s) sh.sheets with
  | .found q, _ => sh.rows[q]?.bind (c.rowText none)
  | .absent _, .found p => sh.sheets[p]?.bind fun y => c.rowText none (y.rowAt i)
  | .absent _, .absent _ => c.rowText (some targetIndexs) (s.rowAt i)

variable {c} {sh : Shares} {s : Sheet} {i : ℕ} {x : ShareRow}

/-- What is written instead of a row is its value. -/
theorem Instead.rowValue (h : c.Instead sh s i x) (targetIndexs : ℕ → ℤ) :
    c.rowValue sh targetIndexs s i = c.rowText none x := by
  cases h with
  | row hfound hx =>
    rw [Context.rowValue, hfound]
    dsimp only
    rw [hx, Option.bind_some]
  | sheet habsent hfound hy =>
    rw [Context.rowValue, habsent, hfound]
    dsimp only
    rw [hy, Option.bind_some]

/-- A row that nothing is written instead of is its own value. -/
theorem rowValue_of_not_instead (h : ¬∃ x, c.Instead sh s i x) (targetIndexs : ℕ → ℤ) :
    c.rowValue sh targetIndexs s i = c.rowText (some targetIndexs) (s.rowAt i) := by
  unfold Context.rowValue
  cases hrow : lookup (c.cmpRow (s.rowAt i)) sh.rows with
  | found q =>
    obtain ⟨hq, -⟩ := lookup_found hrow
    exact absurd ⟨_, .row hrow (List.getElem?_eq_getElem hq)⟩ h
  | absent a =>
    cases hsheet : lookup (c.cmpSheet s) sh.sheets with
    | found p =>
      obtain ⟨hp, -⟩ := lookup_found hsheet
      exact absurd ⟨_, .sheet hrow hsheet (List.getElem?_eq_getElem hp)⟩ h
    | absent a => rfl

/-- What is found for a row is the same row. -/
theorem same_of_lookup_row {r : ShareRow} {q : ℕ} (hfound : lookup (c.cmpRow r) sh.rows = .found q)
    (hx : sh.rows[q]? = some x) : x.Same r := by
  obtain ⟨hq, h0⟩ := lookup_found hfound
  rw [List.getElem?_eq_getElem hq] at hx
  cases hx
  have hkey := ((c.compares_cmpRow r).zero_iff _).mp h0
  exact (c.keyOfRow_eq_iff.mp hkey).symm

/-- What is found for a sheet is the same sheet. -/
theorem same_of_lookup_sheet {p : ℕ} {y : Sheet}
    (hfound : lookup (c.cmpSheet s) sh.sheets = .found p)
    (hy : sh.sheets[p]? = some y) : y.Same s := by
  obtain ⟨hp, h0⟩ := lookup_found hfound
  rw [List.getElem?_eq_getElem hp] at hy
  cases hy
  have hkey := ((c.compares_cmpSheet s).zero_iff _).mp h0
  exact (c.keyOfSheet_eq_iff.mp hkey).symm

/-- A sheet is written row by row, whether it is shared or not. -/
theorem sharedSheet_eq (hm : 1 ≤ s.m) (targetIndexs : ℕ → ℤ) :
    c.sharedSheet sh targetIndexs s = c.sheetTable (c.rowValue sh targetIndexs s) s := by
  unfold sharedSheet
  cases hsheet : lookup (c.cmpSheet s) sh.sheets with
  | absent a =>
    apply mapAll_congr
    intro i _
    rw [Context.rowValue, hsheet]
    dsimp only
    rw [sharedRow]
    cases lookup (c.cmpRow (s.rowAt i)) sh.rows with
    | found q => rfl
    | absent b => rfl
  | found p =>
    obtain ⟨hp, -⟩ := lookup_found hsheet
    have hy := List.getElem?_eq_getElem hp
    have hsame := same_of_lookup_sheet hsheet hy
    dsimp only
    rw [hy, Option.bind_some, ownSheet, sheetTable, sheetTable, hsame.n]
    apply mapAll_congr
    intro i hi
    have hi' : i ∈ upFrom 2 sh.sheets[p].n := hsame.n.symm ▸ hi
    -- The shared sheet has the row of this sheet, and its ID.
    have hid : sh.sheets[p].vvs i 0 = s.vvs i 0 :=
      hsame.vvs i (mem_upFrom_zero hi').1 0 (mem_upFrom.mpr ⟨le_rfl, hsame.m ▸ hm⟩)
    rw [hid, Context.rowValue, hsheet]
    rw [sharedRow, c.cmpRow_congr (hsame.rowAt hi')]
    cases lookup (c.cmpRow (s.rowAt i)) sh.rows with
    | found q => rfl
    | absent b =>
      dsimp only
      rw [hy, Option.bind_some]

/-! ## Places -/

section

variable {book : Book} {k k' i' : ℕ} {s' : Sheet}

/-- A sheet of the book is one of its sheets by number. -/
theorem exists_at {book : Book} {t : Sheet} (h : t ∈ book.sheets.map Prod.snd)
    (hi : i ∈ upFrom 2 t.n) :
    ∃ k, book.At k i t := by
  obtain ⟨k, hk⟩ := List.mem_iff_getElem?.mp h
  exact ⟨k, hk, hi⟩

/-- A row that is counted stands in the book. -/
theorem at_of_mem_places {p : Sheet × ℕ} (h : p ∈ c.places (book.sheets.map Prod.snd)) :
    ∃ k, book.At k p.2 p.1 := by
  obtain ⟨⟨n, hn⟩, hi⟩ := c.mem_places.mp h
  exact exists_at ((c.counts_sheets _).mem (p.1, n) hn) hi

/-- What is written instead of a row is the same row, from some place of the book. -/
theorem Instead.place (hat : book.At k i s)
    (h : c.Instead (c.shares false (book.sheets.map Prod.snd)) s i x) :
    x.Same (s.rowAt i) ∧ ∃ k₀ i₀ s₀, book.At k₀ i₀ s₀ ∧ s₀.rowAt i₀ = x := by
  cases h with
  | row hfound hx =>
    obtain ⟨p, hp, hplace⟩ := c.mem_places_of_rows (List.mem_of_getElem? hx)
    obtain ⟨k₀, hat₀⟩ := at_of_mem_places hp
    exact ⟨same_of_lookup_row hfound hx, k₀, p.2, p.1, hat₀, hplace⟩
  | sheet habsent hfound hy =>
    have hsame := same_of_lookup_sheet hfound hy
    have hi : i ∈ upFrom 2 _ := hsame.n.symm ▸ hat.row
    have hmem := ((c.counts_sheets _).count_kept (List.mem_of_getElem? hy)).1
    obtain ⟨k₀, hat₀⟩ := exists_at hmem hi
    exact ⟨hsame.rowAt hi, k₀, i, _, hat₀, rfl⟩

/-- Of two different places one is different from a third. -/
theorem ne_or_ne {α : Type} {p q : α} (h : p ≠ q) (r : α) : p ≠ r ∨ q ≠ r := by
  by_cases hp : p = r
  · subst hp
    exact .inr h.symm
  · exact .inl hp

/-- A row that something is written instead of stands elsewhere, too. -/
theorem Instead.elsewhere (hat : book.At k i s)
    (h : c.Instead (c.shares false (book.sheets.map Prod.snd)) s i x) :
    ∃ k₀ i₀ s₀, book.At k₀ i₀ s₀ ∧ (k₀, i₀) ≠ (k, i) ∧ (s₀.rowAt i₀).Same (s.rowAt i) := by
  cases h with
  | row hfound hx =>
    -- The row was counted twice.
    obtain ⟨p, hp, q, hq, hne, hsp, hsq⟩ := c.found_row_iff.mp ⟨_, hfound⟩
    obtain ⟨kp, hatp⟩ := at_of_mem_places hp
    obtain ⟨kq, hatq⟩ := at_of_mem_places hq
    have hplaces : (kp, p.2) ≠ (kq, q.2) := by
      intro heq
      obtain ⟨hk, hi⟩ := Prod.mk.inj heq
      have hsheets : some p.1 = some q.1 := hatp.sheet.symm.trans (hk ▸ hatq.sheet)
      exact hne (Prod.ext (Option.some.inj hsheets) hi)
    rcases ne_or_ne hplaces (k, i) with hp' | hq'
    · exact ⟨kp, p.2, p.1, hatp, hp', hsp⟩
    · exact ⟨kq, q.2, q.1, hatq, hq', hsq⟩
  | sheet habsent hfound hy =>
    -- The sheet was counted twice.
    obtain ⟨a, b, t, u, hne, ha, hb, hst, hsu⟩ := c.found_sheet_iff.mp ⟨_, hfound⟩
    have helse : ∀ k₀ t₀, (book.sheets.map Prod.snd)[k₀]? = some t₀ → t₀.Same s → k₀ ≠ k →
        ∃ k₀ i₀ s₀, book.At k₀ i₀ s₀ ∧ (k₀, i₀) ≠ (k, i) ∧ (s₀.rowAt i₀).Same (s.rowAt i) := by
      intro k₀ t₀ h₀ hsame hk₀
      have hi : i ∈ upFrom 2 t₀.n := hsame.n.symm ▸ hat.row
      exact ⟨k₀, i, t₀, ⟨h₀, hi⟩, fun heq => hk₀ (Prod.mk.inj heq).1, hsame.rowAt hi⟩
    rcases ne_or_ne hne k with ha' | hb'
    · exact helse a t ha hst ha'
    · exact helse b u hb hsu hb'

/-- Two places of a row have the same row written instead. -/
theorem exists_instead (hat : book.At k i s) (hat' : book.At k' i' s') (hne : (k, i) ≠ (k', i'))
    (hsame : (s.rowAt i).Same (s'.rowAt i')) :
    ∃ x, c.Instead (c.shares false (book.sheets.map Prod.snd)) s i x ∧
      c.Instead (c.shares false (book.sheets.map Prod.snd)) s' i' x := by
  have hcmp := c.cmpRow_congr hsame
  cases hrow : lookup (c.cmpRow (s.rowAt i)) (c.shares false (book.sheets.map Prod.snd)).rows with
  | found q =>
    obtain ⟨hq, -⟩ := lookup_found hrow
    have hx := List.getElem?_eq_getElem hq
    exact ⟨_, .row hrow hx, .row (hcmp ▸ hrow) hx⟩
  | absent a =>
    -- Both sheets are the same as one that was counted: otherwise the row would have been counted
    -- twice.
    obtain ⟨t, n, ht, hts⟩ := c.exists_countSheets (List.mem_of_getElem? hat.sheet)
    obtain ⟨t', n', ht', hts'⟩ := c.exists_countSheets (List.mem_of_getElem? hat'.sheet)
    have hi : i ∈ upFrom 2 t.n := hts.n.symm ▸ hat.row
    have hi' : i' ∈ upFrom 2 t'.n := hts'.n.symm ▸ hat'.row
    have hplace : (t, i) = (t', i') := by
      by_contra hplaces
      obtain ⟨q, hq⟩ := c.found_row_iff.mpr ⟨(t, i), c.mem_places.mpr ⟨⟨n, ht⟩, hi⟩, (t', i'),
        c.mem_places.mpr ⟨⟨n', ht'⟩, hi'⟩, hplaces, hts.rowAt hi, (hts'.rowAt hi').trans hsame.symm⟩
      rw [hrow] at hq
      cases hq
    obtain ⟨rfl, rfl⟩ := Prod.mk.inj hplace
    -- So they are two places of one sheet.
    have hk : k ≠ k' := fun hk => hne (by rw [hk])
    obtain ⟨p, hp⟩ := c.found_sheet_iff.mpr ⟨k, k', s, s', hk, hat.sheet, hat'.sheet,
      hts.symm.trans hts,
      hts'.symm.trans hts⟩
    have hp' : lookup (c.cmpSheet s') (c.shares false (book.sheets.map Prod.snd)).sheets =
      .found p := by
      rw [← hp, c.cmpSheet_congr (hts'.symm.trans hts)]
    obtain ⟨hlt, -⟩ := lookup_found hp
    have hy := List.getElem?_eq_getElem hlt
    exact ⟨_, .sheet hrow hp hy, .sheet (hcmp ▸ hrow) hp' hy⟩

/-! ## Values -/

variable {argv4 argv5 : Option (List UInt8)}

/-- A row is written when the types of its columns are among the five. -/
theorem exists_rowText_iff {targetIndexs : Option (ℕ → ℤ)} :
    (∃ d, c.rowText targetIndexs x = some d) ↔ ∀ y ∈ c.written targetIndexs x, ∃ t, x.varType y.2 =
      .fix t := by
  constructor
  · rintro ⟨d, hd⟩ y hy
    obtain ⟨w, hw⟩ := isSome_of_mapAll hd y hy
    obtain ⟨v, hv, -⟩ := Option.map_eq_some_iff.mp hw
    cases ht : x.varType y.2 with
    | fix t => exact ⟨t, rfl⟩
    | buf p =>
      rw [ht] at hv
      cases hv
  · intro h
    apply exists_mapAll
    intro y hy
    obtain ⟨t, ht⟩ := h y hy
    rw [ht]
    cases t <;> exact ⟨_, rfl⟩

variable (c) in
/-- Every row can be written. -/
def Written (argv4 argv5 : Option (List UInt8)) (book : Book) : Prop :=
  ∀ k i s, book.At k i s → ∃ d, c.rowText (some (c.targets argv4 argv5 s)) (s.rowAt i) = some d

theorem written_of_not_refused (h : ¬c.Refused argv4 argv5 book) : c.Written argv4 argv5 book := by
  intro k i s hat
  rw [exists_rowText_iff]
  intro y hy
  by_contra hnone
  exact h ⟨k, i, s, hat, y, hy, not_exists.mp hnone⟩

theorem exists_plainTables (h : c.Written argv4 argv5 book) :
    ∃ b, c.plainTables argv4 argv5 book = some b := by
  apply exists_mapAll
  intro y hy
  have hmem : y.2 ∈ book.sheets.map Prod.snd := List.mem_map_of_mem hy
  obtain ⟨d, hd⟩ : ∃ d,
    c.sheetTable (fun i => c.rowText (some (c.targets argv4 argv5 y.2)) (y.2.rowAt i)) y.2 =
      some d := by
    apply exists_mapAll
    intro i hi
    obtain ⟨k, hat⟩ := exists_at hmem hi
    obtain ⟨d, hd⟩ := h k i y.2 hat
    exact ⟨_, Option.map_eq_some_iff.mpr ⟨d, hd, rfl⟩⟩
  exact ⟨_, Option.map_eq_some_iff.mpr ⟨d, hd, rfl⟩⟩

theorem plainTables_of_refused (h : c.Refused argv4 argv5 book) :
    c.plainTables argv4 argv5 book = none := by
  obtain ⟨k, i, s, hat, y, hy, hnone⟩ := h
  obtain ⟨z, hz, rfl⟩ := List.mem_map.mp (List.mem_of_getElem? hat.sheet)
  by_contra hsome
  obtain ⟨b, hb⟩ := Option.ne_none_iff_exists'.mp hsome
  obtain ⟨w, hw⟩ := isSome_of_mapAll hb z hz
  obtain ⟨d, hd, -⟩ := Option.map_eq_some_iff.mp hw
  obtain ⟨v, hv⟩ := isSome_of_mapAll hd i hat.row
  obtain ⟨r, hr, -⟩ := Option.map_eq_some_iff.mp hv
  obtain ⟨t, ht⟩ := exists_rowText_iff.mp ⟨r, hr⟩ y hy
  exact hnone t ht

/-- What is entered under one key is the same when the entries are. -/
theorem eq_of_map_entry {α : Type} {key : List UInt8} {u v : Option α}
    (h : u.map (fun d => (key, some d)) = v.map fun d => (key, some d)) : u = v :=
  Option.map_injective (fun _ _ heq => Option.some.inj (Prod.mk.inj heq).2) h

/-- The tables are the same when the values of the rows are. -/
theorem sharedTables_eq_iff {b : List (List UInt8 × Option SheetTable)}
    (hb : c.plainTables argv4 argv5 book = some b) :
    c.sharedTables false argv4 argv5 book = some b ↔ ∀ k i s, book.At k i s →
      c.rowValue (c.shares false (book.sheets.map Prod.snd)) (c.targets argv4 argv5 s) s i =
        c.rowText (some (c.targets argv4 argv5 s)) (s.rowAt i) := by
  constructor
  · intro hshared k i s hat
    obtain ⟨z, hz, rfl⟩ := List.mem_map.mp (List.mem_of_getElem? hat.sheet)
    have hsheet := eq_of_map_entry (eq_of_mapAll hshared hb z hz)
    dsimp only at hsheet
    rw [sharedSheet_eq (book.one_le z hz)] at hsheet
    obtain ⟨w, hw⟩ := isSome_of_mapAll hb z hz
    obtain ⟨d, hd, -⟩ := Option.map_eq_some_iff.mp hw
    exact eq_of_map_entry (eq_of_mapAll (hsheet.trans hd) hd i hat.row)
  · intro h
    rw [← hb]
    apply mapAll_congr
    intro z hz
    have hsheet :
        c.sheetTable (c.rowValue (c.shares false (book.sheets.map Prod.snd))
            (c.targets argv4 argv5 z.2) z.2) z.2 =
          c.sheetTable (fun i => c.rowText (some (c.targets argv4 argv5 z.2)) (z.2.rowAt i)) z.2 :=
        by
      apply mapAll_congr
      intro i hi
      obtain ⟨k, hat⟩ := exists_at (List.mem_map_of_mem hz) hi
      rw [h k i z.2 hat]
    dsimp only
    rw [sharedSheet_eq (book.one_le z hz), hsheet]

/-- When the values of the rows are right, same rows are alike. -/
theorem agrees_of_rowValue (hwritten : c.Written argv4 argv5 book)
    (h : ∀ k i s, book.At k i s →
      c.rowValue (c.shares false (book.sheets.map Prod.snd)) (c.targets argv4 argv5 s) s i =
        c.rowText (some (c.targets argv4 argv5 s)) (s.rowAt i)) : c.Agrees argv4 argv5 book := by
  intro k k' i i' s s' hat hat' hne hsame
  obtain ⟨x, hx, hx'⟩ := exists_instead hat hat' hne hsame
  -- A row that is written instead of another is written like it, so no argument affects the other.
  have hrow : ∀ {k i s},
    book.At k i s → c.Instead (c.shares false (book.sheets.map Prod.snd)) s i x →
      c.Unaffected argv4 argv5 (s.rowAt i) ∧ ∃ d,
        c.rowText none x = some d ∧ c.rowText none (s.rowAt i) = some d := by
    intro k i s hat hx
    obtain ⟨d, hd⟩ := hwritten k i s hat
    have hvalue := h k i s hat
    rw [hx.rowValue, hd] at hvalue
    have hunaffected := c.unaffected_of_rowText (hx.place hat).1.m hd hvalue
    rw [c.rowText_targets hunaffected] at hd
    exact ⟨hunaffected, d, hvalue, hd⟩
  obtain ⟨hunaffected, d, hdx, hd⟩ := hrow hat hx
  obtain ⟨-, d', hdx', hd'⟩ := hrow hat' hx'
  have hdd : d' = d := Option.some.inj (hdx'.symm.trans hdx)
  rw [hdd] at hd'
  exact ⟨hunaffected, c.sameText_of_rowText hsame hd hd'⟩

/-- When same rows are alike, a row that something is written instead of is written like it. -/
theorem rowText_of_agrees (hwritten : c.Written argv4 argv5 book) (h : c.Agrees argv4 argv5 book)
    (hat : book.At k i s) (hx : c.Instead (c.shares false (book.sheets.map Prod.snd)) s i x) :
    c.Unaffected argv4 argv5 (s.rowAt i) ∧
      c.rowText none x = c.rowText (some (c.targets argv4 argv5 s)) (s.rowAt i) := by
  obtain ⟨k₁, i₁, s₁, hat₁, hne₁, hsame₁⟩ := hx.elsewhere hat
  have hunaffected := (h k k₁ i i₁ s s₁ hat hat₁ hne₁.symm hsame₁.symm).unaffected
  refine ⟨hunaffected, ?_⟩
  obtain ⟨d, hd⟩ := hwritten k i s hat
  have hd' : c.rowText none (s.rowAt i) = some d := by
    rw [← c.rowText_targets hunaffected]
    exact hd
  obtain ⟨hsame, k₀, i₀, s₀, hat₀, rfl⟩ := hx.place hat
  rw [hd]
  by_cases hplace : (k₀, i₀) = (k, i)
  · -- It is the row itself.
    obtain ⟨rfl, rfl⟩ := Prod.mk.inj hplace
    have hsheets : s₀ = s := Option.some.inj (hat₀.sheet.symm.trans hat.sheet)
    rw [hsheets]
    exact hd'
  · exact c.rowText_of_sameText hsame (h k₀ k i₀ i s₀ s hat₀ hat hplace hsame).types hd'

/-- When same rows are alike, all that is shared is defined. -/
theorem defined_of_agrees (hwritten : c.Written argv4 argv5 book) (h : c.Agrees argv4 argv5 book) :
    c.Defined (c.shares false (book.sheets.map Prod.snd)) := by
  -- A row that something is written instead of can be written column by column.
  have hown : ∀ {k i s x},
    book.At k i s → c.Instead (c.shares false (book.sheets.map Prod.snd)) s i x →
      ∃ d, c.rowText none (s.rowAt i) = some d := by
    intro k i s x hat hx
    rw [← c.rowText_targets (rowText_of_agrees hwritten h hat hx).1]
    exact hwritten k i s hat
  have hrows : ∀ x ∈ (c.shares false (book.sheets.map Prod.snd)).rows, ∃ d,
    c.rowText none x = some d := by
    intro x hx
    obtain ⟨p, hp, rfl⟩ := c.mem_places_of_rows hx
    obtain ⟨k, hat⟩ := at_of_mem_places hp
    obtain ⟨q, hq⟩ := lookup_of_mem (c.compares_cmpRow _) ((c.counts_rows _).sorted_kept 1) hx rfl
    obtain ⟨hlt, -⟩ := lookup_found hq
    exact hown hat (.row hq (List.getElem?_eq_getElem hlt))
  refine ⟨hrows, fun y hy => ?_⟩
  have hmem := ((c.counts_sheets _).count_kept hy).1
  obtain ⟨p, hp⟩ := lookup_of_mem (c.compares_cmpSheet _) ((c.counts_sheets _).sorted_kept 1) hy rfl
  obtain ⟨hlt, -⟩ := lookup_found hp
  apply exists_mapAll
  intro i hi
  obtain ⟨k, hat⟩ := exists_at hmem hi
  obtain ⟨d, hd⟩ : ∃ d,
    c.sharedRow (c.shares false (book.sheets.map Prod.snd)).rows none (y.rowAt i) = some d := by
    unfold sharedRow
    cases hrow : lookup (c.cmpRow (y.rowAt i)) (c.shares false (book.sheets.map Prod.snd)).rows with
    | found q =>
      obtain ⟨hq, -⟩ := lookup_found hrow
      dsimp only
      rw [List.getElem?_eq_getElem hq, Option.bind_some]
      exact hrows _ (List.getElem_mem hq)
    | absent a => exact hown hat (.sheet hrow hp (List.getElem?_eq_getElem hlt))
  exact ⟨_, Option.map_eq_some_iff.mpr ⟨d, hd, rfl⟩⟩

end

/-- Sharing preserves the tables exactly when nothing is generated with noshare (for a check, or
because a type is refused), or rows that `cmpRow` takes to be the same can be written for each
other. -/
theorem sharing_preserves (c : Context) (argv4 argv5 : Option (List UInt8)) (book : Book) :
    c.Preserves argv4 argv5 book.sheets ↔
      argv4 = some (bytes "check") ∨ c.Refused argv4 argv5 book ∨ c.Agrees argv4 argv5 book := by
  by_cases hcheck : argv4 = some (bytes "check")
  · -- Nothing is written, so nothing is different.
    refine iff_of_true (fun o ho => ?_) (.inl hcheck)
    rw [emit, if_pos hcheck] at ho
    cases ho
  rw [c.preserves_iff hcheck, or_iff_right hcheck]
  by_cases hrefused : c.Refused argv4 argv5 book
  · -- A run that is refused writes nothing either.
    refine iff_of_true (fun b hb => ?_) (.inl hrefused)
    rw [plainTables_of_refused hrefused] at hb
    cases hb
  rw [or_iff_right hrefused]
  have hwritten := written_of_not_refused hrefused
  obtain ⟨b, hb⟩ := exists_plainTables hwritten
  constructor
  · intro h
    exact agrees_of_rowValue hwritten ((sharedTables_eq_iff hb).mp (h b hb).2)
  · intro h b hb
    refine ⟨defined_of_agrees hwritten h, (sharedTables_eq_iff hb).mpr fun k i s hat => ?_⟩
    -- A row that another one stands for, or one that is written as it is.
    by_cases hinstead : ∃ x, c.Instead (c.shares false (book.sheets.map Prod.snd)) s i x
    · obtain ⟨x, hx⟩ := hinstead
      rw [hx.rowValue]
      exact (rowText_of_agrees hwritten h hat hx).2
    · exact rowValue_of_not_instead hinstead _

/-! ## Two types for one row -/

/-- A workbook of two sheets with the row `1`, `5`, where the `5` is a number in the first and a
string in the second. -/
def twoTypes : Workbook where
  workbook := [⟨.sheet, [], [bytes "A"]⟩, ⟨.sheet, [], [bytes "B"]⟩]
  sharedStrings := ["1", "5", "id", "x", "number", "string"].flatMap fun s =>
    [⟨.si, [], []⟩, ⟨.t, bytes s, []⟩]
  worksheet := fun i =>
    sharedCell "A1" "2" ++ sharedCell "B1" (if i = 0 then "4" else "5") ++ sharedCell "A2" "2" ++
    sharedCell "B2" "3" ++ sharedCell "A3" "2" ++ sharedCell "A4" "0" ++ sharedCell "B4" "1"

/-- The outputs differ when what they define does. -/
theorem not_preserves {c : Context} {argv4 argv5 : Option (List UInt8)}
    {sheets : List (List UInt8 × Sheet)} (hsome : (c.emit true argv4 argv5 sheets).isSome = true)
    (hne : (c.emit false argv4 argv5 sheets).map Output.expand ≠
    (c.emit true argv4 argv5 sheets).map Output.expand) :
    ¬c.Preserves argv4 argv5 sheets := by
  intro h
  obtain ⟨o, ho⟩ := Option.isSome_iff_exists.mp hsome
  obtain ⟨o', ho', hexpand⟩ := h o ho
  apply hne
  rw [ho, ho', Option.map_some, Option.map_some, hexpand]

/-- The row is shared, with the type of the first sheet, so that the second one has a number. -/
theorem string_becomes_number : ∃ sheets s, readBook Addresses.below twoTypes = .ok (sheets, s) ∧
    ¬(ofIntern Addresses.below s).Preserves none none sheets := by
  have hread : (match readBook Addresses.below twoTypes with
      | .ok (sheets, s) =>
        ((ofIntern Addresses.below s).emit true none none sheets).isSome &&
          decide (((ofIntern Addresses.below s).emit false none none sheets).map Output.expand ≠
            ((ofIntern Addresses.below s).emit true none none sheets).map Output.expand)
      | .error _ => false) = true := by
    decide +kernel
  cases hbook : readBook Addresses.below twoTypes with
  | error e =>
    rw [hbook] at hread
    cases hread
  | ok r =>
    obtain ⟨sheets, s⟩ := r
    rw [hbook] at hread
    dsimp only at hread
    obtain ⟨hsome, hne⟩ := Bool.and_eq_true_iff.mp hread
    exact ⟨sheets, s, rfl, not_preserves hsome (of_decide_eq_true hne)⟩

end Context

end Catse.Myxml2
