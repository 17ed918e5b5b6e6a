import Catse.Myxml2.Share

/-!
# The sheets that are read

`readBook` is `main` up to the sharing. What it returns is within the limits of a `Book`
(`exists_book`): `getWorkbook` ends at 512 names, and `getVvs` at 20000 rows and at 128 columns.
-/

namespace Catse.Myxml2

/-- The sheets that are not skipped, with their names, and the strings. -/
def readBook (a : Addresses) (w : Workbook) : Except Fail (List (List UInt8 × Sheet) × Intern) := do
  let r ← start w
  let rs ← readSheets a w r.1 r.2.1 r.1.length r.2.2
  .ok ((r.1.zip rs.1).filterMap fun x =>
      x.2.map fun sheet => (rs.2.intern.textOf x.1, sheet),
    rs.2.intern)

/-- A sheet within the limits of `vvs`. -/
structure Sheet.Bounded (s : Sheet) : Prop where
  n_le : s.n ≤ 20000
  one_le : 1 ≤ s.m
  m_le : s.m ≤ 128

/-! ## The limits of a sheet -/

/-- The rows and columns so far are within the limits. -/
structure Gather.Bounded (g : Gather) : Prop where
  rows : g.rows.length ≤ 20000
  m : g.m ≤ 128

theorem gather_bounded {vsLen : ℕ} {vd : List Dot} {g : Gather} (h : gather vsLen vd = .ok g) :
    g.Bounded := by
  refine gather_induction (fun g d g' hg hstep => ?_) ⟨Nat.zero_le _, Nat.zero_le _⟩ h
  obtain ⟨-, -, -, -, ⟨-, hfull, rfl⟩ | ⟨-, rfl⟩⟩ | ⟨row, rows, v, -, hrows, h0, h128, -, rfl⟩ |
    ⟨-, -, rfl⟩ := gatherStep_cases hstep
  · exact ⟨hfull, hg.m⟩
  · exact ⟨hg.rows, hg.m⟩
  · have hlen := hg.rows
    rw [hrows] at hlen
    exact ⟨hlen, max_le hg.m (by omega)⟩
  · exact hg

theorem trim_le (f : ℕ → Bool) (m : ℕ) : trim f m ≤ m := by
  induction m with
  | zero => exact le_rfl
  | succ m ih =>
    rw [trim]
    split_ifs
    · exact le_rfl
    · exact ih.trans (Nat.le_succ m)

/-- A row keeps its first column, and no column twice. -/
theorem compactRow_bounds (f : ℕ → Bool) (m : ℕ) (row : RawRow) :
    1 ≤ (compactRow f m row).1 ∧ (compactRow f m row).1 ≤ max 1 m := by
  have hlen : (upFrom 1 m).length = m - 1 := List.length_range'
  have hle := List.length_filter_le f (upFrom 1 m)
  rw [compactRow_eq]
  omega

theorem grid_bounds {g : Gather} (h : g.Bounded) (shared : ℕ → List UInt8) :
    1 ≤ (g.grid shared).m ∧ (g.grid shared).m ≤ 128 ∧
    (g.grid shared).data.length ≤ g.rows.length - 3 := by
  have hm := h.m
  unfold Gather.grid
  dsimp only
  generalize (upFrom 1 g.m).foldl (Header.step shared) _ = header
  generalize hkept : ((g.rows.reverse.drop 3).filter fun row => filled shared (row 0)).map
    (compactRow header.f (trim header.f g.m)) = kept
  have hlast : ∀ r ∈ kept, 1 ≤ r.1 ∧ r.1 ≤ 128 := by
    intro r hr
    rw [← hkept] at hr
    obtain ⟨row, -, rfl⟩ := List.mem_map.mp hr
    have hbounds := compactRow_bounds header.f (trim header.f g.m) row
    have htrim := trim_le header.f g.m
    omega
  have hdata : (kept.map Prod.snd).length ≤ g.rows.length - 3 := by
    have hfilter := List.length_filter_le (fun row => filled shared (row 0)) (g.rows.reverse.drop 3)
    rw [List.length_drop, List.length_reverse] at hfilter
    rw [List.length_map, ← hkept, List.length_map]
    exact hfilter
  cases hl : kept.getLast? with
  | none => exact ⟨le_rfl, by decide, hdata⟩
  | some r =>
    obtain ⟨hone, hle⟩ := hlast r (List.mem_of_getLast? hl)
    exact ⟨hone, hle, hdata⟩

/-- What `getVvs` returns is within the limits. -/
theorem getVvs_bounded {a : Addresses} {vs : List StrPtr} {vd : List Dot} {s s' : Memory}
    {sheet : Sheet} (h : getVvs a vs vd s = .ok (sheet, s')) : sheet.Bounded := by
  unfold getVvs at h
  obtain ⟨⟨sheet', s₁⟩, hconvert, h⟩ := ok_of_bind h
  have hsheet : sheet' = sheet := by
    dsimp only at h
    split at h
    · cases h
    split at h
    · cases h
    split at h
    · cases h
    · cases h
      rfl
  rw [hsheet] at hconvert
  unfold convertSheet at hconvert
  obtain ⟨g, hg, hconvert⟩ := ok_of_bind hconvert
  split_ifs at hconvert with hfew
  obtain ⟨⟨type, s₂⟩, -, hconvert⟩ := ok_of_bind hconvert
  obtain ⟨⟨name, s₃⟩, -, hconvert⟩ := ok_of_bind hconvert
  obtain ⟨⟨rows, s₄⟩, hrows, hconvert⟩ := ok_of_bind hconvert
  cases hconvert
  have hbounded := gather_bounded hg
  obtain ⟨hone, hm, hdata⟩ := grid_bounds hbounded (present vs s.intern)
  have hall := (mapState_spec (P := fun _ => True) (E := fun _ _ => True)
    (Q := fun _ _ _ => True) (fun _ => trivial) (fun _ _ => trivial) (fun _ _ => trivial)
    (fun _ _ _ _ _ _ _ => ⟨trivial, trivial, trivial⟩) trivial hrows).2.2
  have hlen := hall.length_eq
  have hg20000 := hbounded.rows
  refine ⟨?_, hone, hm⟩
  show (type :: name :: rows).length ≤ 20000
  rw [List.length_cons, List.length_cons]
  omega

/-! ## The limits of the book -/

theorem length_getWorkbook {vd : List Dot} {n : ℕ} {s s' : Intern} {names : List StrPtr}
    (hn : n < 512) (h : getWorkbook n s vd = .ok (names, s')) : n + names.length < 512 := by
  induction vd generalizing n s names with
  | nil =>
    cases h
    exact hn
  | cons d vd ih =>
    rw [getWorkbook] at h
    split_ifs at h with hd hcap
    · split at h
      · cases h
      · obtain ⟨⟨p, s₁⟩, -, h⟩ := ok_of_bind h
        obtain ⟨⟨ps, s₂⟩, hrest, h⟩ := ok_of_bind h
        cases h
        have hlen := ih (Nat.lt_of_not_le hcap) hrest
        dsimp only at hlen ⊢
        rw [List.length_cons]
        omega
    · exact ih hn h

/-- What is read is a book. -/
theorem exists_book {a : Addresses} {w : Workbook} {sheets : List (List UInt8 × Sheet)} {s : Intern}
    (h : readBook a w = .ok (sheets, s)) : ∃ book : Book, book.sheets = sheets := by
  unfold readBook at h
  obtain ⟨⟨names, vs, s₀⟩, hstart, h⟩ := ok_of_bind h
  obtain ⟨⟨results, s₁⟩, hread, h⟩ := ok_of_bind h
  cases h
  -- What each round adds is within the limits of `vvs`.
  have hround : ∀ x ∈ names.zipIdx.take names.length, ∀ s result s', True →
      readSheet a w vs x s = .ok (result, s') → True ∧ True ∧ ∀ sheet,
        result = some sheet → sheet.Bounded := by
    intro x _ s result s' _ hx
    refine ⟨trivial, trivial, ?_⟩
    rintro sheet rfl
    unfold readSheet at hx
    split_ifs at hx with hname
    · cases hx
    · obtain ⟨⟨sheet', s₂⟩, hvvs, hx⟩ := ok_of_bind hx
      cases hx
      exact getVvs_bounded hvvs
  have hresults := (mapState_spec (P := fun _ => True) (E := fun _ _ => True)
    (Q := fun _ _ (result : Option Sheet) => ∀ sheet, result = some sheet → sheet.Bounded)
    (fun _ => trivial) (fun _ _ => trivial) (fun _ h => h) hround trivial hread).2.2
  have hbounded : ∀ x ∈ (names.zip results).filterMap fun x =>
      x.2.map fun sheet => (s₁.intern.textOf x.1, sheet), x.2.Bounded := by
    intro x hx
    obtain ⟨⟨p, result⟩, hmem, hx⟩ := List.mem_filterMap.mp hx
    obtain ⟨sheet, hsheet, rfl⟩ := Option.map_eq_some_iff.mp hx
    obtain ⟨i, hi, hget⟩ := List.getElem_of_mem (List.of_mem_zip hmem).2
    have hlen := hresults.length_eq
    exact (List.forall₂_iff_get.mp hresults).2 i (by omega) hi sheet (hget.trans hsheet)
  -- `getWorkbook` takes no more names than there is room for sheets.
  have hnames : names.length < 512 := by
    unfold start at hstart
    obtain ⟨⟨ns, s₂⟩, hns, hstart⟩ := ok_of_bind hstart
    obtain ⟨⟨ps, s₃⟩, -, hstart⟩ := ok_of_bind hstart
    cases hstart
    have hlen := length_getWorkbook (by decide) hns
    dsimp only at hlen ⊢
    omega
  refine ⟨⟨_, ?_, fun x hx => (hbounded x hx).n_le, fun x hx => (hbounded x hx).one_le,
    fun x hx => (hbounded x hx).m_le⟩, rfl⟩
  refine (List.length_filterMap_le _ _).trans_lt ?_
  rw [List.length_zip]
  omega

end Catse.Myxml2
