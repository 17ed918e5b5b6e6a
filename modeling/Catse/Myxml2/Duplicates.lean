import Catse.Myxml2.Sheets

/-!
# Duplicate IDs and names

The checks of `getVvs` compare pointers, so they are right as long as pointers stand for strings.
What breaks this is the conversion of a shared string: it writes over a string of the table, which
is sorted by these strings. A sheet is `Clean` when its conversion leaves the shared strings as they
are. While all sheets are clean, the invariant is `Ready`: the table is well formed, and the shared
strings are what they were. Then the checks fail exactly on equal texts.
-/

namespace Catse.Myxml2

open SortedTable

/-! ## Pointers and texts -/

/-- A pointer to a given text. -/
def Points (s : Intern) (t : List UInt8) (p : StrPtr) : Prop := s.Valid p ∧ s.textOf p = t

theorem Points.extend {s s' : Intern} {t : List UInt8} {p : StrPtr} (h : Points s t p)
    (he : s.Extends s') :
    Points s' t p := by
  obtain ⟨hv, ht⟩ := he p h.1
  exact ⟨hv, ht.trans h.2⟩

/-- The text of a shared string, with the one of `pointer` out of bounds. -/
def sharedText (texts : List (List UInt8)) (k : ℕ) : List UInt8 := texts.getD k VarType.number.text

/-- The table is well formed and the shared strings have their texts. -/
structure Ready (vs : List StrPtr) (texts : List (List UInt8)) (s : Intern) : Prop where
  wf : s.WF
  points : List.Forall₂ (Points s) texts vs

theorem Ready.extend {vs : List StrPtr} {texts : List (List UInt8)} {s s' : Intern}
    (h : Ready vs texts s) (hwf : s'.WF) (he : s.Extends s') : Ready vs texts s' :=
  ⟨hwf, h.points.imp fun _ _ hp => hp.extend he⟩

/-- The pointer of a shared string points to its text. -/
theorem Ready.pointer {vs : List StrPtr} {texts : List (List UInt8)} {s : Intern}
    (h : Ready vs texts s) (k : ℕ) :
    Points s (sharedText texts k) (pointer vs k) := by
  have hpoints := h.points
  clear h
  induction hpoints generalizing k with
  | nil => exact ⟨trivial, rfl⟩
  | cons hp _ ih =>
    cases k with
    | zero => exact hp
    | succ k => exact ih k

theorem Ready.present {vs : List StrPtr} {texts : List (List UInt8)} {s : Intern}
    (h : Ready vs texts s) :
    present vs s = sharedText texts :=
  funext fun k => (h.pointer k).2

/-- What `getStr` does in a table that is ready. -/
theorem getStr_ready {vs : List StrPtr} {texts : List (List UInt8)} {str : List UInt8}
    {s s' : Intern} {p : StrPtr} (h : Ready vs texts s) (hr : getStr str s = .ok (p, s')) :
    Ready vs texts s' ∧ s.Extends s' ∧ Points s' str p := by
  obtain ⟨hwf, he, hv, ht⟩ := getStr_spec h.wf hr
  exact ⟨h.extend hwf he, he, hv, ht⟩

/-- Pointers are repeated where texts are. -/
theorem nodup_iff {s : Intern} (hwf : s.WF) {ts : List (List UInt8)} {ps : List StrPtr}
    (h : List.Forall₂ (Points s) ts ps) : ps.Nodup ↔ ts.Nodup := by
  induction h with
  | nil => exact ⟨fun _ => List.nodup_nil, fun _ => List.nodup_nil⟩
  | @cons t p ts ps hp hps ih =>
    have hmem : p ∈ ps ↔ t ∈ ts := by
      clear ih
      induction hps with
      | nil => exact ⟨fun h => absurd h List.not_mem_nil, fun h => absurd h List.not_mem_nil⟩
      | @cons u q ts ps hq _ ih =>
        have heq : p = q ↔ t = u :=
          ⟨fun h => by rw [← hp.2, ← hq.2, h],
            fun h => hwf.textOf_injective hp.1 hq.1 (by rw [hp.2, hq.2, h])⟩
        rw [List.mem_cons, List.mem_cons, heq, ih]
    rw [List.nodup_cons, List.nodup_cons, hmem, ih]

/-! ## The checks -/

/-- Among sorted pointers the equal ones are neighbours. -/
theorem firstRepeat_eq_none_iff (a : Addresses) {l : List StrPtr}
    (h : l.Pairwise fun p q => a.addr p ≤ a.addr q) :
    firstRepeat l = none ↔ l.Nodup := by
  fun_induction firstRepeat l with
  | case1 p l =>
    have hdup : ¬(p :: p :: l).Nodup := fun hn => (List.nodup_cons.mp hn).1 List.mem_cons_self
    exact ⟨fun h => absurd h (by simp), fun hn => absurd hn hdup⟩
  | case2 p q l hne ih =>
    obtain ⟨hp, hl⟩ := List.pairwise_cons.mp h
    have hlt : a.addr p < a.addr q :=
      lt_of_le_of_ne (hp q List.mem_cons_self) fun heq => hne (a.injective heq)
    have hmem : p ∉ q :: l := by
      intro hmem
      rcases List.mem_cons.mp hmem with rfl | hmem
      · exact hne rfl
      · exact absurd ((List.pairwise_cons.mp hl).1 p hmem) (not_le.mpr hlt)
    rw [ih hl]
    exact ⟨fun hn => List.nodup_cons.mpr ⟨hmem, hn⟩, fun hn => (List.nodup_cons.mp hn).2⟩
  | case3 l hl =>
    refine ⟨fun _ => ?_, fun _ => rfl⟩
    match l, hl with
    | [], _ => exact List.nodup_nil
    | [p], _ => exact List.nodup_singleton p
    | p :: q :: l, hl => exact absurd rfl (hl p q l)

theorem pairwise_qsort (a : Addresses) (vc : List StrPtr) :
    (a.qsort vc).Pairwise fun p q => a.addr p ≤ a.addr q := by
  have htotal : Std.Total fun p q : StrPtr => a.addr p ≤ a.addr q := ⟨fun _ _ => le_total _ _⟩
  have htrans : IsTrans StrPtr fun p q => a.addr p ≤ a.addr q := ⟨fun _ _ _ => le_trans⟩
  exact List.pairwise_insertionSort _ vc

/-- A repetition shows after sorting. -/
theorem firstRepeat_qsort (a : Addresses) (vc : List StrPtr) :
    firstRepeat (a.qsort vc) = none ↔ vc.Nodup :=
  (firstRepeat_eq_none_iff a (pairwise_qsort a vc)).trans (List.perm_insertionSort _ vc).nodup_iff

/-! ## The conversion -/

/-- The type by which the cells of a column are converted, from the text of the type. -/
def convertedText (str : List UInt8) : Option VarType :=
  match VarType.fix.find? fun t => t.text = str with
  | some t => converted (.fix t)
  | none => none

/-- A pointer to a type is known by the text. -/
theorem converted_of_points {s : Intern} {str : List UInt8} {p : StrPtr} (hwf : s.WF)
    (hp : Points s str p) :
    converted p = convertedText str := by
  unfold convertedText
  cases hfix : VarType.fix.find? fun t => t.text = str with
  | some t =>
    have ht : t.text = str := by simpa using List.find?_some hfix
    have heq : p = .fix t := hwf.textOf_injective hp.1 trivial (hp.2.trans ht.symm)
    rw [heq]
  | none =>
    cases p with
    | fix t =>
      have hnone := List.find?_eq_none.mp hfix t t.mem_fix
      exact absurd (decide_eq_true hp.2) hnone
    | buf p => rfl

/-- The conversion of a cell leaves the shared strings as they are. -/
def CleanCell (texts : List (List UInt8)) (t : Option VarType) (c : Option Raw) : Prop :=
  match t, c with
  | some t, some (.shared k) =>
    ∀ r, convert t (sharedText texts k) = .ok r → r.1 = sharedText texts k
  | _, _ => True

instance (texts : List (List UInt8)) (t : Option VarType) (c : Option Raw) :
    Decidable (CleanCell texts t c) :=
  match t, c with
  | some t, some (.shared k) =>
    match h : convert t (sharedText texts k) with
    | .ok r => decidable_of_iff (r.1 = sharedText texts k)
        ⟨fun hr r' hr' => by cases h.symm.trans hr'; exact hr, fun hr => hr r h⟩
    | .error e => isTrue fun r' hr' => by cases h.symm.trans hr'
  | none, _ => isTrue trivial
  | some _, none => isTrue trivial
  | some _, some (.inline _) => isTrue trivial

/-- A write of what is there. -/
theorem write_self (s : Intern) (p : ℕ) : s.write p (s.text p) = s := by
  rw [Intern.write, Function.update_eq_self]

variable {vs : List StrPtr} {texts : List (List UInt8)}

/-- The conversion of a clean cell. -/
theorem convertCell_spec {t : StrPtr} {c : Option Raw} {s s' : Intern} {p : StrPtr}
    (h : Ready vs texts s)
    (hclean : CleanCell texts (converted t) c) (hr : convertCell vs t c s = .ok (p, s')) :
    Ready vs texts s' ∧ s.Extends s' := by
  have hget : ∀ {str}, getStr str s = .ok (p, s') → Ready vs texts s' ∧ s.Extends s' := fun hr =>
    let ⟨hready, he, _⟩ := getStr_ready h hr
    ⟨hready, he⟩
  unfold convertCell at hr
  cases hconv : converted t with
  | none =>
    rw [hconv] at hr
    exact hget hr
  | some t =>
    rw [hconv] at hr hclean
    cases c with
    | none =>
      obtain ⟨r, -, hr⟩ := ok_of_bind hr
      exact hget hr
    | some raw =>
      cases raw with
      | inline text =>
        obtain ⟨r, -, hr⟩ := ok_of_bind hr
        exact hget hr
      | shared k =>
        have htext := (h.pointer k).2
        dsimp only at hr
        cases hptr : pointer vs k with
        | fix u =>
          rw [hptr] at hr
          cases hr
        | buf q =>
          rw [hptr] at hr htext
          obtain ⟨r, hconvert, hr⟩ := ok_of_bind hr
          -- What is written is what was there.
          have hsame : r.1 = s.text q := by
            have hq : s.text q = sharedText texts k := htext
            rw [hq] at hconvert ⊢
            exact hclean r hconvert
          rw [hsame, write_self] at hr
          exact hget hr

/-- What holds of the elements of a loop that counts from `a` up, by their numbers. -/
theorem forall₂_upFrom {β : Type} {Q : ℕ → β → Prop} {a b : ℕ} {ps : List β}
    (h : List.Forall₂ Q (upFrom a b) ps) (d : β) {j : ℕ} (hj : j ∈ upFrom a b) :
    Q j (ps.getD (j - a) d) := by
  obtain ⟨haj, hjb⟩ := mem_upFrom.mp hj
  have hlen : (upFrom a b).length = ps.length := h.length_eq
  rw [upFrom, List.length_range'] at hlen
  have hget := (List.forall₂_iff_get.mp h).2 (j - a) (by rw [upFrom, List.length_range']; omega)
    (by omega)
  have hleft : (upFrom a b).get ⟨j - a, by rw [upFrom, List.length_range']; omega⟩ = j := by
    simp only [upFrom, List.get_eq_getElem, List.getElem_range', one_mul]
    omega
  rw [hleft] at hget
  rw [List.getD_eq_getElem?_getD, List.getElem?_eq_getElem (by omega)]
  exact hget

/-- A row of the header is interned. -/
theorem internRow_spec {m : ℕ} {row : RawRow} {s s' : Intern} {ps : List StrPtr}
    (h : Ready vs texts s) (hr : internRow vs m row s = .ok (ps, s')) :
    Ready vs texts s' ∧ s.Extends s' ∧
      ∀ j < m, Points s' (cellText (sharedText texts) (row j)) (ps.getD j (.fix .number)) := by
  obtain ⟨hready, he, hpoints⟩ := mapState_spec (P := Ready vs texts) (E := Intern.Extends)
    (Q := fun s j p => Points s (cellText (sharedText texts) (row j)) p)
    Intern.Extends.refl Intern.Extends.trans (fun he hp => hp.extend he)
    (fun j _ s p s' hs hr => by rw [hs.present] at hr; exact getStr_ready hs hr) h hr
  exact ⟨hready, he, fun j hj =>
    forall₂_upFrom hpoints (.fix .number) (mem_upFrom.mpr ⟨Nat.zero_le j, hj⟩)⟩

/-- The cells of a row that is kept are clean. -/
def CleanRow (texts : List (List UInt8)) (m : ℕ) (type row : RawRow) : Prop :=
  ∀ j ∈ upFrom 1 m, CleanCell texts (convertedText (cellText (sharedText texts) (type j))) (row j)

instance (texts : List (List UInt8)) (m : ℕ) (type row : RawRow) :
    Decidable (CleanRow texts m type row) :=
  inferInstanceAs (Decidable (∀ j ∈ upFrom 1 m, _))

/-- What the loop over the rows keeps: the types are interned. -/
structure Typed (vs type : List StrPtr) (texts : List (List UInt8)) (m : ℕ) (row : RawRow)
    (s : Intern) : Prop where
  ready : Ready vs texts s
  points : ∀ j < m, Points s (cellText (sharedText texts) (row j)) (type.getD j (.fix .number))

theorem Typed.extend {type : List StrPtr} {m : ℕ} {row : RawRow} {s s' : Intern}
    (h : Typed vs type texts m row s)
    (hready : Ready vs texts s') (he : s.Extends s') : Typed vs type texts m row s' :=
  ⟨hready, fun j hj => (h.points j hj).extend he⟩

/-- A clean row is converted: its ID is interned, and the strings before it stay. -/
theorem convertRow_spec {type : List StrPtr} {m : ℕ} {typeRow row : RawRow} {s s' : Intern}
    {ps : List StrPtr} (h : Typed vs type texts m typeRow s) (hclean : CleanRow texts m typeRow row)
    (hr : convertRow vs type m row s = .ok (ps, s')) :
    Typed vs type texts m typeRow s' ∧ s.Extends s' ∧
      Points s' (cellText (sharedText texts) (row 0)) (ps.getD 0 (.fix .number)) := by
  unfold convertRow at hr
  rw [h.ready.present] at hr
  obtain ⟨⟨id, s₁⟩, hid, hr⟩ := ok_of_bind hr
  obtain ⟨⟨cells, s₂⟩, hcells, hr⟩ := ok_of_bind hr
  cases hr
  obtain ⟨hready₁, he₁, hpoint⟩ := getStr_ready h.ready hid
  have htyped₁ := h.extend hready₁ he₁
  have hcell : ∀ j ∈ upFrom 1 m, ∀ s p s', Typed vs type texts m typeRow s →
      convertCell vs (type.getD j (.fix .number)) (row j) s = .ok (p, s') →
        Typed vs type texts m typeRow s' ∧ s.Extends s' ∧ True := by
    intro j hj s p s' hs hconv
    have hm := (mem_upFrom.mp hj).2
    have hc := hclean j hj
    rw [← converted_of_points hs.ready.wf (hs.points j hm)] at hc
    obtain ⟨hready, he⟩ := convertCell_spec hs.ready hc hconv
    exact ⟨hs.extend hready he, he, trivial⟩
  obtain ⟨htyped, he, -⟩ :=
    mapState_spec (Q := fun _ _ _ => True) Intern.Extends.refl Intern.Extends.trans
    (fun _ _ => trivial) hcell htyped₁ hcells
  exact ⟨htyped, he₁.trans he, hpoint.extend he⟩

/-! ## A sheet -/

/-- The rows and columns that `getVvs` keeps, from the texts of the shared strings. -/
def sheetGrid (texts : List (List UInt8)) (vd : List Dot) : Option Grid :=
  match gather texts.length vd with
  | .ok g => some (g.grid (sharedText texts))
  | .error _ => none

/-- The texts in the first column of the rows that are kept. -/
def Grid.idTexts (texts : List (List UInt8)) (grid : Grid) : List (List UInt8) :=
  grid.data.map fun row => cellText (sharedText texts) (row 0)

/-- The names of the columns that are kept. -/
def Grid.nameTexts (texts : List (List UInt8)) (grid : Grid) : List (List UInt8) :=
  (upFrom 1 grid.m).map fun j => cellText (sharedText texts) (grid.name j)

/-- The conversion of the sheet leaves the shared strings as they are. -/
def Clean (texts : List (List UInt8)) (vd : List Dot) : Prop :=
  ∀ grid, sheetGrid texts vd = some grid → ∀ row ∈ grid.data, CleanRow texts grid.m grid.type row

instance (texts : List (List UInt8)) (vd : List Dot) : Decidable (Clean texts vd) :=
  match h : sheetGrid texts vd with
  | some grid => decidable_of_iff (∀ row ∈ grid.data, CleanRow texts grid.m grid.type row)
      ⟨fun hc grid' hg => by cases h.symm.trans hg; exact hc, fun hc => hc grid h⟩
  | none => isTrue fun grid hg => by cases h.symm.trans hg

theorem ids_ofRows (m : ℕ) (type name : List StrPtr) (rows : List (List StrPtr)) :
    (Sheet.ofRows m (type :: name :: rows)).ids = rows.map fun r => r.getD 0 (.fix .number) := by
  apply List.ext_getElem
  · simp [Sheet.ids, Sheet.ofRows, upFrom]
  · intro i hi hi'
    rw [List.length_map] at hi'
    have hcons : (type :: name :: rows).getD (2 + i) [] = rows[i] := by
      rw [Nat.add_comm, List.getD_cons_succ, List.getD_cons_succ, List.getD_eq_getElem?_getD,
        List.getElem?_eq_getElem hi']
      rfl
    simp only [Sheet.ids, Sheet.ofRows, upFrom, List.getElem_map, List.getElem_range',
      one_mul, hcons]

/-- A clean sheet is converted: its IDs and its names are interned, and the strings before it
stay. -/
theorem convertSheet_spec {vd : List Dot} {s s' : Intern} {sheet : Sheet} (h : Ready vs texts s)
    (hclean : Clean texts vd) (hr : convertSheet vs vd s = .ok (sheet, s')) :
    ∃ grid, sheetGrid texts vd = some grid ∧ Ready vs texts s' ∧ s.Extends s' ∧
      List.Forall₂ (Points s') (grid.idTexts texts) sheet.ids ∧
        List.Forall₂ (Points s') (grid.nameTexts texts) sheet.names := by
  obtain ⟨g, type, s₁, name, s₂, rows, hg, -, htype, hname, hconvert, rfl⟩ := convertSheet_cases hr
  rw [h.present] at htype hname hconvert ⊢
  rw [← h.points.length_eq] at hg
  have hgrid : sheetGrid texts vd = some (g.grid (sharedText texts)) := by rw [sheetGrid, hg]
  have hcleanRow := hclean _ hgrid
  generalize g.grid (sharedText texts) = grid at *
  -- The two header rows are interned as they are, and the cells of the others by their type.
  obtain ⟨hready₁, he₁, hpoints₁⟩ := internRow_spec h htype
  obtain ⟨hready₂, he₂, hpoints₂⟩ := internRow_spec hready₁ hname
  have htyped : Typed vs type texts grid.m grid.type s₂ :=
    ⟨hready₂, fun j hj => (hpoints₁ j hj).extend he₂⟩
  obtain ⟨htyped', he₃, hids⟩ :=
    mapState_spec (P := Typed vs type texts grid.m grid.type) (E := Intern.Extends)
    (Q := fun s (row : RawRow) (ps : List StrPtr) =>
      Points s (cellText (sharedText texts) (row 0)) (ps.getD 0 (.fix .number)))
    Intern.Extends.refl Intern.Extends.trans (fun he hp => hp.extend he)
    (fun row hrow s ps s' hs hr => convertRow_spec hs (hcleanRow row hrow) hr) htyped hconvert
  refine ⟨grid, hgrid, htyped'.ready, (he₁.trans he₂).trans he₃, ?_, ?_⟩
  · rw [ids_ofRows, Grid.idTexts, List.forall₂_map_left_iff, List.forall₂_map_right_iff]
    exact hids
  · rw [Grid.nameTexts, Sheet.names, List.forall₂_map_left_iff, List.forall₂_map_right_iff]
    change List.Forall₂ _ (upFrom 1 grid.m) (upFrom 1 grid.m)
    rw [List.forall₂_same]
    intro j hj
    exact (hpoints₂ j (mem_upFrom.mp hj).2).extend he₃

/-- When nothing stops `getVvs` before the checks, it stops at the first check when two texts in the
first column are equal, and at the second when two names are. -/
def Caught (a : Addresses) (vs : List StrPtr) (texts : List (List UInt8)) (vd : List Dot)
    (s : Memory) : Prop :=
  ∀ grid r, sheetGrid texts vd = some grid → convertSheet vs vd s.intern = .ok r →
    ((∃ id, getVvs a vs vd s = .error (.duplicateId id)) ↔ ¬(grid.idTexts texts).Nodup) ∧
      ((∃ name, getVvs a vs vd s = .error (.duplicateName name)) ↔
        (grid.idTexts texts).Nodup ∧ ¬(grid.nameTexts texts).Nodup)

/-- The checks of a clean sheet. -/
theorem caught_of_clean (a : Addresses) {vd : List Dot} {s : Memory} (h : Ready vs texts s.intern)
    (hclean : Clean texts vd) : Caught a vs texts vd s := by
  rintro grid ⟨sheet, s'⟩ hgrid hconvert
  obtain ⟨grid', hgrid', hready, -, hids, hnames⟩ := convertSheet_spec h hclean hconvert
  cases hgrid.symm.trans hgrid'
  have hid : firstRepeat (a.qsort sheet.ids) = none ↔ (grid.idTexts texts).Nodup :=
    (firstRepeat_qsort a sheet.ids).trans (nodup_iff hready.wf hids)
  have hname : firstRepeat (a.qsort sheet.names) = none ↔ (grid.nameTexts texts).Nodup :=
    (firstRepeat_qsort a sheet.names).trans (nodup_iff hready.wf hnames)
  rw [getVvs, hconvert, ← hid, ← hname]
  simp only [bind, Except.bind]
  cases firstRepeat (a.qsort sheet.ids) with
  | some p => simp
  | none =>
    cases firstRepeat (a.qsort sheet.names) with
    | some p => simp
    | none =>
      dsimp only
      split_ifs
      · simp
      · simp

/-! ## All sheets -/

/-- The names of the sheets. -/
def sheetNames (vd : List Dot) : List (List UInt8) :=
  (vd.filter fun d => d.name = .sheet).map fun d => d.vkv.headD []

/-- The texts of the shared strings, with the current one. -/
def sharedTexts (buf : Option (List UInt8)) : List Dot → List (List UInt8)
  | [] => buf.toList
  | d :: vd =>
    match d.name, buf with
    | .si, none => sharedTexts (some []) vd
    | .si, some str => str :: sharedTexts (some []) vd
    | .t, some str => sharedTexts (some (str ++ d.text)) vd
    | _, _ => sharedTexts buf vd

/-- The names are interned. -/
theorem getWorkbook_spec {vd : List Dot} {n : ℕ} {s s' : Intern} {names : List StrPtr} (h : s.WF)
    (hr : getWorkbook n s vd = .ok (names, s')) :
    s'.WF ∧ s.Extends s' ∧ List.Forall₂ (Points s') (sheetNames vd) names := by
  induction vd generalizing n s names with
  | nil =>
    cases hr
    exact ⟨h, .refl _, List.Forall₂.nil⟩
  | cons d vd ih =>
    rw [getWorkbook] at hr
    by_cases hd : d.name = .sheet
    · rw [if_pos hd] at hr
      by_cases hcap : 512 ≤ n + 1
      · rw [if_pos hcap] at hr
        cases hr
      rw [if_neg hcap] at hr
      cases hvkv : d.vkv with
      | nil =>
        rw [hvkv] at hr
        cases hr
      | cons v vkv =>
        rw [hvkv] at hr
        obtain ⟨⟨p, s₁⟩, hv, hr⟩ := ok_of_bind hr
        obtain ⟨⟨ps, s₂⟩, hrest, hr⟩ := ok_of_bind hr
        cases hr
        obtain ⟨hwf₁, he₁, hvalid, htext⟩ := getStr_spec h hv
        obtain ⟨hwf₂, he₂, hpoints⟩ := ih hwf₁ hrest
        have hnames : sheetNames (d :: vd) = v :: sheetNames vd := by simp [sheetNames, hd, hvkv]
        rw [hnames]
        exact ⟨hwf₂, he₁.trans he₂, List.Forall₂.cons (Points.extend ⟨hvalid, htext⟩ he₂) hpoints⟩
    · rw [if_neg hd] at hr
      have hnames : sheetNames (d :: vd) = sheetNames vd := by simp [sheetNames, hd]
      rw [hnames]
      exact ih h hr

/-- The shared strings are interned. -/
theorem getSharedStrings_spec {vd : List Dot} {n : ℕ} {buf : Option (List UInt8)} {s s' : Intern}
    {vs : List StrPtr} (h : s.WF) (hr : getSharedStrings n buf s vd = .ok (vs, s')) :
    s'.WF ∧ s.Extends s' ∧ List.Forall₂ (Points s') (sharedTexts buf vd) vs := by
  induction vd generalizing n buf s vs with
  | nil =>
    cases buf with
    | none =>
      cases hr
      exact ⟨h, .refl _, List.Forall₂.nil⟩
    | some str =>
      -- The string that is begun ends with the input.
      obtain ⟨⟨p, s₁⟩, hp, hr⟩ := ok_of_bind hr
      cases hr
      obtain ⟨hwf, he, hvalid, htext⟩ := getStr_spec h hp
      exact ⟨hwf, he, List.Forall₂.cons ⟨hvalid, htext⟩ List.Forall₂.nil⟩
  | cons d vd ih =>
    obtain ⟨name, text, vkv⟩ := d
    cases name with
    | si =>
      cases buf with
      | none =>
        change (if 65536 ≤ n then .error .sharedStrings
          else getSharedStrings (n + 1) (some []) s vd) = _ at hr
        split_ifs at hr
        exact ih h hr
      | some str =>
        -- A string begins, and the one before it is interned.
        by_cases hcap : 65536 ≤ n
        · change (if 65536 ≤ n then Except.error Fail.sharedStrings else _) = _ at hr
          rw [if_pos hcap] at hr
          cases hr
        change (if 65536 ≤ n then Except.error Fail.sharedStrings else _) = _ at hr
        rw [if_neg hcap] at hr
        obtain ⟨⟨p, s₁⟩, hp, hr⟩ := ok_of_bind hr
        obtain ⟨⟨ps, s₂⟩, hrest, hr⟩ := ok_of_bind hr
        cases hr
        obtain ⟨hwf₁, he₁, hvalid, htext⟩ := getStr_spec h hp
        obtain ⟨hwf₂, he₂, hpoints⟩ := ih hwf₁ hrest
        exact ⟨hwf₂, he₁.trans he₂, List.Forall₂.cons (Points.extend ⟨hvalid, htext⟩ he₂) hpoints⟩
    | t =>
      cases buf with
      | none => cases hr
      | some str =>
        change (if 65536 ≤ str.length + text.length then .error .stringLength
          else getSharedStrings n (some (str ++ text)) s vd) = _ at hr
        split_ifs at hr
        exact ih h hr
    | sheet => cases buf <;> exact ih h hr
    | c => cases buf <;> exact ih h hr
    | v => cases buf <;> exact ih h hr

/-- What the loop over the sheets keeps: the shared strings and the names are what they were. -/
structure Reading (w : Workbook) (names vs : List StrPtr) (s : Memory) : Prop where
  ready : Ready vs (sharedTexts none w.sharedStrings) s.intern
  names : List.Forall₂ (Points s.intern) (sheetNames w.workbook) names

/-- Every sheet before the `k`-th, and that one, is clean or skipped. -/
def CleanUpTo (w : Workbook) (k : ℕ) : Prop :=
  ∀ i ≤ k, hasChinese ((sheetNames w.workbook).getD i []) = false →
    Clean (sharedTexts none w.sharedStrings) (w.worksheet i)

instance (w : Workbook) (k : ℕ) : Decidable (CleanUpTo w k) :=
  decidable_of_iff (∀ i < k + 1, hasChinese ((sheetNames w.workbook).getD i []) = false →
    Clean (sharedTexts none w.sharedStrings) (w.worksheet i))
      (by simp only [Nat.lt_succ_iff]; exact Iff.rfl)

theorem start_spec {w : Workbook} {names vs : List StrPtr} {s : Memory}
    (h : start w = .ok (names, vs, s)) :
    Reading w names vs s := by
  unfold start at h
  obtain ⟨⟨ns, s₁⟩, hnames, h⟩ := ok_of_bind h
  obtain ⟨⟨ps, s₂⟩, hshared, h⟩ := ok_of_bind h
  cases h
  obtain ⟨hwf₁, -, hpoints₁⟩ := getWorkbook_spec Intern.wf_init hnames
  obtain ⟨hwf₂, he₂, hpoints₂⟩ := getSharedStrings_spec hwf₁ hshared
  exact ⟨⟨hwf₂, hpoints₂⟩, hpoints₁.imp fun _ _ hp => hp.extend he₂⟩

/-- The name of a sheet is what it was. -/
theorem Reading.points {w : Workbook} {names vs : List StrPtr} {s : Memory}
    (h : Reading w names vs s) {i : ℕ} {p : StrPtr} (hp : names[i]? = some p) :
    Points s.intern ((sheetNames w.workbook).getD i []) p := by
  obtain ⟨hi, rfl⟩ := List.getElem?_eq_some_iff.mp hp
  have hlen := h.names.length_eq
  have hpoint := (List.forall₂_iff_get.mp h.names).2 i (by omega) hi
  rw [List.getD_eq_getElem?_getD, List.getElem?_eq_getElem (by omega)]
  exact hpoint

/-- The rounds of the loop over the sheets. -/
theorem mem_rounds {names : List StrPtr} {k i : ℕ} {p : StrPtr} :
    (p, i) ∈ names.zipIdx.take k ↔ i < k ∧ names[i]? = some p := by
  rw [List.mem_take_iff_getElem]
  constructor
  · rintro ⟨j, hj, hx⟩
    rw [List.length_zipIdx] at hj
    rw [List.getElem_zipIdx, Prod.mk.injEq, Nat.zero_add] at hx
    obtain ⟨rfl, rfl⟩ := hx
    exact ⟨by omega, List.getElem?_eq_getElem (by omega)⟩
  · rintro ⟨hik, hp⟩
    obtain ⟨hi, rfl⟩ := List.getElem?_eq_some_iff.mp hp
    refine ⟨i, by rw [List.length_zipIdx]; omega, ?_⟩
    rw [List.getElem_zipIdx, Nat.zero_add]

/-- What a round keeps. -/
theorem readSheet_spec {a : Addresses} {w : Workbook} {names vs : List StrPtr} {i : ℕ} {p : StrPtr}
    {s s' : Memory} {result : Option Sheet} (h : Reading w names vs s) (hp : names[i]? = some p)
    (hclean : hasChinese ((sheetNames w.workbook).getD i []) = false →
      Clean (sharedTexts none w.sharedStrings) (w.worksheet i))
    (hr : readSheet a w vs (p, i) s = .ok (result, s')) : Reading w names vs s' := by
  unfold readSheet at hr
  rw [(h.points hp).2] at hr
  by_cases hname : hasChinese ((sheetNames w.workbook).getD i []) = true
  · rw [if_pos hname] at hr
    cases hr
    exact h
  · rw [if_neg hname] at hr
    obtain ⟨⟨sheet, s₁⟩, hvvs, hr⟩ := ok_of_bind hr
    cases hr
    obtain ⟨-, -, hready, he, -⟩ := convertSheet_spec h.ready
      (hclean (Bool.eq_false_of_not_eq_true hname)) (convertSheet_of_getVvs hvvs)
    exact ⟨hready, h.names.imp fun _ _ hp => hp.extend he⟩

/-- What the loop over the sheets keeps. -/
theorem readSheets_spec {a : Addresses} {w : Workbook} {names vs : List StrPtr} {k : ℕ}
    {s s' : Memory}
    {results : List (Option Sheet)} (h : Reading w names vs s) (hclean : CleanUpTo w k)
    (hr : readSheets a w names vs k s = .ok (results, s')) : Reading w names vs s' := by
  have hround : ∀ x ∈ names.zipIdx.take k, ∀ s result s', Reading w names vs s →
      readSheet a w vs x s = .ok (result, s') → Reading w names vs s' ∧ True ∧ True := by
    rintro ⟨p, i⟩ hx s result s' hs hstep
    obtain ⟨hik, hp⟩ := mem_rounds.mp hx
    exact ⟨readSheet_spec hs hp (hclean i (by omega)) hstep, trivial, trivial⟩
  exact (mapState_spec (E := fun _ _ => True) (Q := fun _ _ _ => True)
    (fun _ => trivial) (fun _ _ => trivial) (fun _ _ => trivial) hround h hr).1

/-- In a run over clean sheets, the duplicates of every sheet that is reached are caught. -/
theorem duplicates_caught (a : Addresses) (w : Workbook) {names vs : List StrPtr} {k : ℕ}
    {s₀ s : Memory}
    {results : List (Option Sheet)} {p : StrPtr} (hstart : start w = .ok (names, vs, s₀))
    (hread : readSheets a w names vs k s₀ = .ok (results, s)) (hp : names[k]? = some p)
    (hname : hasChinese (s.intern.textOf p) = false) (hclean : CleanUpTo w k) :
    Caught a vs (sharedTexts none w.sharedStrings) (w.worksheet k) s := by
  have hreading := readSheets_spec (start_spec hstart) hclean hread
  rw [(hreading.points hp).2] at hname
  exact caught_of_clean a hreading.ready (hclean k le_rfl hname)

/-! ## A table cell that moves -/

/-- Literals that lie below `buf`. -/
def Addresses.below : Addresses where
  addr
    | .fix .number => -5
    | .fix .plain => -4
    | .fix .string => -3
    | .fix .table => -2
    | .fix .tbstr => -1
    | .buf p => p
  injective := by
    rintro (t | p) (u | q) h
    · cases t <;> cases u <;> first | rfl | exact absurd h (by decide)
    · have hq : (0 : ℤ) ≤ q := Int.natCast_nonneg q
      cases t <;> dsimp only at h <;> omega
    · have hp : (0 : ℤ) ≤ p := Int.natCast_nonneg p
      cases u <;> dsimp only at h <;> omega
    · exact congrArg StrPtr.buf (Int.natCast_inj.mp h)

/-- The elements of a cell that has a shared string. -/
def sharedCell (r : String) (k : String) :
    List Dot := [⟨.c, [], [bytes r, bytes "s"]⟩, ⟨.v, bytes k, []⟩]

/-- What `getVvs` makes of the first sheet of a workbook, with the shared strings and the memory
before and after. -/
def firstVvs (w : Workbook) : Option (List StrPtr × Memory × Sheet × Memory) :=
  match start w with
  | .error _ => none
  | .ok (_, vs, s) =>
    match getVvs Addresses.below vs (w.worksheet 0) s with
    | .error _ => none
    | .ok (sheet, s') => some (vs, s, sheet, s')

theorem firstVvs_spec {w : Workbook} {vs : List StrPtr} {s s' : Memory} {sheet : Sheet}
    (h : firstVvs w = some (vs, s, sheet, s')) :
    (∃ names, start w = .ok (names, vs, s)) ∧
      getVvs Addresses.below vs (w.worksheet 0) s = .ok (sheet, s') := by
  unfold firstVvs at h
  cases hstart : start w with
  | error e =>
    rw [hstart] at h
    cases h
  | ok r =>
    obtain ⟨names, vs₁, s₁⟩ := r
    rw [hstart] at h
    dsimp only at h
    cases hvvs : getVvs Addresses.below vs₁ (w.worksheet 0) s₁ with
    | error e =>
      rw [hvvs] at h
      cases h
    | ok r =>
      rw [hvvs] at h
      cases h
      exact ⟨⟨names, rfl⟩, hvvs⟩

/-- A workbook of one sheet, whose two data rows have the ID `b`, and a table cell with the given
text in the first. -/
def repeated (cell : String) : Workbook where
  workbook := [⟨.sheet, [], [bytes "s"]⟩]
  sharedStrings := ["b", cell, "id", "x", "table"].flatMap fun s =>
    [⟨.si, [], []⟩, ⟨.t, bytes s, []⟩]
  worksheet := fun _ =>
    sharedCell "A1" "2" ++ sharedCell "B1" "4" ++ sharedCell "A2" "2" ++ sharedCell "B2" "3" ++
    sharedCell "A3" "2" ++ sharedCell "A4" "0" ++ sharedCell "B4" "1" ++ sharedCell "A5" "0" ++
      sharedCell "B5" "3"

/-- Without a blank to remove, the repeated ID is caught. -/
theorem duplicates_caught_repeated :
    ∃ names vs s, start (repeated "z") = .ok (names, vs, s) ∧
      Caught Addresses.below vs (sharedTexts none (repeated "z").sharedStrings)
      ((repeated "z").worksheet 0) s := by
  have hok : (match start (repeated "z") with
      | .ok (names, _, s) => names[0]?.any fun p => !hasChinese (s.intern.textOf p)
      | .error _ => false) = true := by
    decide +kernel
  cases hstart : start (repeated "z") with
  | error e =>
    rw [hstart] at hok
    cases hok
  | ok r =>
    obtain ⟨names, vs, s⟩ := r
    rw [hstart] at hok
    dsimp only at hok
    cases hp : names[0]? with
    | none =>
      rw [hp] at hok
      cases hok
    | some p =>
      rw [hp] at hok
      have hname : hasChinese (s.intern.textOf p) = false := by simpa using hok
      exact ⟨names, vs, s, rfl,
        duplicates_caught Addresses.below (repeated "z") (k := 0) hstart rfl hp hname
          (by decide +kernel)⟩

/-- The blank that is removed from the table cell puts its string out of order, so that the search
for the ID of the second row misses it. -/
theorem repeated_id_missed :
    ∃ names vs s, start (repeated " z") = .ok (names, vs, s) ∧
      ¬Caught Addresses.below vs (sharedTexts none (repeated " z").sharedStrings)
      ((repeated " z").worksheet 0) s := by
  have haccepted : (firstVvs (repeated " z")).isSome = true := by decide +kernel
  have hrepeated : ((sheetGrid (sharedTexts none (repeated " z").sharedStrings)
      ((repeated " z").worksheet 0)).any fun grid =>
        ¬(grid.idTexts (sharedTexts none (repeated " z").sharedStrings)).Nodup) = true := by
    decide +kernel
  obtain ⟨⟨vs, s, sheet, s'⟩, hfirst⟩ := Option.isSome_iff_exists.mp haccepted
  obtain ⟨⟨names, hstart⟩, hvvs⟩ := firstVvs_spec hfirst
  obtain ⟨grid, hgrid, hdup⟩ := (Option.any_eq_true _ _).mp hrepeated
  refine ⟨names, vs, s, hstart, fun hcaught => ?_⟩
  -- The text is there twice, but no error is raised.
  obtain ⟨id, hid⟩ := (hcaught grid _ hgrid (convertSheet_of_getVvs hvvs)).1.mpr
    (of_decide_eq_true hdup)
  rw [hvvs] at hid
  cases hid

end Catse.Myxml2
