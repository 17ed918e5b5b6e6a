import Catse.Lib.Comparators
import Catse.Lib.Loops
import Catse.Lib.SortedArray
import Catse.Myxml2.ShareTables

/-!
# `binInsert` and `bsearch`

The tables of `main` of `myxml2` are arrays. `binInsert` inserts a target or counts it, the filter
moves the entries with large counts to the front, the definitions are written in the order of the
array, and `bsearch` finds the place of a target in it. The result for any comparator of a total
order is `binInsert_bsearch`. `Share` has the tables as lists. The arrays of `main` hold these
tables (`shareArrays_eq`), and the same is found in both (`find_shareArrays`).
-/

namespace Catse.Myxml2

open SortedTable SortedArray

/-- An array of `main` with its length. An entry is a target with its `cnt`. -/
structure ShareArray (α : Type) where
  share : ℕ → α × ℕ
  shareLen : ℕ

/-- Where `binInsert` ends the program, and where a count overflows. -/
inductive InsertFail where
  | full
  | overflow
  deriving DecidableEq

namespace ShareArray

variable {α D : Type}

/-- The largest `int`. -/
def intMax : ℕ := 0x7fffffff

/-- The entries in order. -/
def entries (s : ShareArray α) : List (α × ℕ) := elements s.share s.shareLen

/-- `++share[c].cnt` at the place of a hit. -/
def countHit (s : ShareArray α) : Option ℕ → Except InsertFail (ShareArray α)
  | none => .ok s
  | some c =>
    if intMax ≤ (s.share c).2 then .error .overflow
    else .ok { s with
      share := Function.update s.share c ((s.share c).1, (s.share c).2 + 1) }

/-- The array with a target inserted at the place `a`. -/
def insertAt (s : ShareArray α) (a : ℕ) (target : α) : ShareArray α where
  share := Function.update (moveUp s.share a s.shareLen) a (target, 1)
  shareLen := s.shareLen + 1

/-- `binInsert`, for an array of `cap` entries. -/
def binInsert (cap : ℕ) (cmp : α → α → ℤ) (target : α) (s : ShareArray α) :
    Except InsertFail (ShareArray α) := do
  let r := bisect (fun c => cmp target (s.share c).1) 0 (s.shareLen - 1)
  let s ← s.countHit r.hit
  -- The bounds have crossed if and only if the loop did not break.
  if r.b < r.a then
    if cap ≤ s.shareLen then .error .full else .ok (s.insertAt r.a.toNat target)
  else .ok s

/-- `binInsert` for one target after the other. -/
def insertAll (cap : ℕ) (cmp : α → α → ℤ) : List α → ShareArray α →
    Except InsertFail (ShareArray α)
  | [], s => .ok s
  | t :: ts, s => do
    let s ← s.binInsert cap cmp t
    insertAll cap cmp ts s

/-- The loop that keeps the entries whose count is above `top`. -/
def filter (top : ℕ) (s : ShareArray α) : ShareArray α where
  share := (sift (fun x => decide (top < x.2)) s.share s.shareLen).2
  shareLen := (sift (fun x => decide (top < x.2)) s.share s.shareLen).1

/-- The loop that writes the definitions, each with its index in the output. -/
def definitions (define : α → D) (s : ShareArray α) : List (ℕ × D) :=
  (List.range s.shareLen).map fun i => (i + 1, define (s.share i).1)

/-- What a reference to the entry at the place `c` has for an index. -/
def reference (c : ℕ) : ℕ := c + 1

/-! ## One insertion -/

variable {cap : ℕ} {cmp : α → α → ℤ} {s : ShareArray α} {t : α}

@[simp] theorem length_entries (s : ShareArray α) : s.entries.length = s.shareLen :=
  length_elements s.share s.shareLen

/-- A target that is found counts. -/
theorem binInsert_found {c : ℕ} (h : lookup (fun x => cmp t x.1) s.entries = .found c) :
    s.binInsert cap cmp t = s.countHit (some c) := by
  obtain ⟨a, b, hr, hab⟩ := bisect_of_found h
  unfold binInsert
  rw [hr]
  dsimp only
  cases s.countHit (some c) with
  | error e => rfl
  | ok s' => exact if_neg (not_lt.mpr hab)

/-- A target that is not found is inserted. -/
theorem binInsert_absent {a : ℕ} (h : lookup (fun x => cmp t x.1) s.entries = .absent a) :
    s.binInsert cap cmp t = if cap ≤ s.shareLen then .error .full else .ok (s.insertAt a t) := by
  obtain ⟨hr, -⟩ := bisect_of_absent h
  unfold binInsert
  rw [hr]
  have hlt : (a : ℤ) - 1 < a := by omega
  exact if_pos hlt

/-- What an insertion does: it is one into the list of the entries, or the array is full, or a count
is the largest one. -/
theorem binInsert_cases (cap : ℕ) (cmp : α → α → ℤ) (s : ShareArray α) (t : α) :
    (s.binInsert cap cmp t = .error .full ∧ cap ≤ s.shareLen ∧
        ∃ a, lookup (fun x => cmp t x.1) s.entries = .absent a) ∨
      (s.binInsert cap cmp t = .error .overflow ∧
        ∃ x ∈ s.entries, cmp t x.1 = 0 ∧ intMax ≤ x.2) ∨
      ∃ s', s.binInsert cap cmp t = .ok s' ∧ s'.entries = countInsert cmp s.entries t := by
  unfold countInsert
  cases hl : lookup (fun x => cmp t x.1) s.entries with
  | found c =>
    obtain ⟨hc, h0⟩ := lookup_found hl
    rw [length_entries] at hc
    rw [binInsert_found hl, countHit]
    simp only [entries, getElem_elements] at h0
    by_cases hmax : intMax ≤ (s.share c).2
    · exact .inr (.inl ⟨if_pos hmax, _, mem_elements.mpr ⟨c, hc, rfl⟩, h0, hmax⟩)
    · refine .inr (.inr ⟨_, if_neg hmax, ?_⟩)
      exact elements_update s.share s.shareLen c fun x => (x.1, x.2 + 1)
  | absent a =>
    obtain ⟨-, ha⟩ := bisect_of_absent hl
    rw [binInsert_absent hl]
    by_cases hfull : cap ≤ s.shareLen
    · exact .inl ⟨if_pos hfull, hfull, a, rfl⟩
    · exact .inr (.inr ⟨_, if_neg hfull, elements_insert s.share ha (t, 1)⟩)

/-! ## Sequences of targets -/

/-- What the array holds after a sequence of targets is what the list of `Share` holds. -/
theorem entries_insertAll {ts : List α} {s' : ShareArray α}
    (h : insertAll cap cmp ts s = .ok s') :
    s'.entries = ts.foldl (countInsert cmp) s.entries := by
  induction ts generalizing s with
  | nil =>
    cases h
    rfl
  | cons t ts ih =>
    obtain ⟨s₁, hs₁, h⟩ := ok_of_bind h
    rw [List.foldl_cons, ih h]
    obtain ⟨hfull, -⟩ | ⟨hover, -⟩ | ⟨s₂, hs₂, heq⟩ := binInsert_cases cap cmp s t
    · rw [hs₁] at hfull
      cases hfull
    · rw [hs₁] at hover
      cases hover
    · rw [hs₁] at hs₂
      cases hs₂
      rw [heq]

theorem insertAll_snoc (ts : List α) (t : α) (s : ShareArray α) :
    insertAll cap cmp (ts ++ [t]) s = insertAll cap cmp ts s >>= binInsert cap cmp t := by
  induction ts generalizing s with
  | nil =>
    show (s.binInsert cap cmp t >>= fun s => .ok s) = s.binInsert cap cmp t
    cases s.binInsert cap cmp t <;> rfl
  | cons u ts ih =>
    rw [List.cons_append, insertAll, insertAll]
    cases s.binInsert cap cmp u with
    | error e => rfl
    | ok s₁ => exact ih s₁

/-- Targets within the capacity of an array of `cap` entries, whose counts an `int` holds. -/
structure Fits (cap : ℕ) (cmp : α → α → ℤ) (ts : List α) : Prop where
  entries : (distinct cmp ts).length ≤ cap
  counts : ∀ t ∈ ts, occurrences cmp ts t ≤ intMax

section

variable {κ : Type} [LinearOrder κ] {key : α → κ}

/-- The first targets are within the capacity. -/
theorem Fits.of_append (hcmp : ∀ t, Compares (key t) key (cmp t)) {ts ts' : List α}
    (h : Fits cap cmp (ts ++ ts')) : Fits cap cmp ts where
  entries := (length_distinct_le hcmp ts ts').trans h.entries
  counts := by
    intro t ht
    have hcount := h.counts t (List.mem_append_left _ ht)
    rw [occurrences, List.countP_append] at hcount
    exact (Nat.le_add_right _ _).trans hcount

/-- Targets within the capacity are inserted. -/
theorem insertAll_of_fits (hcmp : ∀ t, Compares (key t) key (cmp t)) {ts : List α}
    (h : Fits cap cmp ts) (mem : ℕ → α × ℕ) :
    ∃ s, insertAll cap cmp ts ⟨mem, 0⟩ = .ok s ∧ s.entries = ts.foldl (countInsert cmp) [] := by
  induction ts using List.reverseRecOn with
  | nil => exact ⟨_, rfl, rfl⟩
  | append_singleton ts t ih =>
    obtain ⟨s, hs, hentries⟩ := ih (h.of_append hcmp)
    have hcounts : Counts key ts s.entries := hentries ▸ Counts.foldl hcmp ts
    have hlast : t ∈ ts ++ [t] := List.mem_append_right ts (List.mem_singleton_self t)
    obtain ⟨-, hfull, a, ha⟩ | ⟨-, x, hx, h0, hmax⟩ | ⟨s', hs', heq⟩ :=
      binInsert_cases cap cmp s t
    · -- A new entry would be one more than there are distinct targets.
      have hnext : Counts key (ts ++ [t]) (countInsert cmp s.entries t) := hcounts.insert hcmp t
      have hlen := hnext.length_eq hcmp
      have hle := h.entries
      rw [countInsert, ha] at hlen
      rw [← hlen, List.length_append, List.length_cons, ← Nat.add_assoc, ← List.length_append,
        List.take_append_drop, length_entries] at hle
      omega
    · -- The count of the entry is one less than how often the target occurs.
      have hcount := h.counts t hlast
      have hkey : key t = key x.1 := ((hcmp t).zero_iff x.1).mp h0
      rw [hcounts.count x hx, ← hkey] at hmax
      rw [occurrences_eq hcmp, countP_snoc, if_pos rfl] at hcount
      omega
    · refine ⟨s', ?_, ?_⟩
      · rw [insertAll_snoc, hs]
        exact hs'
      · rw [heq, hentries, List.foldl_append]
        rfl

/-- No count overflows while there are no more targets than the largest one. -/
theorem insertAll_ne_overflow (hcmp : ∀ t, Compares (key t) key (cmp t)) {ts : List α}
    (h : ts.length ≤ intMax) (mem : ℕ → α × ℕ) :
    insertAll cap cmp ts ⟨mem, 0⟩ ≠ .error .overflow := by
  induction ts using List.reverseRecOn with
  | nil => exact fun h => by cases h
  | append_singleton ts t ih =>
    rw [List.length_append, List.length_singleton] at h
    rw [insertAll_snoc]
    cases hs : insertAll cap cmp ts ⟨mem, 0⟩ with
    | error e => exact fun he => ih (by omega) (hs.trans he)
    | ok s =>
      show s.binInsert cap cmp t ≠ .error .overflow
      obtain ⟨hfull, -⟩ | ⟨-, x, hx, -, hmax⟩ | ⟨s', hs', -⟩ := binInsert_cases cap cmp s t
      · rw [hfull]
        exact fun he => by cases he
      · have hcounts : Counts key ts s.entries := by
          rw [entries_insertAll hs]
          exact Counts.foldl hcmp ts
        have hle : ts.countP (fun u => decide (key u = key x.1)) ≤ ts.length :=
          List.countP_le_length
        rw [← hcounts.count x hx] at hle
        omega
      · rw [hs']
        exact fun he => by cases he

/-! ## Order -/

/-- The entries are in strict order. -/
def Sorted (cmp : α → α → ℤ) (s : ShareArray α) : Prop :=
  ∀ i j, i < j → j < s.shareLen → cmp (s.share i).1 (s.share j).1 < 0

/-- What the array holds after the targets `ts`: one entry for each distinct one, in strict order,
with how often it occurs. -/
structure Tallies (cmp : α → α → ℤ) (ts : List α) (s : ShareArray α) : Prop where
  sorted : s.Sorted cmp
  entry : ∀ t ∈ ts, ∃! i, i < s.shareLen ∧ cmp t (s.share i).1 = 0
  target : ∀ i < s.shareLen, (s.share i).1 ∈ ts
  cnt : ∀ i < s.shareLen, (s.share i).2 = occurrences cmp ts (s.share i).1

/-- The place of a target: `bsearch(&target, share, shareLen, sizeof(target), cmp)`. -/
def find (bsearch : (α × ℕ → ℤ) → (ℕ → α × ℕ) → ℕ → Option ℕ) (cmp : α → α → ℤ) (t : α)
    (s : ShareArray α) : Option ℕ := bsearch (fun x => cmp t x.1) s.share s.shareLen

theorem mem_entries {x : α × ℕ} : x ∈ s.entries ↔ ∃ i < s.shareLen, s.share i = x := mem_elements

theorem sorted_iff (hcmp : ∀ t, Compares (key t) key (cmp t)) :
    s.Sorted cmp ↔ s.entries.Pairwise fun x y => key x.1 < key y.1 := by
  rw [entries, pairwise_elements]
  exact forall₄_congr fun i j _ _ => (hcmp _).neg_iff _

/-- Of two entries one is below the other, so that a target is equal to one of them at most. -/
theorem Sorted.place_unique (hcmp : ∀ t, Compares (key t) key (cmp t)) (h : s.Sorted cmp) {i j : ℕ}
    (hi : i < s.shareLen) (hj : j < s.shareLen) (hti : cmp t (s.share i).1 = 0)
    (htj : cmp t (s.share j).1 = 0) : i = j := by
  have hkey : key (s.share i).1 = key (s.share j).1 :=
    (((hcmp t).zero_iff _).mp hti).symm.trans (((hcmp t).zero_iff _).mp htj)
  rcases lt_trichotomy i j with hij | rfl | hij
  · exact absurd hkey (((hcmp _).neg_iff _).mp (h i j hij hj)).ne
  · rfl
  · exact absurd hkey (((hcmp _).neg_iff _).mp (h j i hij hi)).ne'

/-- The counts of the list are tallies of the array. -/
theorem tallies_of_counts (hcmp : ∀ t, Compares (key t) key (cmp t)) {ts : List α}
    (h : Counts key ts s.entries) : s.Tallies cmp ts where
  sorted := (sorted_iff hcmp).mpr h.sorted
  entry := by
    intro t ht
    obtain ⟨x, hx, hk⟩ := h.all t ht
    obtain ⟨i, hi, rfl⟩ := mem_entries.mp hx
    have h0 : cmp t (s.share i).1 = 0 := ((hcmp t).zero_iff _).mpr hk.symm
    have hsorted : s.Sorted cmp := (sorted_iff hcmp).mpr h.sorted
    exact ⟨i, ⟨hi, h0⟩, fun j ⟨hj, h0'⟩ => hsorted.place_unique hcmp hj hi h0' h0⟩
  target := fun i hi => h.mem _ (mem_entries.mpr ⟨i, hi, rfl⟩)
  cnt := by
    intro i hi
    rw [occurrences_eq hcmp]
    exact h.count _ (mem_entries.mpr ⟨i, hi, rfl⟩)

/-- Insertions leave the array in order. -/
theorem sorted_insertAll (hcmp : ∀ t, Compares (key t) key (cmp t)) {ts : List α}
    {mem : ℕ → α × ℕ} (h : insertAll cap cmp ts ⟨mem, 0⟩ = .ok s) : s.Sorted cmp := by
  rw [sorted_iff hcmp, entries_insertAll h]
  exact (Counts.foldl hcmp ts).sorted

/-- A sorted array is in the order that `bsearch` asks for. -/
theorem Sorted.ascends (hcmp : ∀ t, Compares (key t) key (cmp t)) (h : s.Sorted cmp) (t : α) :
    Ascends (fun x => cmp t x.1) s.share s.shareLen := by
  intro i j hij hj
  have hlt : key (s.share i).1 < key (s.share j).1 := ((hcmp _).neg_iff _).mp (h i j hij hj)
  have hneg : cmp t (s.share i).1 ≤ 0 → cmp t (s.share j).1 < 0 := by
    intro hle
    have hkt : key t ≤ key (s.share i).1 := by
      rw [← not_lt, ← (hcmp t).pos_iff, not_lt]
      exact hle
    exact ((hcmp t).neg_iff _).mpr (lt_of_le_of_lt hkt hlt)
  exact ⟨fun hle => (hneg hle).le, fun hlt => hneg hlt.le⟩

/-- `bsearch` finds a target that is in a sorted array. -/
theorem find_isSome_iff (hcmp : ∀ t, Compares (key t) key (cmp t)) (h : s.Sorted cmp)
    {bsearch : (α × ℕ → ℤ) → (ℕ → α × ℕ) → ℕ → Option ℕ} (hb : IsBsearch bsearch) (t : α) :
    (∃ c, s.find bsearch cmp t = some c) ↔ ∃ x ∈ s.entries, key x.1 = key t := by
  have hasc := h.ascends hcmp t
  constructor
  · rintro ⟨c, hc⟩
    obtain ⟨hlt, h0⟩ := hb.found _ _ _ c hasc hc
    exact ⟨_, mem_entries.mpr ⟨c, hlt, rfl⟩, (((hcmp t).zero_iff _).mp h0).symm⟩
  · rintro ⟨x, hx, hk⟩
    obtain ⟨i, hi, rfl⟩ := mem_entries.mp hx
    refine Option.ne_none_iff_exists'.mp fun hnone => ?_
    exact hb.null _ _ _ hasc hnone i hi (((hcmp t).zero_iff _).mpr hk.symm)

/-- Whatever `bsearch` the C library has, it finds in a sorted array what `Share` finds in the
list. -/
theorem find_eq_lookup (hcmp : ∀ t, Compares (key t) key (cmp t)) (h : s.Sorted cmp)
    {bsearch : (α × ℕ → ℤ) → (ℕ → α × ℕ) → ℕ → Option ℕ} (hb : IsBsearch bsearch) (t : α) (c : ℕ) :
    s.find bsearch cmp t = some c ↔ lookup (cmp t) (s.entries.map Prod.fst) = .found c := by
  have hasc := h.ascends hcmp t
  have hlist : ∀ i, lookup (cmp t) (s.entries.map Prod.fst) = .found i →
      i < s.shareLen ∧ cmp t (s.share i).1 = 0 := by
    intro i hi
    obtain ⟨hlt, h0⟩ := lookup_found hi
    rw [List.length_map, length_entries] at hlt
    simp only [List.getElem_map, entries, getElem_elements] at h0
    exact ⟨hlt, h0⟩
  constructor
  · intro hc
    obtain ⟨hlt, h0⟩ := hb.found _ _ _ c hasc hc
    have hpair : (s.entries.map Prod.fst).Pairwise fun x y => key x < key y :=
      List.pairwise_map.mpr ((sorted_iff hcmp).mp h)
    have hmem : (s.share c).1 ∈ s.entries.map Prod.fst :=
      List.mem_map_of_mem (mem_entries.mpr ⟨c, hlt, rfl⟩)
    obtain ⟨i, hi⟩ := lookup_of_mem (hcmp t) hpair hmem (((hcmp t).zero_iff _).mp h0).symm
    obtain ⟨hlt', h0'⟩ := hlist i hi
    rw [hi, h.place_unique hcmp hlt hlt' h0 h0']
  · intro hc
    obtain ⟨hlt, h0⟩ := hlist c hc
    cases hfind : s.find bsearch cmp t with
    | none => exact absurd h0 (hb.null _ _ _ hasc hfind c hlt)
    | some i =>
      obtain ⟨hlt', h0'⟩ := hb.found _ _ _ i hasc hfind
      rw [h.place_unique hcmp hlt' hlt h0' h0]

/-! ## The filter -/

theorem entries_filter (top : ℕ) (s : ShareArray α) :
    (s.filter top).entries = s.entries.filter fun x => decide (top < x.2) :=
  elements_sift _ s.share s.shareLen

theorem Sorted.filter (hcmp : ∀ t, Compares (key t) key (cmp t)) (h : s.Sorted cmp) (top : ℕ) :
    (s.filter top).Sorted cmp := by
  rw [sorted_iff hcmp, entries_filter]
  exact ((sorted_iff hcmp).mp h).filter _

/-- What remains of a target. -/
theorem exists_mem_filter_iff {ts : List α} (h : Counts key ts s.entries) (top : ℕ) (t : α) :
    (∃ x ∈ (s.filter top).entries, key x.1 = key t) ↔
      top < ts.countP fun u => decide (key u = key t) := by
  rw [entries_filter]
  simp only [List.mem_filter, decide_eq_true_eq]
  constructor
  · rintro ⟨x, ⟨hx, htop⟩, hk⟩
    rw [← hk, ← h.count x hx]
    exact htop
  · intro htop
    obtain ⟨u, hu, hku⟩ := List.countP_pos_iff.mp (Nat.zero_lt_of_lt htop)
    obtain ⟨x, hx, hk⟩ := h.all u hu
    have hkt : key x.1 = key t := hk.trans (of_decide_eq_true hku)
    refine ⟨x, ⟨hx, ?_⟩, hkt⟩
    rw [h.count x hx, hkt]
    exact htop

end

/-- The definition with the index of a reference is that of the entry. -/
theorem mem_definitions {s : ShareArray α} {c : ℕ} (hc : c < s.shareLen) (define : α → D) (d : D) :
    (reference c, d) ∈ s.definitions define ↔ d = define (s.share c).1 := by
  simp only [definitions, reference, List.mem_map, List.mem_range, Prod.mk.injEq]
  constructor
  · rintro ⟨i, -, hi, rfl⟩
    rw [Nat.succ.inj hi]
  · rintro rfl
    exact ⟨c, hc, rfl, rfl⟩

/-- Targets within the capacity are tallied, and the entries that the filter keeps are still in
order. Among them `bsearch` finds what was inserted more than `top` times, and no more, and where it
finds a target, the definition with the index of the reference is that of an equal target. -/
theorem binInsert_bsearch (hcmp : TotalOrder cmp) {ts : List α} (hts : Fits cap cmp ts)
    (mem : ℕ → α × ℕ) (top : ℕ) {bsearch : (α × ℕ → ℤ) → (ℕ → α × ℕ) → ℕ → Option ℕ}
    (hb : IsBsearch bsearch) (define : α → D) :
    ∃ s, insertAll cap cmp ts ⟨mem, 0⟩ = .ok s ∧ s.Tallies cmp ts ∧
      (s.filter top).Sorted cmp ∧
      ∀ t, ((∃ c, (s.filter top).find bsearch cmp t = some c) ↔ top < occurrences cmp ts t) ∧
        ∀ c, (s.filter top).find bsearch cmp t = some c → ∃ x ∈ ts, cmp t x = 0 ∧
          ∀ d, (reference c, d) ∈ (s.filter top).definitions define ↔ d = define x := by
  obtain ⟨κ, _, key, hkey⟩ := hcmp.exists_key
  obtain ⟨s, hs, hentries⟩ := insertAll_of_fits hkey hts mem
  have hcounts : Counts key ts s.entries := hentries ▸ Counts.foldl hkey ts
  have htallies := tallies_of_counts hkey hcounts
  have hsorted := htallies.sorted.filter hkey top
  refine ⟨s, hs, htallies, hsorted, fun t => ⟨?_, fun c hc => ?_⟩⟩
  · rw [find_isSome_iff hkey hsorted hb, exists_mem_filter_iff hcounts, occurrences_eq hkey]
  · obtain ⟨hlt, h0⟩ := hb.found _ _ _ c (hsorted.ascends hkey t) hc
    have hmem : (s.filter top).share c ∈ (s.filter top).entries := mem_entries.mpr ⟨c, hlt, rfl⟩
    rw [entries_filter] at hmem
    exact ⟨_, hcounts.mem _ (List.mem_of_mem_filter hmem), h0, mem_definitions hlt define⟩

/-- Of six numbers, what occurs three times is found, and what occurs once is not. -/
theorem binInsert_bsearch_numbers :
    ∃ s, insertAll 4 (fun x y => x - y) [5, 3, 5, 9, 3, 5] ⟨fun _ => (0, 0), 0⟩ = .ok s ∧
      (∃ c, (s.filter 1).find bsearch (fun x y => x - y) 5 = some c) ∧
      ¬∃ c, (s.filter 1).find bsearch (fun x y => x - y) 9 = some c := by
  have horder : TotalOrder fun x y : ℤ => x - y :=
    ⟨fun x y => by omega, fun x y z hxy hyz => by omega⟩
  have hfits : Fits 4 (fun x y : ℤ => x - y) [5, 3, 5, 9, 3, 5] := ⟨by decide, by decide⟩
  obtain ⟨s, hs, -, -, hfind⟩ :=
    binInsert_bsearch horder hfits (fun _ => (0, 0)) 1 isBsearch_bsearch id
  exact ⟨s, hs, (hfind 5).1.mpr (by decide), fun h => absurd ((hfind 9).1.mp h) (by decide)⟩

end ShareArray

/-! ## The arrays of `main` -/

namespace Addresses

variable (a : Addresses)

/-- `shareCells`, `shareRows` and `shareSheets`, after the filters, with what is in their memory
before. -/
def shareArrays (noshare : Bool) (sheets : List Sheet) (memSheets : ℕ → Sheet × ℕ)
    (memRows : ℕ → ShareRow × ℕ) (memCells : ℕ → StrPtr × ℕ) :
    Except InsertFail (ShareArray StrPtr × ShareArray ShareRow × ShareArray Sheet) := do
  let s ← ShareArray.insertAll 512 a.cmpSheet sheets ⟨memSheets, 0⟩
  let r ← ShareArray.insertAll 32768 a.cmpRow (s.entries.flatMap fun t => t.1.rows) ⟨memRows, 0⟩
  let c ← ShareArray.insertAll 32768 a.cmpCell (r.entries.flatMap fun t => t.1.cells) ⟨memCells, 0⟩
  .ok (c.filter (top noshare), r.filter (top noshare), s.filter (top noshare))

variable {noshare : Bool} {memSheets : ℕ → Sheet × ℕ} {memRows : ℕ → ShareRow × ℕ}
  {memCells : ℕ → StrPtr × ℕ}

/-- The arrays hold the tables of `Share`. -/
theorem shareArrays_eq {sheets : List Sheet} {c : ShareArray StrPtr} {r : ShareArray ShareRow}
    {s : ShareArray Sheet}
    (h : a.shareArrays noshare sheets memSheets memRows memCells = .ok (c, r, s)) :
    a.shares noshare sheets =
      ⟨c.entries.map Prod.fst, r.entries.map Prod.fst, s.entries.map Prod.fst⟩ := by
  obtain ⟨s₁, hs, h⟩ := ok_of_bind h
  obtain ⟨r₁, hr, h⟩ := ok_of_bind h
  obtain ⟨c₁, hc, h⟩ := ok_of_bind h
  cases h
  have hs' : s₁.entries = a.countSheets sheets := ShareArray.entries_insertAll hs
  have hr' : r₁.entries = a.countRows sheets := by
    rw [ShareArray.entries_insertAll hr, hs']
    rfl
  have hc' : c₁.entries = a.countCells sheets := by
    rw [ShareArray.entries_insertAll hc, hr']
    rfl
  simp only [ShareArray.entries_filter, hs', hr', hc']
  rfl

/-- The comparators of `main` are of total orders. -/
theorem totalOrder_cmp : TotalOrder a.cmpCell ∧ TotalOrder a.cmpRow ∧ TotalOrder a.cmpSheet :=
  ⟨totalOrder_of_compares a.compares_cmpCell, totalOrder_of_compares a.compares_cmpRow,
    totalOrder_of_compares a.compares_cmpSheet⟩

/-- What `bsearch` finds in the arrays is what the search of `Share` finds in its tables. -/
theorem find_shareArrays {sheets : List Sheet} {c : ShareArray StrPtr} {r : ShareArray ShareRow}
    {s : ShareArray Sheet}
    (h : a.shareArrays noshare sheets memSheets memRows memCells = .ok (c, r, s))
    {bsearch : {β : Type} → (β → ℤ) → (ℕ → β) → ℕ → Option ℕ}
    (hb : ∀ {β : Type}, IsBsearch (bsearch (β := β))) :
    (∀ t k, c.find bsearch a.cmpCell t = some k ↔
        lookup (a.cmpCell t) (a.shares noshare sheets).cells = .found k) ∧
      (∀ t k, r.find bsearch a.cmpRow t = some k ↔
        lookup (a.cmpRow t) (a.shares noshare sheets).rows = .found k) ∧
      ∀ t k, s.find bsearch a.cmpSheet t = some k ↔
        lookup (a.cmpSheet t) (a.shares noshare sheets).sheets = .found k := by
  rw [a.shareArrays_eq h]
  obtain ⟨s₁, hs, h⟩ := ok_of_bind h
  obtain ⟨r₁, hr, h⟩ := ok_of_bind h
  obtain ⟨c₁, hc, h⟩ := ok_of_bind h
  cases h
  have hcells := (ShareArray.sorted_insertAll a.compares_cmpCell hc).filter a.compares_cmpCell
    (top noshare)
  have hrows := (ShareArray.sorted_insertAll a.compares_cmpRow hr).filter a.compares_cmpRow
    (top noshare)
  have hsheets := (ShareArray.sorted_insertAll a.compares_cmpSheet hs).filter a.compares_cmpSheet
    (top noshare)
  exact ⟨ShareArray.find_eq_lookup a.compares_cmpCell hcells hb,
    ShareArray.find_eq_lookup a.compares_cmpRow hrows hb,
    ShareArray.find_eq_lookup a.compares_cmpSheet hsheets hb⟩

/-- For a book the only failure is an array that is full: no count overflows. -/
theorem shareArrays_ne_overflow (book : Book) :
    a.shareArrays noshare (book.sheets.map Prod.snd) memSheets memRows memCells ≠
      .error .overflow := by
  obtain ⟨hsheets, hrows, hcells⟩ := a.length_targets book
  have hmax : ShareArray.intMax = 0x7fffffff := rfl
  intro h
  obtain hs | ⟨s, hs, h⟩ := error_of_bind h
  · exact ShareArray.insertAll_ne_overflow a.compares_cmpSheet (by omega) memSheets hs
  have hs' : s.entries = a.countSheets (book.sheets.map Prod.snd) := ShareArray.entries_insertAll hs
  rw [hs'] at h
  obtain hr | ⟨r, hr, h⟩ := error_of_bind h
  · exact ShareArray.insertAll_ne_overflow a.compares_cmpRow (by omega) memRows hr
  have hr' : r.entries = a.countRows (book.sheets.map Prod.snd) := ShareArray.entries_insertAll hr
  rw [hr'] at h
  obtain hc | ⟨c, -, h⟩ := error_of_bind h
  · exact ShareArray.insertAll_ne_overflow a.compares_cmpCell (by omega) memCells hc
  · cases h

end Addresses

end Catse.Myxml2
