import Mathlib.Data.List.Lex
import Mathlib.Data.List.Nodup
import Mathlib.Data.Finset.Card
import Mathlib.Data.List.Dedup
import Mathlib.Tactic.Common

/-!
# Sorted tables

A table is a list whose entries have strictly increasing keys, in some linear order. What a C
program has of the order is a comparator, whose sign is all that counts, so a comparison of one
target with the entries is a function to the integers (`Compares`). `search` is the binary search:
it needs no order to be right about what it finds, and the order to be right about what it does not
find.

`countInsert` counts how often each key has been inserted. `Counts` says what a table holds after a
sequence of targets, and the two results for a user are `Counts.foldl`, which builds it, and
`Counts.lookup_kept`, which says what is found after the entries with small counts are dropped.
-/

namespace Catse.SortedTable

/-- The result of a search: the index of an entry that is equal, or the index where one would be
inserted. -/
inductive Search where
  | found (c : ℕ)
  | absent (a : ℕ)
  deriving DecidableEq

/-- The binary search from `a` up to `e`, by the comparison with the entry at an index. -/
def search (cmp : ℕ → ℤ) (a e : ℕ) : Search :=
  if a < e then
    if cmp ((a + e - 1) / 2) < 0 then search cmp a ((a + e - 1) / 2)
    else if 0 < cmp ((a + e - 1) / 2) then search cmp ((a + e - 1) / 2 + 1) e
    else .found ((a + e - 1) / 2)
  else .absent a
termination_by e - a

/-- What is found is equal. -/
theorem search_found {cmp : ℕ → ℤ} {a e c : ℕ} (h : search cmp a e = .found c) :
    c < e ∧ cmp c = 0 := by
  fun_induction search cmp a e with
  | case1 a e hlt hneg ih =>
    obtain ⟨hc, h0⟩ := ih h
    exact ⟨by omega, h0⟩
  | case2 a e hlt hneg hpos ih => exact ih h
  | case3 a e hlt hneg hpos =>
    cases h
    exact ⟨by omega, by omega⟩
  | case4 a e hlt => cases h

/-- What is not found would stand between the smaller entries and the larger ones, in a table of `n`
entries whose comparisons go down. -/
theorem search_absent {cmp : ℕ → ℤ} {n a e p : ℕ}
    (hmono : ∀ i j, i < j → j < n → cmp i ≤ 0 → cmp j < 0)
    (hae : a ≤ e) (hen : e ≤ n) (hlow : ∀ i < a, 0 < cmp i) (hhigh : ∀ i, e ≤ i → i < n → cmp i < 0)
    (h : search cmp a e = .absent p) :
    p ≤ n ∧ (∀ i < p, 0 < cmp i) ∧ ∀ i, p ≤ i → i < n → cmp i < 0 := by
  fun_induction search cmp a e with
  | case1 a e hlt hneg ih =>
    refine ih (by omega) (by omega) hlow (fun i hi hin => ?_) h
    -- The entries above the middle are above an entry that is too large.
    rcases Nat.eq_or_lt_of_le hi with rfl | hlt'
    · exact hneg
    · exact hmono _ i hlt' hin hneg.le
  | case2 a e hlt hneg hpos ih =>
    refine ih (by omega) hen (fun i hi => ?_) hhigh h
    -- An entry below the middle that were not too small would make the middle too large.
    by_contra hle
    rcases Nat.eq_or_lt_of_le (Nat.le_of_lt_succ hi) with rfl | hlt'
    · exact hle hpos
    · exact hneg (hmono i _ hlt' (by omega) (not_lt.mp hle))
  | case3 a e hlt hneg hpos => cases h
  | case4 a e hlt =>
    cases h
    exact ⟨by omega, hlow, fun i hi hin => hhigh i (by omega) hin⟩

section

variable {α κ : Type} [LinearOrder κ]

/-- The comparison of a target of key `k` with the entries. -/
structure Compares (k : κ) (key : α → κ) (f : α → ℤ) : Prop where
  neg_iff : ∀ x, f x < 0 ↔ k < key x
  zero_iff : ∀ x, f x = 0 ↔ k = key x

theorem Compares.pos_iff {k : κ} {key : α → κ} {f : α → ℤ} (h : Compares k key f) (x : α) :
    0 < f x ↔ key x < k := by
  have hneg := h.neg_iff x
  have hzero := h.zero_iff x
  constructor
  · intro hpos
    have hnot : ¬k < key x := fun hk => by have := hneg.mpr hk; omega
    have hne : k ≠ key x := fun hk => by have := hzero.mpr hk; omega
    exact lt_of_le_of_ne (not_lt.mp hnot) (Ne.symm hne)
  · intro hlt
    have hnot : ¬f x < 0 := fun hf => absurd (hneg.mp hf) hlt.asymm
    have hne : f x ≠ 0 := fun hf => hlt.ne (hzero.mp hf).symm
    omega

/-- The comparison with the entry at an index. -/
def probe (f : α → ℤ) (l : List α) (c : ℕ) : ℤ :=
  match l[c]? with
  | some x => f x
  | none => 0

theorem probe_eq {f : α → ℤ} {l : List α} {c : ℕ} (h : c < l.length) : probe f l c = f l[c] := by
  unfold probe
  rw [List.getElem?_eq_getElem h]

/-- The search in a table. -/
def lookup (f : α → ℤ) (l : List α) : Search := search (probe f l) 0 l.length

theorem lookup_nil (f : α → ℤ) : lookup f [] = .absent 0 := by
  rw [lookup, search]
  rfl

/-- What is found is an entry that is equal. -/
theorem lookup_found {f : α → ℤ} {l : List α} {c : ℕ} (h : lookup f l = .found c) :
    ∃ hc : c < l.length, f l[c] = 0 := by
  obtain ⟨hc, h0⟩ := search_found h
  exact ⟨hc, (probe_eq hc).symm.trans h0⟩

/-- What is found parts the table. -/
theorem lookup_found_append {f : α → ℤ} {l : List α} {c : ℕ} (h : lookup f l = .found c) :
    ∃ A x B, l = A ++ x :: B ∧ A.length = c ∧ f x = 0 := by
  obtain ⟨hc, h0⟩ := lookup_found h
  refine ⟨l.take c, l[c], l.drop (c + 1), ?_, List.length_take_of_le hc.le, h0⟩
  rw [List.getElem_cons_drop, List.take_append_drop]

/-- What is not found parts a sorted table into the smaller entries and the larger ones. -/
theorem lookup_absent {k : κ} {key : α → κ} {f : α → ℤ} (hf : Compares k key f) {l : List α}
    (hsorted : l.Pairwise fun x y => key x < key y) {a : ℕ} (h : lookup f l = .absent a) :
    (∀ x ∈ l.take a, key x < k) ∧ ∀ x ∈ l.drop a, k < key x := by
  have hmono : ∀ i j, i < j → j < l.length → probe f l i ≤ 0 → probe f l j < 0 := by
    intro i j hij hj hi
    rw [probe_eq (by omega)] at hi
    rw [probe_eq hj, hf.neg_iff]
    have hlt : key l[i] < key l[j] := List.pairwise_iff_getElem.mp hsorted i j _ _ hij
    have hle : k ≤ key l[i] := not_lt.mp fun hlt' => by
      have := (hf.pos_iff _).mpr hlt'
      omega
    exact lt_of_le_of_lt hle hlt
  obtain ⟨ha, hlow, hhigh⟩ :=
    search_absent hmono (Nat.zero_le _) le_rfl (fun i hi => absurd hi (by omega))
    (fun i hi hin => absurd hin (by omega)) h
  constructor
  · intro x hx
    obtain ⟨i, hi, rfl⟩ := List.mem_take_iff_getElem.mp hx
    have hpos := hlow i (by omega)
    rw [probe_eq (by omega)] at hpos
    exact (hf.pos_iff _).mp hpos
  · intro x hx
    obtain ⟨i, hi, rfl⟩ := List.mem_drop_iff_getElem.mp hx
    have hneg := hhigh (a + i) (by omega) (by omega)
    rw [probe_eq (by omega)] at hneg
    exact (hf.neg_iff _).mp hneg

/-- What is in a sorted table is found. -/
theorem lookup_of_mem {k : κ} {key : α → κ} {f : α → ℤ} (hf : Compares k key f) {l : List α}
    (hsorted : l.Pairwise fun x y => key x < key y) {x : α} (hx : x ∈ l) (hk : key x = k) :
    ∃ c, lookup f l = .found c := by
  cases h : lookup f l with
  | found c => exact ⟨c, rfl⟩
  | absent a =>
    obtain ⟨hlow, hhigh⟩ := lookup_absent hf hsorted h
    rw [← List.take_append_drop a l] at hx
    rcases List.mem_append.mp hx with hx | hx
    · exact absurd hk (hlow x hx).ne
    · exact absurd hk (hhigh x hx).ne'

/-- An entry put where it was not found keeps the table sorted. -/
theorem pairwise_insert {R : α → α → Prop} {A B : List α} {t : α} (h : (A ++ B).Pairwise R)
    (hA : ∀ x ∈ A, R x t) (hB : ∀ x ∈ B, R t x) : (A ++ t :: B).Pairwise R := by
  obtain ⟨hpA, hpB, hAB⟩ := List.pairwise_append.mp h
  refine List.pairwise_append.mpr ⟨hpA, List.pairwise_cons.mpr ⟨hB, hpB⟩, fun x hx y hy => ?_⟩
  rcases List.mem_cons.mp hy with rfl | hy
  · exact hA x hx
  · exact hAB x hx y hy

/-! ## Counting -/

/-- Insertion of a target into a table with counts: it counts an entry that is equal, or is a new
one. -/
def countInsert (cmp : α → α → ℤ) (share : List (α × ℕ)) (target : α) : List (α × ℕ) :=
  match lookup (fun x => cmp target x.1) share with
  | .found c => share.modify c fun x => (x.1, x.2 + 1)
  | .absent a => share.take a ++ (target, 1) :: share.drop a

/-- What is in the table after the targets `ts`. -/
structure Counts (key : α → κ) (ts : List α) (share : List (α × ℕ)) : Prop where
  sorted : share.Pairwise fun x y => key x.1 < key y.1
  mem : ∀ x ∈ share, x.1 ∈ ts
  count : ∀ x ∈ share, x.2 = ts.countP fun t => decide (key t = key x.1)
  all : ∀ t ∈ ts, ∃ x ∈ share, key x.1 = key t

theorem Counts.nil (key : α → κ) : Counts key [] [] where
  sorted := List.Pairwise.nil
  mem := fun _ hx => absurd hx List.not_mem_nil
  count := fun _ hx => absurd hx List.not_mem_nil
  all := fun _ ht => absurd ht List.not_mem_nil

variable {key : α → κ} {cmp : α → α → ℤ}

/-- The count of a key after one target more. -/
theorem countP_snoc (ts : List α) (t : α) (k : κ) :
    (ts ++ [t]).countP (fun t => decide (key t = k)) =
      ts.countP (fun t => decide (key t = k)) + if key t = k then 1 else 0 := by
  rw [List.countP_append, List.countP_singleton]
  simp only [decide_eq_true_eq]

/-- A target that is found counts. -/
theorem Counts.found {ts : List α} {A B : List (α × ℕ)} {x : α × ℕ} {t : α}
    (h : Counts key ts (A ++ x :: B)) (hx : key t = key x.1) :
    Counts key (ts ++ [t]) (A ++ (x.1, x.2 + 1) :: B) := by
  obtain ⟨hA, hxB, hAx⟩ := List.pairwise_append.mp h.sorted
  obtain ⟨hlt, hB⟩ := List.pairwise_cons.mp hxB
  -- Apart from the entry that is found, the entries are those from before, with other keys.
  have hmem : ∀ y ∈ A ++ (x.1, x.2 + 1) :: B,
    y = (x.1, x.2 + 1) ∨ y ∈ A ++ x :: B ∧ key y.1 ≠ key t := by
    intro y hy
    rcases List.mem_append.mp hy with hy | hy
    · exact .inr ⟨List.mem_append_left _ hy, hx ▸ (hAx y hy x List.mem_cons_self).ne⟩
    · rcases List.mem_cons.mp hy with hy | hy
      · exact .inl hy
      · exact .inr ⟨List.mem_append_right _ (List.mem_cons_of_mem _ hy), hx ▸ (hlt y hy).ne'⟩
  have hself : x ∈ A ++ x :: B := List.mem_append_right _ List.mem_cons_self
  constructor
  · refine List.pairwise_append.mpr ⟨hA, List.pairwise_cons.mpr ⟨hlt, hB⟩, fun y hy z hz => ?_⟩
    rcases List.mem_cons.mp hz with rfl | hz
    · exact hAx y hy x List.mem_cons_self
    · exact hAx y hy z (List.mem_cons_of_mem _ hz)
  · intro y hy
    rcases hmem y hy with rfl | ⟨hold, -⟩
    · exact List.mem_append_left _ (h.mem x hself)
    · exact List.mem_append_left _ (h.mem y hold)
  · intro y hy
    rw [countP_snoc]
    rcases hmem y hy with rfl | ⟨hold, hne⟩
    · rw [if_pos hx, ← h.count x hself]
    · rw [if_neg hne.symm, ← h.count y hold]
      rfl
  · intro t' ht'
    rcases List.mem_append.mp ht' with ht' | ht'
    · obtain ⟨y, hy, hky⟩ := h.all t' ht'
      rcases List.mem_append.mp hy with hy | hy
      · exact ⟨y, List.mem_append_left _ hy, hky⟩
      · rcases List.mem_cons.mp hy with rfl | hy
        · exact ⟨_, List.mem_append_right _ List.mem_cons_self, hky⟩
        · exact ⟨y, List.mem_append_right _ (List.mem_cons_of_mem _ hy), hky⟩
    · rw [List.mem_singleton.mp ht']
      exact ⟨_, List.mem_append_right _ List.mem_cons_self, hx.symm⟩

/-- A target that is not found is entered. -/
theorem Counts.absent {ts : List α} {A B : List (α × ℕ)} {t : α} (h : Counts key ts (A ++ B))
    (hA : ∀ x ∈ A, key x.1 < key t) (hB : ∀ x ∈ B, key t < key x.1) :
    Counts key (ts ++ [t]) (A ++ (t, 1) :: B) := by
  have hne : ∀ x ∈ A ++ B, key x.1 ≠ key t := by
    intro x hx
    rcases List.mem_append.mp hx with hx | hx
    · exact (hA x hx).ne
    · exact (hB x hx).ne'
  have hmem : ∀ y ∈ A ++ (t, 1) :: B, y = (t, 1) ∨ y ∈ A ++ B := by
    intro y hy
    simpa only [List.mem_append, List.mem_cons, or_left_comm] using hy
  constructor
  · exact pairwise_insert h.sorted hA hB
  · intro y hy
    rcases hmem y hy with rfl | hold
    · exact List.mem_append_right _ (List.mem_singleton_self t)
    · exact List.mem_append_left _ (h.mem y hold)
  · intro y hy
    rw [countP_snoc]
    rcases hmem y hy with rfl | hold
    · -- No target before was equal, since its entry would be.
      have hzero : ts.countP (fun t' => decide (key t' = key t)) = 0 := by
        rw [List.countP_eq_zero]
        intro t' ht'
        obtain ⟨x, hx, hk⟩ := h.all t' ht'
        exact fun heq => hne x hx (hk.trans (of_decide_eq_true heq))
      rw [if_pos rfl, hzero]
    · rw [if_neg (hne y hold).symm, ← h.count y hold]
      rfl
  · intro t' ht'
    rcases List.mem_append.mp ht' with ht' | ht'
    · obtain ⟨y, hy, hky⟩ := h.all t' ht'
      refine ⟨y, ?_, hky⟩
      rcases List.mem_append.mp hy with hy | hy
      · exact List.mem_append_left _ hy
      · exact List.mem_append_right _ (List.mem_cons_of_mem _ hy)
    · rw [List.mem_singleton.mp ht']
      exact ⟨_, List.mem_append_right _ List.mem_cons_self, rfl⟩

/-- What an insertion preserves. -/
theorem Counts.insert (hcmp : ∀ t, Compares (key t) key (cmp t)) {ts : List α}
    {share : List (α × ℕ)}
    (h : Counts key ts share) (t : α) : Counts key (ts ++ [t]) (countInsert cmp share t) := by
  have hpair : Compares (key t) (fun x : α × ℕ => key x.1) fun x => cmp t x.1 :=
    ⟨fun x => (hcmp t).neg_iff x.1, fun x => (hcmp t).zero_iff x.1⟩
  unfold countInsert
  cases hl : lookup (fun x => cmp t x.1) share with
  | found c =>
    obtain ⟨A, x, B, rfl, rfl, h0⟩ := lookup_found_append hl
    have hmodify : (A ++ x :: B).modify A.length (fun x => (x.1, x.2 + 1)) =
      A ++ (x.1, x.2 + 1) :: B := by
      simp [List.modify_eq_take_cons_drop]
    show Counts key (ts ++ [t]) ((A ++ x :: B).modify A.length _)
    rw [hmodify]
    exact h.found ((hpair.zero_iff x).mp h0)
  | absent a =>
    obtain ⟨hlow, hhigh⟩ := lookup_absent hpair h.sorted hl
    have hparts : Counts key ts (share.take a ++ share.drop a) :=
      (List.take_append_drop a share).symm ▸ h
    exact hparts.absent hlow hhigh

/-- The table after a sequence of insertions. -/
theorem Counts.foldl (hcmp : ∀ t, Compares (key t) key (cmp t)) (ts : List α) :
    Counts key ts (ts.foldl (countInsert cmp) []) := by
  induction ts using List.reverseRecOn with
  | nil => exact Counts.nil key
  | append_singleton ts t ih =>
    rw [List.foldl_append]
    exact ih.insert hcmp t

theorem length_countInsert_le (cmp : α → α → ℤ) (share : List (α × ℕ)) (t : α) :
    (countInsert cmp share t).length ≤ share.length + 1 := by
  unfold countInsert
  cases lookup (fun x => cmp t x.1) share with
  | found c =>
    rw [List.length_modify]
    omega
  | absent a =>
    rw [List.length_append, List.length_cons, List.length_take, List.length_drop]
    omega

/-- There are no more entries than targets. -/
theorem length_foldl_le (cmp : α → α → ℤ) (ts : List α) :
    (ts.foldl (countInsert cmp) []).length ≤ ts.length := by
  induction ts using List.reverseRecOn with
  | nil => exact le_rfl
  | append_singleton ts t ih =>
    have hstep := length_countInsert_le cmp (ts.foldl (countInsert cmp) []) t
    rw [List.foldl_append, List.length_append]
    exact hstep.trans (Nat.add_le_add_right ih 1)

/-! ## Dropping -/

/-- The entries whose count is above `top`. -/
def kept (top : ℕ) (share : List (α × ℕ)) : List α :=
  (share.filter fun x => decide (top < x.2)).map Prod.fst

theorem mem_kept {top : ℕ} {share : List (α × ℕ)} {x : α} :
    x ∈ kept top share ↔ ∃ n, (x, n) ∈ share ∧ top < n := by
  unfold kept
  simp only [List.mem_map, List.mem_filter, decide_eq_true_eq, Prod.exists, exists_and_right,
    exists_eq_right]

theorem Counts.sorted_kept {ts : List α} {share : List (α × ℕ)} (h : Counts key ts share)
    (top : ℕ) :
    (kept top share).Pairwise fun x y => key x < key y := by
  unfold kept
  rw [List.pairwise_map]
  exact h.sorted.filter _

/-- A target is found among the entries that are kept when it was inserted more than `top` times. -/
theorem Counts.lookup_kept (hcmp : ∀ t, Compares (key t) key (cmp t)) {ts : List α}
    {share : List (α × ℕ)} (h : Counts key ts share) (top : ℕ) {t : α}
    (htop : top < ts.countP fun t' => decide (key t' = key t)) :
    ∃ c, lookup (cmp t) (kept top share) = .found c := by
  have hpos : 0 < ts.countP fun t' => decide (key t' = key t) := by omega
  obtain ⟨t', ht', hk⟩ := List.countP_pos_iff.mp hpos
  obtain ⟨x, hx, hxk⟩ := h.all t' ht'
  have hkx : key x.1 = key t := hxk.trans (of_decide_eq_true hk)
  have hmem : x.1 ∈ kept top share := by
    rw [mem_kept]
    refine ⟨x.2, hx, ?_⟩
    rw [h.count x hx, hkx]
    exact htop
  exact lookup_of_mem (hcmp t) (h.sorted_kept top) hmem hkx

/-- What is kept was inserted more than `top` times. -/
theorem Counts.count_kept {ts : List α} {share : List (α × ℕ)} (h : Counts key ts share)
    {top : ℕ} {x : α}
    (hx : x ∈ kept top share) : x ∈ ts ∧ top < ts.countP fun t => decide (key t = key x) := by
  obtain ⟨n, hn, htop⟩ := mem_kept.mp hx
  have hcount : n = ts.countP fun t => decide (key t = key x) := h.count (x, n) hn
  exact ⟨h.mem (x, n) hn, hcount ▸ htop⟩

/-- Nothing is kept when there are too few targets. -/
theorem Counts.kept_eq_nil {ts : List α} {share : List (α × ℕ)} (h : Counts key ts share) {top : ℕ}
    (htop : ts.length ≤ top) : kept top share = [] := by
  apply List.eq_nil_iff_forall_not_mem.mpr
  intro x hx
  have hcount := (h.count_kept hx).2
  have hle : (ts.countP fun t => decide (key t = key x)) ≤ ts.length := List.countP_le_length
  omega

/-- A target that is inserted from two places was inserted more than once, and the other way
round. -/
theorem one_lt_countP_map_iff {ι : Type} {is : List ι} (hnodup : is.Nodup) (f : ι → α) (k : κ) :
    1 < (is.map f).countP (fun t => decide (key t = k)) ↔
      ∃ i ∈ is, ∃ j ∈ is, i ≠ j ∧ key (f i) = k ∧ key (f j) = k := by
  classical
  have hlen : (is.map f).countP (fun t => decide (key t = k)) =
      (is.filter fun i => decide (key (f i) = k)).toFinset.card := by
    rw [List.countP_map, List.countP_eq_length_filter,
      List.toFinset_card_of_nodup (hnodup.filter _)]
    rfl
  rw [hlen, Finset.one_lt_card]
  simp only [List.mem_toFinset, List.mem_filter, decide_eq_true_eq]
  constructor
  · rintro ⟨i, ⟨hi, hki⟩, j, ⟨hj, hkj⟩, hne⟩
    exact ⟨i, hi, j, hj, hne, hki, hkj⟩
  · rintro ⟨i, hi, j, hj, hne, hki, hkj⟩
    exact ⟨i, ⟨hi, hki⟩, j, ⟨hj, hkj⟩, hne⟩

end

end Catse.SortedTable
