import Mathlib.Data.List.Forall2
import Mathlib.Data.Option.Basic
import Mathlib.Logic.Function.Basic
import Mathlib.Tactic.Common

/-!
# Loops that may fail

`mapState` is a loop that maps a list while it changes a state, and ends at the first failure.
`mapState_spec` is its rule: an invariant of the state, a relation between the states before and
after, and what each element says about its result, which later states must keep.
-/

namespace Catse

variable {α β σ ε : Type}

/-- What has returned has gone through its first part. -/
theorem ok_of_bind {x : Except ε α} {f : α → Except ε β} {b : β} (h : x >>= f = .ok b) :
    ∃ a, x = .ok a ∧ f a = .ok b := by
  cases x with
  | error e => cases h
  | ok a => exact ⟨a, rfl, h⟩

/-- What has failed has failed in its first part or after it. -/
theorem error_of_bind {x : Except ε α} {f : α → Except ε β} {e : ε} (h : x >>= f = .error e) :
    x = .error e ∨ ∃ a, x = .ok a ∧ f a = .error e := by
  cases x with
  | error e' =>
    cases h
    exact .inl rfl
  | ok a => exact .inr ⟨a, rfl, h⟩

/-- A loop whose body may fail and changes a state. -/
def mapState (f : α → σ → Except ε (β × σ)) : List α → σ → Except ε (List β × σ)
  | [], s => .ok ([], s)
  | x :: l, s => do
    let r ← f x s
    let rs ← mapState f l r.2
    .ok (r.1 :: rs.1, rs.2)

/-- A loop that has gone on has done its first round and then the rest. -/
theorem mapState_cons {f : α → σ → Except ε (β × σ)} {x : α} {l : List α} {s s' : σ} {ys : List β}
    (h : mapState f (x :: l) s = .ok (ys, s')) :
    ∃ y s₁ ys', f x s = .ok (y, s₁) ∧ mapState f l s₁ = .ok (ys', s') ∧ ys = y :: ys' := by
  rw [mapState] at h
  obtain ⟨⟨y, s₁⟩, hx, h⟩ := ok_of_bind h
  obtain ⟨⟨ys', s₂⟩, hl, h⟩ := ok_of_bind h
  cases h
  exact ⟨y, s₁, ys', hx, hl, rfl⟩

/-- A result for each element. -/
theorem length_of_mapState {f : α → σ → Except ε (β × σ)} {l : List α} {s s' : σ} {ys : List β}
    (h : mapState f l s = .ok (ys, s')) : ys.length = l.length := by
  induction l generalizing s ys with
  | nil =>
    cases h
    rfl
  | cons x l ih =>
    obtain ⟨y, s₁, ys', -, hl, rfl⟩ := mapState_cons h
    rw [List.length_cons, List.length_cons, ih hl]

/-- A loop with one round more. -/
theorem mapState_snoc {f : α → σ → Except ε (β × σ)} {l : List α} {x : α} {s s₁ s' : σ}
    {ys : List β} {y : β} (h : mapState f l s = .ok (ys, s₁)) (hx : f x s₁ = .ok (y, s')) :
    mapState f (l ++ [x]) s = .ok (ys ++ [y], s') := by
  induction l generalizing s ys with
  | nil =>
    cases h
    rw [List.nil_append, mapState, hx]
    rfl
  | cons z l ih =>
    obtain ⟨y', s₂, ys', hz, hl, rfl⟩ := mapState_cons h
    rw [List.cons_append, mapState, hz]
    show (mapState f (l ++ [x]) s₂ >>= fun rs => .ok (y' :: rs.1, rs.2)) = _
    rw [ih hl]
    rfl

/-- A loop that has done one round more. -/
theorem mapState_of_snoc {f : α → σ → Except ε (β × σ)} {l : List α} {x : α} {s s' : σ}
    {zs : List β} (h : mapState f (l ++ [x]) s = .ok (zs, s')) :
    ∃ ys s₁ y, mapState f l s = .ok (ys, s₁) ∧ f x s₁ = .ok (y, s') := by
  induction l generalizing s zs with
  | nil =>
    obtain ⟨y, s₁, ys', hx, hl, -⟩ := mapState_cons h
    cases hl
    exact ⟨[], s, y, rfl, hx⟩
  | cons z l ih =>
    obtain ⟨y', s₂, ys', hz, hl, -⟩ := mapState_cons h
    obtain ⟨ys, s₁, y, hrun, hx⟩ := ih hl
    refine ⟨y' :: ys, s₁, y, ?_, hx⟩
    rw [mapState, hz]
    show (mapState f l s₂ >>= fun rs => .ok (y' :: rs.1, rs.2)) = _
    rw [hrun]
    rfl

/-- The first rounds of a loop. -/
theorem mapState_take {f : α → σ → Except ε (β × σ)} {l : List α} {s s' : σ} {ys : List β}
    (h : mapState f l s = .ok (ys, s')) (k : ℕ) :
    ∃ s₁, mapState f (l.take k) s = .ok (ys.take k, s₁) := by
  induction l generalizing s ys k with
  | nil =>
    cases h
    exact ⟨_, by rw [List.take_nil, List.take_nil]; rfl⟩
  | cons x l ih =>
    obtain ⟨y, s₁, ys', hx, hl, rfl⟩ := mapState_cons h
    cases k with
    | zero => exact ⟨s, rfl⟩
    | succ k =>
      obtain ⟨s₂, hk⟩ := ih hl k
      refine ⟨s₂, ?_⟩
      rw [List.take_succ_cons, List.take_succ_cons, mapState, hx]
      show (mapState f (l.take k) s₁ >>= fun rs => .ok (y :: rs.1, rs.2)) = _
      rw [hk]
      rfl

theorem mapError_bind {δ : Type} (g : ε → δ) (x : Except ε α) (f : α → Except ε β) :
    (x >>= f).mapError g = x.mapError g >>= fun a => (f a).mapError g := by
  cases x with
  | error e => rfl
  | ok a => rfl

/-- A loop whose rounds do the same as those of another, with other errors. -/
theorem mapState_mapError {δ : Type} (g : ε → δ) {f : α → σ → Except ε (β × σ)}
    {f' : α → σ → Except δ (β × σ)} {l : List α}
    (h : ∀ x ∈ l, ∀ s, f' x s = (f x s).mapError g) (s : σ) :
    mapState f' l s = (mapState f l s).mapError g := by
  induction l generalizing s with
  | nil => rfl
  | cons x l ih =>
    rw [mapState, mapState, mapError_bind, h x List.mem_cons_self]
    congr 1
    funext r
    rw [mapError_bind, ih fun y hy => h y (List.mem_cons_of_mem x hy)]
    rfl

section

variable {P : σ → Prop} {E : σ → σ → Prop} {Q : σ → α → β → Prop}

/-- The rule of the loop: `P` is kept, `E` relates the states, and `Q` is what a round says of its
result. -/
theorem mapState_spec (hrefl : ∀ s, E s s) (htrans : ∀ {s s' s''}, E s s' → E s' s'' → E s s'')
    (hQ : ∀ {s s' x y}, E s s' → Q s x y → Q s' x y) {f : α → σ → Except ε (β × σ)} {l : List α}
    (hf : ∀ x ∈ l, ∀ s y s', P s → f x s = .ok (y, s') → P s' ∧ E s s' ∧ Q s' x y) {s s' : σ}
    {ys : List β}
    (hs : P s) (h : mapState f l s = .ok (ys, s')) : P s' ∧ E s s' ∧ List.Forall₂ (Q s') l ys := by
  induction l generalizing s ys with
  | nil =>
    cases h
    exact ⟨hs, hrefl _, List.Forall₂.nil⟩
  | cons x l ih =>
    obtain ⟨y, s₁, ys', hx, hl, rfl⟩ := mapState_cons h
    obtain ⟨hP₁, hE₁, hQ₁⟩ := hf x List.mem_cons_self s y s₁ hs hx
    obtain ⟨hP, hE, hQs⟩ := ih (fun x hx => hf x (List.mem_cons_of_mem _ hx)) hP₁ hl
    exact ⟨hP, htrans hE₁ hE, List.Forall₂.cons (hQ hE hQ₁) hQs⟩

end

/-! ## Loops over places -/

section

variable {ι : Type} [DecidableEq ι] (P : ι → α → Prop) [∀ i x, Decidable (P i x)] (v : ι → α)

/-- A loop comes to each of its places once, and may write it by what is there. -/
theorem foldl_update {l : List ι} (hl : l.Nodup) (t : ι → α) (k : ι) :
    l.foldl (fun t j => if P j (t j) then Function.update t j (v j) else t) t k =
      if k ∈ l ∧ P k (t k) then v k else t k := by
  induction l generalizing t with
  | nil => rw [if_neg fun h => List.not_mem_nil h.1, List.foldl_nil]
  | cons j l ih =>
    obtain ⟨hj, hl⟩ := List.nodup_cons.mp hl
    rw [List.foldl_cons, ih hl]
    by_cases hkj : k = j
    · subst hkj
      rw [if_neg fun h => hj h.1]
      split_ifs with hP hall hall
      · exact Function.update_self ..
      · exact absurd ⟨List.mem_cons_self, hP⟩ hall
      · exact absurd hall.2 hP
      · rfl
    · have hsame : (if P j (t j) then Function.update t j (v j) else t) k = t k := by
        split_ifs
        · exact Function.update_of_ne hkj _ _
        · rfl
      simp only [hsame, List.mem_cons, hkj, false_or]

end

/-! ## Loops without a state -/

/-- A loop that maps a list and may fail. -/
def mapAll (f : α → Option β) : List α → Option (List β)
  | [] => some []
  | x :: l =>
    match f x, mapAll f l with
    | some y, some ys => some (y :: ys)
    | _, _ => none

theorem mapAll_eq_some_iff {f : α → Option β} {l : List α} {ys : List β} :
    mapAll f l = some ys ↔ l.map f = ys.map some := by
  induction l generalizing ys with
  | nil =>
    rw [mapAll, List.map_nil, Option.some.injEq]
    constructor
    · rintro rfl
      rfl
    · intro h
      exact (List.map_eq_nil_iff.mp h.symm).symm
  | cons x l ih =>
    rw [mapAll, List.map_cons]
    cases hx : f x with
    | none => cases ys <;> simp
    | some y =>
      cases hl : mapAll f l with
      | none =>
        cases ys with
        | nil => simp
        | cons z zs =>
          have hne : l.map f ≠ zs.map some := fun h => by
            rw [← ih, hl] at h
            cases h
          simp [hne]
      | some rest =>
        have hrest : l.map f = rest.map some := ih.mp hl
        cases ys with
        | nil => simp
        | cons z zs =>
          rw [hrest]
          simp [(List.map_injective_iff.mpr (Option.some_injective β)).eq_iff]

theorem mapAll_congr {f g : α → Option β} {l : List α} (h : ∀ x ∈ l, f x = g x) :
    mapAll f l = mapAll g l := by
  induction l with
  | nil => rfl
  | cons x l ih =>
    rw [mapAll, mapAll, h x List.mem_cons_self, ih fun x hx => h x (List.mem_cons_of_mem _ hx)]

theorem mapAll_map {γ : Type} (f : α → Option β) (g : γ → α) (l : List γ) :
    mapAll f (l.map g) = mapAll (fun x => f (g x)) l := by
  induction l with
  | nil => rfl
  | cons x l ih => rw [List.map_cons, mapAll, mapAll, ih]

/-- Two loops with the same results have done the same. -/
theorem eq_of_mapAll {f g : α → Option β} {l : List α} {ys : List β} (hf : mapAll f l = some ys)
    (hg : mapAll g l = some ys) : ∀ x ∈ l, f x = g x := by
  rw [mapAll_eq_some_iff] at hf hg
  exact List.map_inj_left.mp (hf.trans hg.symm)

theorem isSome_of_mapAll {f : α → Option β} {l : List α} {ys : List β} (h : mapAll f l = some ys) :
    ∀ x ∈ l, ∃ y, f x = some y := by
  intro x hx
  rw [mapAll_eq_some_iff] at h
  have hmem : f x ∈ ys.map some := h ▸ List.mem_map_of_mem hx
  obtain ⟨y, -, hy⟩ := List.mem_map.mp hmem
  exact ⟨y, hy.symm⟩

theorem exists_mapAll {f : α → Option β} {l : List α} (h : ∀ x ∈ l, ∃ y, f x = some y) :
    ∃ ys, mapAll f l = some ys := by
  induction l with
  | nil => exact ⟨[], rfl⟩
  | cons x l ih =>
    obtain ⟨y, hy⟩ := h x List.mem_cons_self
    obtain ⟨ys, hys⟩ := ih fun x hx => h x (List.mem_cons_of_mem _ hx)
    exact ⟨y :: ys, by rw [mapAll, hy, hys]⟩

theorem length_of_mapAll {f : α → Option β} {l : List α} {ys : List β} (h : mapAll f l = some ys) :
    ys.length = l.length := by
  rw [mapAll_eq_some_iff] at h
  rw [← List.length_map (f := some), ← h, List.length_map]

/-- A result mapped on. -/
theorem map_mapAll {γ : Type} (f : α → Option β) (g : β → γ) (l : List α) :
    (mapAll f l).map (List.map g) = mapAll (fun x => (f x).map g) l := by
  induction l with
  | nil => rfl
  | cons x l ih =>
    rw [mapAll, mapAll, ← ih]
    cases f x with
    | none => rfl
    | some y =>
      cases mapAll f l with
      | none => rfl
      | some ys => rfl

/-- The result for an index. -/
theorem getElem?_of_mapAll {f : α → Option β} {l : List α} {ys : List β}
    (h : mapAll f l = some ys) {i : ℕ}
    (hi : i < l.length) : ∃ y, ys[i]? = some y ∧ f l[i] = some y := by
  have hlen := length_of_mapAll h
  rw [mapAll_eq_some_iff] at h
  have hget : (l.map f)[i]? = (ys.map some)[i]? := by rw [h]
  rw [List.getElem?_map, List.getElem?_map, List.getElem?_eq_getElem hi,
    List.getElem?_eq_getElem (by omega)] at hget
  refine ⟨ys[i], List.getElem?_eq_getElem _, ?_⟩
  simpa using hget

/-! ## Loops that fill an array -/

/-- A loop that writes the places of an array one behind the other, each by what stands before
it. -/
theorem foldl_set {f : List α → ℕ → α} {v : ℕ → α} {d : α} {a n : ℕ} {W : List α}
    (hW : ∀ j < a, W.getD j d = v j)
    (hf : ∀ L i, a ≤ i → i < a + n → (∀ j < i, L.getD j d = v j) → f L i = v i)
    (hn : a + n ≤ W.length) :
    ((List.range' a n).foldl (fun L i => L.set i (f L i)) W).length = W.length ∧
      ∀ j < a + n, ((List.range' a n).foldl (fun L i => L.set i (f L i)) W).getD j d = v j := by
  induction n with
  | zero => exact ⟨rfl, hW⟩
  | succ n ih =>
    obtain ⟨hlen, hbefore⟩ := ih (fun L i hi hlt => hf L i hi (by omega)) (by omega)
    rw [List.range'_1_concat, List.foldl_append, List.foldl_cons, List.foldl_nil]
    generalize (List.range' a n).foldl (fun L i => L.set i (f L i)) W = L at hlen hbefore ⊢
    refine ⟨by rw [List.length_set, hlen], fun j hj => ?_⟩
    rw [List.getD_eq_getElem?_getD, List.getElem?_set]
    split_ifs with hja hlt
    · rw [← hja, hf L (a + n) (Nat.le_add_right a n) (by omega) hbefore]
      rfl
    · omega
    · rw [← List.getD_eq_getElem?_getD]
      exact hbefore j (by omega)

end Catse
