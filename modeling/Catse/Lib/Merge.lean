import Mathlib.Data.List.Basic
import Mathlib.Data.List.Pairwise
import Mathlib.Tactic.Common

/-!
# Merging first-in first-out sources

Several sources put entries into one sequence, each entry tagged with its source, and a consumer
that sees the sources one by one takes them out again. What a source still holds is the part of the
rest of the sequence that has its tag (`ofSource`). When the entries carry increasing keys, taking
the front of a source whose key is below all keys of the other sources takes the front of the whole
sequence (`cons_of_least`), so a consumer that always does so takes a prefix of it.
-/

namespace Catse.Merge

variable {R E : Type*}

/-- Keys increase along the sequence. -/
def Increasing (key : E → ℕ) (l : List (R × E)) : Prop :=
  l.Pairwise fun e e' => key e.2 < key e'.2

theorem Increasing.snoc {key : E → ℕ} {l : List (R × E)} (h : Increasing key l) {e : R × E}
    (he : ∀ e' ∈ l, key e'.2 < key e.2) : Increasing key (l ++ [e]) := by
  apply List.pairwise_append.mpr
  refine ⟨h, List.pairwise_singleton _ _, ?_⟩
  intro e' he' x hx
  rw [List.mem_singleton.mp hx]
  exact he e' he'

variable [DecidableEq R]

/-- The entries of the source `r`, oldest first. -/
def ofSource (r : R) (l : List (R × E)) : List (R × E) := l.filter fun e => e.1 = r

@[simp] theorem ofSource_nil (r : R) : ofSource r ([] : List (R × E)) = [] := rfl

@[simp] theorem ofSource_append (r : R) (l l' : List (R × E)) :
    ofSource r (l ++ l') = ofSource r l ++ ofSource r l' :=
  List.filter_append ..

@[simp] theorem ofSource_single_self (r : R) (x : E) : ofSource r [(r, x)] = [(r, x)] := by
  simp [ofSource]

theorem ofSource_single_of_ne {r r' : R} (h : r' ≠ r) (x : E) : ofSource r [(r', x)] = [] := by
  simp [ofSource, h]

theorem mem_ofSource {r : R} {l : List (R × E)} {e : R × E} :
    e ∈ ofSource r l ↔ e ∈ l ∧ e.1 = r := by
  simp [ofSource]

/-- The first entry of a source is its least. -/
theorem Increasing.least_of_source {key : E → ℕ} {l t : List (R × E)} (h : Increasing key l)
    {r : R} {x : E} (hr : ofSource r l = (r, x) :: t) :
    ∀ e ∈ ofSource r l, e = (r, x) ∨ key x < key e.2 := by
  have hsub : (ofSource r l).Pairwise fun e e' => key e.2 < key e'.2 :=
    List.Pairwise.filter _ h
  rw [hr] at hsub ⊢
  intro e he
  rcases List.mem_cons.mp he with heq | hmem
  · exact .inl heq
  · exact .inr ((List.pairwise_cons.mp hsub).1 e hmem)

/-- The front of a source is the front of the sequence when its key is below those of the other
sources. -/
theorem Increasing.cons_of_least {key : E → ℕ} {l t : List (R × E)} (h : Increasing key l)
    {r : R} {x : E} (hr : ofSource r l = (r, x) :: t)
    (hleast : ∀ e ∈ l, e.1 ≠ r → key x < key e.2) : ∃ l', l = (r, x) :: l' := by
  cases l with
  | nil => exact absurd hr (by simp)
  | cons e l' =>
    obtain ⟨r', y⟩ := e
    have hmem : (r, x) ∈ (r', y) :: l' := by
      have : (r, x) ∈ ofSource r ((r', y) :: l') := by
        rw [hr]
        exact List.mem_cons_self
      exact (mem_ofSource.mp this).1
    rcases List.mem_cons.mp hmem with heq | hlater
    · exact ⟨l', by rw [← heq]⟩
    · -- Some entry stands before it: it is of another source, and has a smaller key.
      have hlt : key y < key x := (List.pairwise_cons.mp h).1 (r, x) hlater
      by_cases hr' : r' = r
      · have hself : (r', y) ∈ ofSource r ((r', y) :: l') :=
          mem_ofSource.mpr ⟨List.mem_cons_self, hr'⟩
        rcases h.least_of_source hr _ hself with heq | hgt
        · have hy : y = x := (Prod.mk.inj heq).2
          rw [hy] at hlt
          exact absurd hlt (Nat.lt_irrefl _)
        · exact absurd hgt (Nat.lt_asymm hlt)
      · have hgt : key x < key y := hleast (r', y) List.mem_cons_self hr'
        exact absurd hgt (Nat.lt_asymm hlt)

/-- What each source holds, when the sequence starts with the entries taken so far. -/
theorem ofSource_rest {taken rest : List (R × E)} {r : R} {held : List (R × E)}
    (h : ofSource r (taken ++ rest) = ofSource r taken ++ held) : ofSource r rest = held := by
  rw [ofSource_append] at h
  exact List.append_cancel_left h

end Catse.Merge
