import Catse.Lib.Loops
import Mathlib.Algebra.Group.Nat.Defs
import Mathlib.Order.Lattice

/-!
# Strings that only get shorter

A program that edits strings where they are, and only ever removes from them, cannot undo an edit:
if at the end the strings are what they were at the start, then they were so all the time, and no
step has edited any. `Shortened` is the order behind this. `Settles` says it of a part of a run:
the strings that are watched get shorter, they stay only if the part has found them settled, and if
it has then what it was to do is done. Parts in a row and loops of `mapState` compose.
-/

namespace Catse

variable {τ : Type}

/-- As it was, or shorter. -/
def Shortened (a b : List τ) : Prop := b = a ∨ b.length < a.length

namespace Shortened

variable {a b c : List τ}

theorem refl (a : List τ) : Shortened a a := .inl rfl

theorem length_le (h : Shortened a b) : b.length ≤ a.length := by
  rcases h with rfl | h
  · exact le_rfl
  · exact h.le

theorem trans (hab : Shortened a b) (hbc : Shortened b c) : Shortened a c := by
  rcases hbc with rfl | hbc
  · exact hab
  · exact .inr (lt_of_lt_of_le hbc hab.length_le)

theorem antisymm (hab : Shortened a b) (hba : Shortened b a) : b = a := by
  rcases hab with rfl | hab
  · rfl
  · exact absurd hba.length_le (not_le.mpr hab)

/-- What is unchanged after two edits was unchanged after the first. -/
theorem eq_of_eq (hab : Shortened a b) (hbc : Shortened b c) (h : c = a) : b = a :=
  hab.antisymm (h ▸ hbc)

/-- Two edits change nothing when neither does. -/
theorem comp_eq_iff {f g : List τ → List τ} (hf : ∀ a, Shortened a (f a))
    (hg : ∀ a, Shortened a (g a)) (a : List τ) :
    f (g a) = a ↔ g a = a ∧ f a = a := by
  constructor
  · intro h
    have hga : g a = a := (hg a).eq_of_eq (hf (g a)) h
    rw [hga] at h
    exact ⟨hga, h⟩
  · rintro ⟨hga, hfa⟩
    rw [hga, hfa]

end Shortened

section

variable {ι σ α β ε : Type} {V : σ → ι → List τ} {E : σ → σ → Prop}

/-- A part of a run, from `s` to `s'`, that leaves the strings which are watched as they are exactly
where these are `ok`, and then does `Q`. -/
structure Settles (view : σ → ι → List τ) (E : σ → σ → Prop) (ok : (ι → List τ) → Prop)
    (Q : (ι → List τ) → σ → Prop) (s s' : σ) : Prop where
  shortened : ∀ i, Shortened (view s i) (view s' i)
  still : view s' = view s → ok (view s)
  keeps : ok (view s) → view s' = view s ∧ E s s' ∧ Q (view s) s'

namespace Settles

variable {ok ok' : (ι → List τ) → Prop} {Q Q' : (ι → List τ) → σ → Prop} {s s' s'' : σ}

/-- Strings that are unchanged after two parts were unchanged after the first. -/
theorem view_eq (h : Settles V E ok Q s s') (h' : Settles V E ok' Q' s' s'')
    (heq : V s'' = V s) : V s' = V s :=
  funext fun i => (h.shortened i).eq_of_eq (h'.shortened i) (congrFun heq i)

/-- Two parts in a row. -/
theorem seq (h : Settles V E ok Q s s') (h' : Settles V E ok' Q' s' s'')
    (htrans : ∀ {s s' s''}, E s s' → E s' s'' → E s s'')
    (hQ : ∀ {v s s'}, E s s' → Q v s → Q v s') :
    Settles V E (fun v => ok v ∧ ok' v) (fun v s => Q v s ∧ Q' v s) s s'' where
  shortened := fun i => (h.shortened i).trans (h'.shortened i)
  still := by
    intro heq
    have hmid := h.view_eq h' heq
    have hok' := h'.still (heq.trans hmid.symm)
    rw [hmid] at hok'
    exact ⟨h.still hmid, hok'⟩
  keeps := by
    rintro ⟨hok, hok'⟩
    obtain ⟨hmid, hE, hq⟩ := h.keeps hok
    rw [← hmid] at hok'
    obtain ⟨hend, hE', hq'⟩ := h'.keeps hok'
    rw [hmid] at hend hq'
    exact ⟨hend, htrans hE hE', hQ hE' hq, hq'⟩

/-- The same part, with what it says put differently. -/
theorem imp (h : Settles V E ok Q s s') (hok : ok (V s) ↔ ok' (V s))
    (hQ : ok (V s) → Q (V s) s' → Q' (V s) s') : Settles V E ok' Q' s s' where
  shortened := h.shortened
  still := fun heq => hok.mp (h.still heq)
  keeps := fun hok' =>
    let hok₁ := hok.mpr hok'
    let ⟨heq, hE, hq⟩ := h.keeps hok₁
    ⟨heq, hE, hQ hok₁ hq⟩

end Settles

/-- A loop settles where its rounds do. -/
theorem mapState_settles {P : σ → Prop} {K : α → (ι → List τ) → Prop}
    {Q : (ι → List τ) → σ → α → β → Prop} (hrefl : ∀ s, E s s)
    (htrans : ∀ {s s' s''}, E s s' → E s' s'' → E s s'')
    (hQ : ∀ {v s s' x y}, E s s' → Q v s x y → Q v s' x y) {f : α → σ → Except ε (β × σ)}
    {l : List α} (hf : ∀ x ∈ l, ∀ s y s', P s → f x s = .ok (y, s') →
      P s' ∧ Settles V E (K x) (fun v s => Q v s x y) s s') {s s' : σ} {ys : List β}
    (hs : P s) (h : mapState f l s = .ok (ys, s')) :
    P s' ∧ Settles V E (fun v => ∀ x ∈ l, K x v) (fun v s => List.Forall₂ (Q v s) l ys) s s' := by
  induction l generalizing s ys with
  | nil =>
    cases h
    exact ⟨hs, fun i => .refl _, fun _ x hx => absurd hx List.not_mem_nil,
      fun _ => ⟨rfl, hrefl _, List.Forall₂.nil⟩⟩
  | cons x l ih =>
    obtain ⟨y, s₁, ys', hx, hl, rfl⟩ := mapState_cons h
    obtain ⟨hP₁, hround⟩ := hf x List.mem_cons_self s y s₁ hs hx
    obtain ⟨hP, hrest⟩ := ih (fun x hx => hf x (List.mem_cons_of_mem _ hx)) hP₁ hl
    refine ⟨hP, (hround.seq hrest htrans hQ).imp ?_ ?_⟩
    · exact (List.forall_mem_cons (p := fun x => K x (V s))).symm
    · rintro - ⟨hq, hqs⟩
      exact List.Forall₂.cons hq hqs

end

end Catse
