import Mathlib.Algebra.BigOperators.Pi
import Mathlib.Algebra.Order.BigOperators.Group.Finset
import Mathlib.Data.Multiset.UnionInter
import Mathlib.Algebra.BigOperators.Group.Multiset.Basic
import Mathlib.Tactic.Common

/-!
# Tokens in the custody of places

A finite set of places holds tokens, each place a list of them. What the places hold together is a
multiset (`tokens`), and a move of one token from a place to another leaves it unchanged
(`Moved.tokens_eq`). When no token occurs twice in it, every token is in exactly one place, once.
This is the bookkeeping behind a pool of buffers that several threads pass through queues: the
places are the free list, the queues, and the threads' hands.
-/

namespace Catse.Custody

variable {P T : Type*} [Fintype P]

/-- All the tokens that the places hold together. -/
def tokens (h : P → List T) : Multiset T := ∑ p, (h p : Multiset T)

/-- The token `t` goes from the place `p` to the place `q`, whatever the order of the lists, and the
other places are unchanged. -/
structure Moved (h h' : P → List T) (t : T) (p q : P) : Prop where
  ne : p ≠ q
  source : (h p).Perm (t :: h' p)
  target : (h' q).Perm (t :: h q)
  frame : ∀ r, r ≠ p → r ≠ q → h' r = h r

/-- A move leaves the tokens unchanged. -/
theorem Moved.tokens_eq {h h' : P → List T} {t : T} {p q : P} (m : Moved h h' t p q) :
    tokens h' = tokens h := by
  classical
  obtain ⟨hne, hs, ht, hf⟩ := m
  -- Place by place, what `h'` holds with the token back at `p` is what `h` holds with it at `q`.
  have hplace : ∀ r, (h' r : Multiset T) + (Pi.single p {t} : P → Multiset T) r =
      (h r : Multiset T) + (Pi.single q {t} : P → Multiset T) r := by
    intro r
    by_cases hp : r = p
    · subst hp
      rw [Pi.single_eq_same, Pi.single_eq_of_ne hne, add_zero, Multiset.coe_eq_coe.mpr hs,
        ← Multiset.cons_coe, add_comm, Multiset.singleton_add]
    · by_cases hq : r = q
      · subst hq
        rw [Pi.single_eq_of_ne hp, Pi.single_eq_same, add_zero, Multiset.coe_eq_coe.mpr ht,
          ← Multiset.cons_coe, add_comm, Multiset.singleton_add]
      · rw [Pi.single_eq_of_ne hp, Pi.single_eq_of_ne hq, hf r hp hq]
  have hsum := Finset.sum_congr (rfl : (Finset.univ : Finset P) = Finset.univ)
    (fun r _ => hplace r)
  rw [Finset.sum_add_distrib, Finset.sum_add_distrib, Finset.sum_pi_single', Finset.sum_pi_single',
    if_pos (Finset.mem_univ p), if_pos (Finset.mem_univ q)] at hsum
  exact add_right_cancel hsum

/-- What one place holds is part of what they hold together. -/
theorem coe_le_tokens (h : P → List T) (p : P) : (h p : Multiset T) ≤ tokens h :=
  Finset.single_le_sum (f := fun p => (h p : Multiset T)) (fun _ _ => Multiset.zero_le _)
    (Finset.mem_univ p)

/-- What two places hold is part of what they hold together. -/
theorem coe_add_le_tokens (h : P → List T) {p q : P} (hne : p ≠ q) :
    (h p : Multiset T) + (h q : Multiset T) ≤ tokens h := by
  classical
  rw [← Finset.sum_pair (f := fun p => (h p : Multiset T)) hne]
  exact Finset.sum_le_sum_of_subset (Finset.subset_univ _)

/-- Two places together hold at most as many tokens as there are. -/
theorem length_add_le {h : P → List T} {p q : P} (hne : p ≠ q) :
    (h p).length + (h q).length ≤ (tokens h).card := by
  have := Multiset.card_le_card (coe_add_le_tokens h hne)
  simpa using this

/-- A token in some place is one of the tokens. -/
theorem mem_tokens {h : P → List T} {t : T} : t ∈ tokens h ↔ ∃ p, t ∈ h p := by
  simp [tokens, Multiset.mem_sum]

section Nodup

variable {h : P → List T} (hn : (tokens h).Nodup)
include hn

/-- No place holds a token twice. -/
theorem nodup_place (p : P) : (h p).Nodup :=
  Multiset.coe_nodup.mp (Multiset.nodup_of_le (coe_le_tokens h p) hn)

/-- No two places hold the same token. -/
theorem place_unique {t : T} {p q : P} (hp : t ∈ h p) (hq : t ∈ h q) : p = q := by
  by_contra hne
  have hle := Multiset.nodup_of_le (coe_add_le_tokens h hne) hn
  exact (Multiset.disjoint_left.mp (Multiset.nodup_add.mp hle).2.2) hp hq

end Nodup

end Catse.Custody
