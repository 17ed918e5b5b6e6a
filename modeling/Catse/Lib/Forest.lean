import Mathlib.Logic.Relation
import Mathlib.Tactic.Common

/-!
# Graphs in which a node has at most one parent

`child n m` says that the node `n` refers to the node `m`. Where no node has two parents, the nodes
below two different children of a node are different, unless the node is below itself, and two nodes
above a third are one above the other. So a graph of this kind is a forest as far as it has no
cycles.
-/

namespace Catse

open Relation

variable {N : Type*} {child : N → N → Prop}

/-- No node has two parents. -/
def OneParent (child : N → N → Prop) : Prop := ∀ n n' m, child n m → child n' m → n = n'

namespace OneParent

/-- Of two nodes above a third, one is above the other. -/
theorem above (h : OneParent child) {a b x : N} (ha : ReflTransGen child a x)
    (hb : ReflTransGen child b x) : ReflTransGen child a b ∨ ReflTransGen child b a := by
  have hunique : Relator.RightUnique (Function.swap child) := fun m n n' hn hn' => h n n' m hn hn'
  have ha' : ReflTransGen (Function.swap child) x a := reflTransGen_swap.mpr ha
  have hb' : ReflTransGen (Function.swap child) x b := reflTransGen_swap.mpr hb
  rcases ReflTransGen.total_of_right_unique hunique ha' hb' with hab | hba
  · exact Or.inr (reflTransGen_swap.mp hab)
  · exact Or.inl (reflTransGen_swap.mp hba)

/-- What is above a child of `n`, other than the child itself, is above `n`. -/
theorem above_child (h : OneParent child) {a n q : N} (hq : child n q)
    (ha : ReflTransGen child a q) (hne : a ≠ q) : ReflTransGen child a n := by
  rcases ReflTransGen.cases_tail ha with heq | ⟨n', ha', hq'⟩
  · exact absurd heq.symm hne
  · rw [h n n' q hq hq']
    exact ha'

/-- The nodes from one child of `n` on are not those from another child on, unless `n` is below
itself. -/
theorem disjoint (h : OneParent child) {n q q' x : N} (hn : ¬ TransGen child n n)
    (hq : child n q) (hq' : child n q') (hne : q ≠ q') (hx : ReflTransGen child q x) :
    ¬ ReflTransGen child q' x := by
  intro hx'
  rcases h.above hx hx' with hqq' | hq'q
  · exact hn (TransGen.head' hq (h.above_child hq' hqq' hne))
  · exact hn (TransGen.head' hq' (h.above_child hq hq'q hne.symm))

end OneParent

end Catse
