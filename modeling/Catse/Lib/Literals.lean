import Mathlib.Algebra.Group.Nat.Defs
import Mathlib.Order.Lattice

/-!
# String literals in a text

`Thinned` says that a list is another one without some of its elements, where it may depend on what
is kept of the elements after it whether an element can go. `literals` are the contents of the
string literals in a text of Lua, which begin and end with a double quote, with backslashes for
escapes, or with two brackets. A literal that does not end goes up to the end of the text. There are
no comments and no other literals here. `marks` is the text with the state of this reading before
and after each character, so that what is in a literal and what is not can be told apart when a text
is edited: if what goes is outside of literals, these stay (`contents_eq`).
-/

namespace Catse

/-! ## Elements that may go -/

section

variable {τ : Type} {D : τ → List τ → Prop}

/-- The second list is the first without some elements. An element may go before what is kept of the
others if `D` holds. -/
inductive Thinned (D : τ → List τ → Prop) : List τ → List τ → Prop where
  | nil : Thinned D [] []
  | keep (m : τ) {ms ns : List τ} (h : Thinned D ms ns) : Thinned D (m :: ms) (m :: ns)
  | drop {m : τ} {ms ns : List τ} (hm : D m ns) (h : Thinned D ms ns) : Thinned D (m :: ms) ns

namespace Thinned

/-- What does not depend on the elements that may go is the same. -/
theorem foldr_eq {β : Type} {f : τ → β → β} (hf : ∀ m ns, D m ns → ∀ r, f m r = r) (r : β)
    {ms ns : List τ} (h : Thinned D ms ns) : ns.foldr f r = ms.foldr f r := by
  induction h with
  | nil => rfl
  | keep m _ ih => rw [List.foldr_cons, List.foldr_cons, ih]
  | drop hm _ ih => rw [List.foldr_cons, hf _ _ hm, ih]

/-- An element that may not go has been kept. -/
theorem of_not {m : τ} {ms ns : List τ} (h : Thinned D (m :: ms) ns) (hm : ¬D m ns) :
    ∃ ns', ns = m :: ns' ∧ Thinned D ms ns' := by
  cases h with
  | keep m h => exact ⟨_, rfl, h⟩
  | drop hd h => exact absurd hd hm

/-- An element that does not come first has gone. -/
theorem of_ne {m : τ} {ms ns : List τ} (h : Thinned D (m :: ms) ns) (hm : ∀ ns', ns ≠ m :: ns') :
    D m ns ∧ Thinned D ms ns := by
  cases h with
  | keep m h => exact absurd rfl (hm _)
  | drop hd h => exact ⟨hd, h⟩

/-- One more element may go if no other element needs it. -/
theorem tail {m : τ} {ms ns : List τ} (h : Thinned D ms (m :: ns))
    (hm : ∀ n, D n (m :: ns) → D n ns) (hgo : D m ns) : Thinned D ms ns := by
  generalize hl : m :: ns = l at h
  induction h with
  | nil => cases hl
  | keep m h ih =>
    cases hl
    exact .drop hgo h
  | drop hd h ih =>
    rw [← hl] at hd
    exact .drop (hm _ hd) (ih hl)

/-- If both lists have the same first element then it might as well be the same one, when no element
needs it to go. -/
theorem of_cons {m : τ} {ms ns : List τ} (h : Thinned D (m :: ms) (m :: ns))
    (hm : ∀ n, D n (m :: ns) → D n ns) : Thinned D ms ns := by
  cases h with
  | keep m h => exact h
  | drop hd h => exact h.tail hm (hm m hd)

end Thinned

end

/-! ## Literals -/

/-- Where the reading of a text is: outside of literals, in a quoted literal, after a backslash in
one, after the first opening bracket, in a long literal, or after the first closing bracket. -/
inductive Mode where
  | code
  | quoted
  | escaped
  | opening
  | long
  | closing
  deriving DecidableEq

/-- The mode after a character, given what follows it. -/
def Mode.step (q : Mode) (x : UInt8) (a : List UInt8) : Mode :=
  match q with
  | code => if x = 34 then quoted else if x = 91 ∧ a.head? = some 91 then opening else code
  | quoted => if x = 92 then escaped else if x = 34 then code else quoted
  | escaped => quoted
  | opening => long
  | long => if x = 93 ∧ a.head? = some 93 then closing else long
  | closing => code

/-- A character with the modes before and after it. -/
structure Mark where
  before : Mode
  char : UInt8
  after : Mode
  deriving DecidableEq

/-- The characters of a text with their modes. -/
def marks (q : Mode) : List UInt8 → List Mark
  | [] => []
  | x :: a => ⟨q, x, q.step x a⟩ :: marks (q.step x a) a

/-- A character is added, from the right: to the content of the literal that has been read in part,
which goes to the others where the literal begins. -/
def Mark.add (m : Mark) (r : List UInt8 × List (List UInt8)) : List UInt8 × List (List UInt8) :=
  match m.before, m.after with
  | .code, .quoted => ([], r.1 :: r.2)
  | .code, .opening => ([], r.1 :: r.2)
  | .quoted, .quoted => (m.char :: r.1, r.2)
  | .quoted, .escaped => (m.char :: r.1, r.2)
  | .escaped, .quoted => (m.char :: r.1, r.2)
  | .long, .long => (m.char :: r.1, r.2)
  | _, _ => r

/-- The contents of the literals. -/
def contents (ms : List Mark) : List (List UInt8) := (ms.foldr Mark.add ([], [])).2

/-- The contents of the literals in a text. -/
def literals (a : List UInt8) : List (List UInt8) := contents (marks .code a)

/-- If only characters outside of literals go then the contents of the literals are the same. -/
theorem contents_eq {D : Mark → List Mark → Prop}
    (hD : ∀ m ns, D m ns → m.before = .code ∧ m.after = .code) {ms ns : List Mark}
    (h : Thinned D ms ns) : contents ns = contents ms := by
  have hadd : ∀ m ns, D m ns → ∀ r, m.add r = r := by
    intro m ns hm r
    obtain ⟨hbefore, hafter⟩ := hD m ns hm
    rw [Mark.add, hbefore, hafter]
  exact congrArg Prod.snd (h.foldr_eq hadd ([], []))

theorem marks_cons (q : Mode) (x : UInt8) (a : List UInt8) :
    marks q (x :: a) = ⟨q, x, q.step x a⟩ :: marks (q.step x a) a := rfl

theorem head?_marks (q : Mode) (a : List UInt8) : (marks q a).head?.map Mark.char = a.head? := by
  cases a with
  | nil => rfl
  | cons x a => rfl

/-- A text is needed after a character only to tell two brackets from one. -/
theorem Mode.step_congr {q : Mode} {x : UInt8} {a b : List UInt8}
    (hopen : q = .code → x = 91 → (a.head? = some 91 ↔ b.head? = some 91))
    (hclose : q = .long → x = 93 → (a.head? = some 93 ↔ b.head? = some 93)) :
    q.step x a = q.step x b := by
  cases q with
  | code =>
    by_cases hx : x = 91
    · simp only [step, hopen rfl hx]
    · simp only [step, hx, false_and]
  | long =>
    by_cases hx : x = 93
    · simp only [step, hclose rfl hx]
    · simp only [step, hx, false_and]
  | quoted => rfl
  | escaped => rfl
  | opening => rfl
  | closing => rfl

end Catse
