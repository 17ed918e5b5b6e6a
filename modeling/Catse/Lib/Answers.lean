import Mathlib.Data.List.Basic
import Mathlib.Tactic.Common

/-!
# Objects that answer calls

An object has a state and answers each call with a value. Two objects whose states are related, and
stay so, while their answers agree, answer every sequence of calls alike (`Simulates.answers_eq`).
One of them says what the other is for.
-/

namespace Catse

variable {S T C O : Type*}

/-- The answers to a sequence of calls. -/
def answers (step : S → C → O × S) (s : S) : List C → List O
  | [] => []
  | c :: cs => (step s c).1 :: answers step (step s c).2 cs

/-- Related states give the same answer to a call and are related after it. -/
structure Simulates (step : S → C → O × S) (step' : T → C → O × T) (R : S → T → Prop) : Prop where
  answer : ∀ s t c, R s t → (step s c).1 = (step' t c).1
  next : ∀ s t c, R s t → R (step s c).2 (step' t c).2

theorem Simulates.answers_eq {step : S → C → O × S} {step' : T → C → O × T} {R : S → T → Prop}
    (h : Simulates step step' R) {s : S} {t : T} (hst : R s t) (cs : List C) :
    answers step s cs = answers step' t cs := by
  induction cs generalizing s t with
  | nil => rfl
  | cons c cs ih => rw [answers, answers, h.answer s t c hst, ih (h.next s t c hst)]

end Catse
