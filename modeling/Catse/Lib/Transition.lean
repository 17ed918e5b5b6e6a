import Mathlib.Tactic.Common

/-!
# Runs of a state machine

A machine is a partial function `step` from a state and an action to the next state: an action that
is not enabled has no next state. `Reach step init ok` is the set of states that runs from `init`
end in, all of whose steps satisfy the condition `ok` on the state before the step and the action.
Properties of whole runs come from `Reach.invariant`, which asks for what one step preserves.
`exec` carries out a list of actions, so that a particular run can be computed.
-/

namespace Catse

variable {S A : Type*}

/-- The states that a run from `init` ends in, each of whose steps satisfies `ok`. -/
inductive Reach (step : S → A → Option S) (init : S) (ok : S → A → Prop) : S → Prop where
  | start : Reach step init ok init
  | next {s s' : S} {a : A} (run : Reach step init ok s) (hok : ok s a)
      (hstep : step s a = some s') : Reach step init ok s'

/-- No condition on the steps of a run. -/
def anyStep (_ : S) (_ : A) : Prop := True

namespace Reach

variable {step : S → A → Option S} {init : S} {ok ok' : S → A → Prop} {s : S}

/-- What holds at the start and is preserved by every step holds at the end of a run. -/
theorem invariant {I : S → Prop} (run : Reach step init ok s) (hinit : I init)
    (hnext : ∀ s a s', Reach step init ok s → I s → ok s a → step s a = some s' → I s') : I s := by
  induction run with
  | start => exact hinit
  | next run hok hstep ih => exact hnext _ _ _ run ih hok hstep

/-- A run whose steps satisfy a condition is one whose steps satisfy a weaker condition. -/
theorem mono (h : ∀ s a, ok s a → ok' s a) (run : Reach step init ok s) :
    Reach step init ok' s := by
  induction run with
  | start => exact .start
  | next _ hok hstep ih => exact .next ih (h _ _ hok) hstep

/-- A run under a condition is a run. -/
theorem any (run : Reach step init ok s) : Reach step init anyStep s :=
  run.mono fun _ _ _ => trivial

/-- When a property holds after a step exactly if it held before and the step satisfies `ok`, the
runs that end with the property are those all of whose steps satisfy `ok`. -/
theorem iff_of_step (good : S → Prop) (hinit : good init)
    (hnext : ∀ s a s', Reach step init anyStep s → step s a = some s' →
      (good s' ↔ good s ∧ ok s a)) :
    Reach step init ok s ↔ Reach step init anyStep s ∧ good s := by
  constructor
  · intro run
    refine ⟨run.any, ?_⟩
    exact run.invariant hinit fun s a s' run hgood hok hstep =>
      (hnext s a s' run.any hstep).mpr ⟨hgood, hok⟩
  · rintro ⟨run, hgood⟩
    -- The property goes down the run from its end, step by step.
    induction run with
    | start => exact .start
    | next run _ hstep ih =>
      obtain ⟨hgood', hok⟩ := (hnext _ _ _ run hstep).mp hgood
      exact (ih hgood').next hok hstep

end Reach

/-- The state after a list of actions. -/
def exec (step : S → A → Option S) (s : S) : List A → Option S
  | [] => some s
  | a :: as => (step s a).bind fun s' => exec step s' as

/-- Each of the actions satisfies the condition where it is taken. -/
def execOk (step : S → A → Option S) (ok : S → A → Prop) (s : S) : List A → Prop
  | [] => True
  | a :: as => ok s a ∧ ∀ s' ∈ step s a, execOk step ok s' as

instance execOk.decidable (step : S → A → Option S) (ok : S → A → Prop)
    [∀ s a, Decidable (ok s a)] : (s : S) → (as : List A) → Decidable (execOk step ok s as)
  | _, [] => .isTrue trivial
  | s, a :: as =>
    have (s' : S) : Decidable (execOk step ok s' as) := execOk.decidable step ok s' as
    inferInstanceAs (Decidable (ok s a ∧ ∀ s' ∈ step s a, execOk step ok s' as))

/-- The state that a list of actions leads to ends a run. -/
theorem reach_of_exec {step : S → A → Option S} {init s s' : S} {ok : S → A → Prop} {as : List A}
    (run : Reach step init ok s) (hok : execOk step ok s as) (h : exec step s as = some s') :
    Reach step init ok s' := by
  induction as generalizing s with
  | nil =>
    have he : s = s' := Option.some.inj h
    rw [← he]
    exact run
  | cons a as ih =>
    obtain ⟨t, ht, hrest⟩ := Option.bind_eq_some_iff.mp h
    exact ih (run.next hok.1 ht) (hok.2 t ht) hrest

/-- What each action of a list preserves, the list does. -/
theorem exec_invariant {step : S → A → Option S} {I : S → Prop} {s s' : S} {as : List A}
    (hs : I s) (hnext : ∀ s, ∀ a ∈ as, ∀ s', I s → step s a = some s' → I s')
    (h : exec step s as = some s') : I s' := by
  induction as generalizing s with
  | nil =>
    have he : s = s' := Option.some.inj h
    rwa [← he]
  | cons a as ih =>
    obtain ⟨t, ht, hrest⟩ := Option.bind_eq_some_iff.mp h
    exact ih (hnext s a List.mem_cons_self t hs ht)
      (fun s a ha => hnext s a (List.mem_cons_of_mem _ ha)) hrest

/-- Without a condition there is nothing to check along the way. -/
theorem execOk_any (step : S → A → Option S) (s : S) (as : List A) : execOk step anyStep s as := by
  induction as generalizing s with
  | nil => trivial
  | cons a as ih => exact ⟨trivial, fun s' _ => ih s'⟩

end Catse
