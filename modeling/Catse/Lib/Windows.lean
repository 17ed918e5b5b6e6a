import Mathlib.Algebra.Order.Group.Defs
import Mathlib.Algebra.Order.Group.Int
import Mathlib.Data.List.Pairwise
import Mathlib.Tactic.Common

/-!
# Limiters whose windows start at an accepted call

A limiter accepts at most `c` calls in a window of length `s`. A window does not start at a fixed
time: the first call that comes when the last window is over is accepted and starts the next one.
The calls carry their times, which do not decrease.

Any half-open interval of length `s` meets at most two windows, so at most `2 * c` calls with times
in it are accepted (`length_admitted_le`). Two windows behave alike from some moment on exactly if
both are over by then, or if they started at the same time and leave the same number of calls
(`alike_iff`).
-/

namespace Catse

/-- A window: its start, and the number of calls that it has accepted. -/
structure Window (T : Type*) where
  start : T
  used : ℤ

namespace Window

variable {T : Type*} [AddCommGroup T] [LinearOrder T]

/-- A call at the time `t`: whether it is accepted, and the window after it. -/
def call (c : ℤ) (s : T) (w : Window T) (t : T) : Bool × Window T :=
  if t < w.start + s ∧ c ≤ w.used then (false, w)
  else if w.start + s ≤ t then (true, ⟨t, 1⟩)
  else (true, ⟨w.start, w.used + 1⟩)

/-- Which of the calls at the times `ts` are accepted. -/
def decisions (c : ℤ) (s : T) (w : Window T) : List T → List Bool
  | [] => []
  | t :: ts => (w.call c s t).1 :: decisions c s (w.call c s t).2 ts

/-- The times of those that are accepted. -/
def admitted (c : ℤ) (s : T) (w : Window T) : List T → List T
  | [] => []
  | t :: ts =>
    if (w.call c s t).1 then t :: admitted c s (w.call c s t).2 ts
    else admitted c s (w.call c s t).2 ts

variable {c : ℤ} {s : T} {w w' : Window T} {t now : T} {ts : List T}

/-! ## One call -/

theorem call_over (h : w.start + s ≤ t) : w.call c s t = (true, ⟨t, 1⟩) := by
  unfold call
  rw [if_neg fun hopen => absurd hopen.1 (not_lt.mpr h), if_pos h]

theorem call_full (h : t < w.start + s) (hused : c ≤ w.used) : w.call c s t = (false, w) := by
  unfold call
  rw [if_pos ⟨h, hused⟩]

theorem call_room (h : t < w.start + s) (hused : w.used < c) :
    w.call c s t = (true, ⟨w.start, w.used + 1⟩) := by
  unfold call
  rw [if_neg fun hopen => absurd hopen.2 (not_le.mpr hused), if_neg (not_le.mpr h)]

/-- A call finds the window over, full, or with room. -/
theorem call_cases (c : ℤ) (s : T) (w : Window T) (t : T) :
    (w.start + s ≤ t ∧ w.call c s t = (true, ⟨t, 1⟩)) ∨
      (t < w.start + s ∧ c ≤ w.used ∧ w.call c s t = (false, w)) ∨
        (t < w.start + s ∧ w.used < c ∧ w.call c s t = (true, ⟨w.start, w.used + 1⟩)) := by
  rcases le_or_gt (w.start + s) t with hover | hopen
  · exact .inl ⟨hover, call_over hover⟩
  rcases le_or_gt c w.used with hfull | hroom
  · exact .inr (.inl ⟨hopen, hfull, call_full hopen hfull⟩)
  · exact .inr (.inr ⟨hopen, hroom, call_room hopen hroom⟩)

/-- A call is refused by an open window that is full. -/
theorem of_refused (h : (w.call c s t).1 = false) : t < w.start + s ∧ c ≤ w.used := by
  rcases call_cases c s w t with ⟨-, heq⟩ | ⟨hopen, hfull, -⟩ | ⟨-, -, heq⟩
  · rw [heq] at h
    cases h
  · exact ⟨hopen, hfull⟩
  · rw [heq] at h
    cases h

/-! ## How many calls are accepted -/

theorem mem_of_mem_admitted (h : t ∈ w.admitted c s ts) : t ∈ ts := by
  induction ts generalizing w with
  | nil => exact h
  | cons t' ts ih =>
    unfold admitted at h
    split_ifs at h with haccept
    · rcases List.mem_cons.mp h with rfl | h
      · exact List.mem_cons_self
      · exact List.mem_cons_of_mem _ (ih h)
    · exact List.mem_cons_of_mem _ (ih h)

/-- The number of accepted calls with times that satisfy `p`. -/
def count (c : ℤ) (s : T) (w : Window T) (ts : List T) (p : T → Bool) : ℤ :=
  (((w.admitted c s ts).filter p).length : ℤ)

/-- The first call counts by itself. -/
theorem count_cons (c : ℤ) (s : T) (w : Window T) (t : T) (ts : List T) (p : T → Bool) :
    w.count c s (t :: ts) p =
      (if (w.call c s t).1 && p t then 1 else 0) + (w.call c s t).2.count c s ts p := by
  unfold count
  rw [admitted]
  cases (w.call c s t).1 with
  | false => simp
  | true =>
    cases hp : p t with
    | false => simp [hp]
    | true =>
      simp [hp]
      omega

theorem count_eq_zero (p : T → Bool) (h : ∀ t ∈ ts, p t = false) : w.count c s ts p = 0 := by
  unfold count
  rw [List.filter_eq_nil_iff.mpr]
  · rfl
  · intro t ht
    rw [h t (mem_of_mem_admitted ht)]
    exact Bool.false_ne_true

/-- Up to the end of a window, only what it leaves is accepted. -/
theorem count_before_end (hsorted : ts.Pairwise (· ≤ ·)) {p : T → Bool}
    (hp : ∀ t, p t = true → t < w.start + s) : w.count c s ts p ≤ max 0 (c - w.used) := by
  induction ts generalizing w with
  | nil => exact le_max_left _ _
  | cons t ts ih =>
    obtain ⟨hle, hsorted⟩ := List.pairwise_cons.mp hsorted
    rw [count_cons]
    rcases call_cases c s w t with ⟨hover, heq⟩ | ⟨-, -, heq⟩ | ⟨-, hroom, heq⟩
    · -- The times that come are past the end of the window.
      have hlate : ∀ t' ∈ t :: ts, p t' = false := by
        intro t' ht'
        have hge : t ≤ t' := by
          rcases List.mem_cons.mp ht' with rfl | ht'
          · exact le_rfl
          · exact hle t' ht'
        by_contra htrue
        exact absurd (hp t' (Bool.eq_true_of_not_eq_false htrue)) (not_lt.mpr (hover.trans hge))
      rw [hlate t List.mem_cons_self, Bool.and_false, if_neg Bool.false_ne_true,
        count_eq_zero p fun t' ht' => hlate t' (List.mem_cons_of_mem _ ht')]
      exact le_max_left _ _
    · rw [heq, Bool.false_and, if_neg Bool.false_ne_true, zero_add]
      exact ih hsorted hp
    · rw [heq]
      have hrest := ih (w := ⟨w.start, w.used + 1⟩) hsorted hp
      dsimp only at hrest ⊢
      split_ifs <;> omega

variable [IsOrderedAddMonoid T]

/-- From the moment `a` on and for the length of a window, what this window leaves is accepted, and
what another one has. -/
theorem count_from (hc : 1 ≤ c) (hsorted : ts.Pairwise (· ≤ ·)) {a : T} (ha : ∀ t ∈ ts, a ≤ t) :
    w.count c s ts (fun t => a ≤ t ∧ t < a + s) ≤ max 0 (c - w.used) + c := by
  induction ts generalizing w with
  | nil => exact (le_max_left _ _).trans (le_add_of_nonneg_right (by omega))
  | cons t ts ih =>
    obtain ⟨hle, hsorted⟩ := List.pairwise_cons.mp hsorted
    have ha' : ∀ t' ∈ ts, a ≤ t' := fun t' ht' => ha t' (List.mem_cons_of_mem _ ht')
    rw [count_cons]
    rcases call_cases c s w t with ⟨-, heq⟩ | ⟨-, -, heq⟩ | ⟨-, hroom, heq⟩
    · -- The window that starts here lasts longer than the interval.
      have hend : a + s ≤ t + s := add_le_add_left (ha t List.mem_cons_self) s
      have hrest : (⟨t, 1⟩ : Window T).count c s ts (fun t => a ≤ t ∧ t < a + s) ≤
          max 0 (c - 1) :=
        count_before_end hsorted fun t' ht' => (of_decide_eq_true ht').2.trans_le hend
      rw [heq]
      dsimp only at hrest ⊢
      split_ifs <;> omega
    · rw [heq, Bool.false_and, if_neg Bool.false_ne_true, zero_add]
      exact ih hsorted ha'
    · rw [heq]
      have hrest := ih (w := ⟨w.start, w.used + 1⟩) hsorted ha'
      dsimp only at hrest ⊢
      split_ifs <;> omega

/-- In any interval of the length of a window, at most twice as many calls are accepted as a window
accepts. -/
theorem count_le (hc : 1 ≤ c) (hused : 0 ≤ w.used) (hsorted : ts.Pairwise (· ≤ ·)) (a : T) :
    w.count c s ts (fun t => a ≤ t ∧ t < a + s) ≤ 2 * c := by
  induction ts generalizing w with
  | nil => exact Int.mul_nonneg (by omega) (by omega)
  | cons t ts ih =>
    rcases le_or_gt a t with hat | hta
    · -- The interval has begun.
      have hfrom : ∀ t' ∈ t :: ts, a ≤ t' := by
        intro t' ht'
        rcases List.mem_cons.mp ht' with rfl | ht'
        · exact hat
        · exact hat.trans ((List.pairwise_cons.mp hsorted).1 t' ht')
      have := count_from (w := w) (s := s) hc hsorted hfrom
      omega
    · have hused' : 0 ≤ (w.call c s t).2.used := by
        rcases call_cases c s w t with ⟨-, heq⟩ | ⟨-, -, heq⟩ | ⟨-, -, heq⟩ <;> rw [heq]
        · exact zero_le_one
        · exact hused
        · exact add_nonneg hused zero_le_one
      rw [count_cons, decide_eq_false fun h : a ≤ t ∧ t < a + s => absurd h.1 (not_le.mpr hta),
        Bool.and_false, if_neg Bool.false_ne_true, zero_add]
      exact ih hused' (List.pairwise_cons.mp hsorted).2

/-- The accepted calls with times in an interval of the length of a window. -/
theorem length_admitted_le (hc : 1 ≤ c) (hused : 0 ≤ w.used) (hsorted : ts.Pairwise (· ≤ ·))
    (a : T) :
    (((w.admitted c s ts).filter fun t => a ≤ t ∧ t < a + s).length : ℤ) ≤ 2 * c :=
  count_le hc hused hsorted a

/-! ## Windows that behave alike -/

/-- From `now` on, both windows are over, or both are open, end together and leave the same. -/
def SameFrom (c : ℤ) (s now : T) (w w' : Window T) : Prop :=
  (w.start + s ≤ now ∧ w'.start + s ≤ now) ∨
    (now < w.start + s ∧ w.start = w'.start ∧ min w.used c = min w'.used c)

omit [IsOrderedAddMonoid T] in
theorem SameFrom.refl (c : ℤ) (s now : T) (w : Window T) : SameFrom c s now w w := by
  rcases le_or_gt (w.start + s) now with hover | hopen
  · exact .inl ⟨hover, hover⟩
  · exact .inr ⟨hopen, rfl, rfl⟩

omit [IsOrderedAddMonoid T] in
theorem SameFrom.mono (h : SameFrom c s now w w') (ht : now ≤ t) : SameFrom c s t w w' := by
  rcases h with ⟨hover, hover'⟩ | ⟨-, hstart, hused⟩
  · exact .inl ⟨hover.trans ht, hover'.trans ht⟩
  · rcases le_or_gt (w.start + s) t with hover | hopen
    · exact .inl ⟨hover, hstart ▸ hover⟩
    · exact .inr ⟨hopen, hstart, hused⟩

omit [IsOrderedAddMonoid T] in
/-- A call finds no difference, and leaves none. -/
theorem SameFrom.call (h : SameFrom c s now w w') (ht : now ≤ t) :
    (w.call c s t).1 = (w'.call c s t).1 ∧ SameFrom c s t (w.call c s t).2 (w'.call c s t).2 := by
  rcases h with ⟨hover, hover'⟩ | ⟨-, hstart, hused⟩
  · rw [call_over (hover.trans ht), call_over (hover'.trans ht)]
    exact ⟨rfl, .refl c s t _⟩
  rcases call_cases c s w t with ⟨hover, heq⟩ | ⟨hopen, hfull, heq⟩ | ⟨hopen, hroom, heq⟩
  · rw [heq, call_over (hstart ▸ hover)]
    exact ⟨rfl, .refl c s t _⟩
  · rw [heq, call_full (hstart ▸ hopen) (by omega)]
    exact ⟨rfl, .inr ⟨hopen, hstart, hused⟩⟩
  · -- There is room in both, so that they have used the same number.
    have hsame : w.used = w'.used := by omega
    rw [heq, call_room (hstart ▸ hopen) (by omega), hstart, hsame]
    exact ⟨rfl, .refl c s t _⟩

/-- The calls at any times from `now` on are accepted by both or by neither. -/
def Alike (c : ℤ) (s now : T) (w w' : Window T) : Prop :=
  ∀ ts : List T, ts.Pairwise (· ≤ ·) → (∀ t ∈ ts, now ≤ t) →
    w.decisions c s ts = w'.decisions c s ts

omit [IsOrderedAddMonoid T] in
theorem SameFrom.alike (h : SameFrom c s now w w') : Alike c s now w w' := by
  intro ts hsorted hfrom
  induction ts generalizing now w w' with
  | nil => rfl
  | cons t ts ih =>
    obtain ⟨hle, hsorted⟩ := List.pairwise_cons.mp hsorted
    obtain ⟨hsame, hnext⟩ := h.call (hfrom t List.mem_cons_self)
    rw [decisions, decisions, hsame, ih hnext hsorted hle]

omit [IsOrderedAddMonoid T] in
theorem Alike.symm (h : Alike c s now w w') : Alike c s now w' w :=
  fun ts hsorted hfrom => (h ts hsorted hfrom).symm

omit [IsOrderedAddMonoid T] in
/-- Windows that behave alike agree on each call. -/
theorem Alike.call (h : Alike c s now w w') (ht : now ≤ t) :
    (w.call c s t).1 = (w'.call c s t).1 ∧ Alike c s t (w.call c s t).2 (w'.call c s t).2 := by
  constructor
  · have hone := h [t] (List.pairwise_singleton _ _) (List.forall_mem_singleton.mpr ht)
    exact List.head_eq_of_cons_eq hone
  · intro ts hsorted hfrom
    have hcons := h (t :: ts) (List.pairwise_cons.mpr ⟨hfrom, hsorted⟩)
      (List.forall_mem_cons.mpr ⟨ht, fun t' ht' => ht.trans (hfrom t' ht')⟩)
    exact List.tail_eq_of_cons_eq hcons

/-- Of two full windows the one that started first accepts a call when it is over. -/
theorem Alike.start_le (h : Alike c s now w w') (hopen : now < w.start + s) (hfull : c ≤ w'.used) :
    w'.start ≤ w.start := by
  by_contra hlt
  have hend : w.start + s < w'.start + s := add_lt_add_left (not_le.mp hlt) s
  have hsame := (h.call hopen.le).1
  rw [call_over le_rfl, call_full hend hfull] at hsame
  cases hsame

/-- Open windows that behave alike are the same, but for calls beyond the limit. The induction is on
the calls that they leave, which are made at once. -/
theorem Alike.of_open {n : ℕ} (h : Alike c s now w w') (hopen : now < w.start + s)
    (hopen' : now < w'.start + s) (hn : c - w.used ≤ n) :
    w.start = w'.start ∧ min w.used c = min w'.used c := by
  induction n generalizing w w' with
  | zero =>
    -- This one is full, and so is the other.
    obtain ⟨hsame, hnext⟩ := h.call le_rfl
    rw [call_full hopen (by omega)] at hsame hnext
    rcases call_cases c s w' now with ⟨hover, -⟩ | ⟨-, hfull, -⟩ | ⟨-, -, heq⟩
    · exact absurd hover (not_le.mpr hopen')
    · exact ⟨le_antisymm (h.symm.start_le hopen' (by omega)) (h.start_le hopen hfull), by omega⟩
    · rw [heq] at hsame
      cases hsame
  | succ n ih =>
    obtain ⟨hsame, hnext⟩ := h.call le_rfl
    rcases call_cases c s w now with ⟨hover, -⟩ | ⟨-, hfull, heq⟩ | ⟨-, hroom, heq⟩
    · exact absurd hover (not_le.mpr hopen)
    · exact ih h hopen hopen' (by omega)
    rcases call_cases c s w' now with ⟨hover, -⟩ | ⟨-, hfull, heq'⟩ | ⟨-, hroom', heq'⟩
    · exact absurd hover (not_le.mpr hopen')
    · rw [heq, heq'] at hsame
      cases hsame
    · rw [heq, heq'] at hnext
      obtain ⟨hstart, hused⟩ := ih hnext hopen hopen' (by dsimp only; omega)
      dsimp only at hstart hused
      exact ⟨hstart, by omega⟩

/-- A window that is over behaves like an open one only if this has started now. -/
theorem Alike.not_over (hc : 1 ≤ c) (hs : 0 < s) (h : Alike c s now w w')
    (hover : w.start + s ≤ now) (hopen : now < w'.start + s) : w'.used = 0 ∧ w'.start = now := by
  obtain ⟨hsame, hnext⟩ := h.call le_rfl
  have hlater : now < now + s := lt_add_of_pos_right now hs
  rcases call_cases c s w' now with ⟨hover', -⟩ | ⟨-, hfull, heq'⟩ | ⟨-, hroom', heq'⟩
  · exact absurd hover' (not_le.mpr hopen)
  · rw [call_over hover, heq'] at hsame
    cases hsame
  · rw [call_over hover, heq'] at hnext
    obtain ⟨n, hn⟩ : ∃ n : ℕ, c - 1 ≤ n := ⟨c.toNat, by omega⟩
    obtain ⟨hstart, hused⟩ := hnext.of_open hlater hopen hn
    dsimp only at hstart hused
    exact ⟨by omega, hstart.symm⟩

/-- Two windows, neither of which starts now, behave alike exactly if they are the same from now
on. -/
theorem alike_iff (hc : 1 ≤ c) (hs : 0 < s) (hw : w.used = 0 → w.start ≠ now)
    (hw' : w'.used = 0 → w'.start ≠ now) : Alike c s now w w' ↔ SameFrom c s now w w' := by
  constructor
  · intro h
    rcases le_or_gt (w.start + s) now with hover | hopen
    · rcases le_or_gt (w'.start + s) now with hover' | hopen'
      · exact .inl ⟨hover, hover'⟩
      · obtain ⟨hused, hstart⟩ := h.not_over hc hs hover hopen'
        exact absurd hstart (hw' hused)
    · rcases le_or_gt (w'.start + s) now with hover' | hopen'
      · obtain ⟨hused, hstart⟩ := h.symm.not_over hc hs hover' hopen
        exact absurd hstart (hw hused)
      · obtain ⟨n, hn⟩ : ∃ n : ℕ, c - w.used ≤ n := ⟨(c - w.used).toNat, by omega⟩
        exact .inr ⟨hopen, h.of_open hopen hopen' hn⟩
  · exact SameFrom.alike

end Window

end Catse
