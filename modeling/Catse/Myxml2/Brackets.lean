import Catse.Myxml2.Untouched
import Mathlib.Data.List.Chain

/-!
# Double brackets

The first loop of `removeSpace` counts `[[` and `]]` and fails when the count leaves 0 and 1. It
takes a pair of brackets at every position, so that of three brackets in a row it counts two pairs,
and it does not look at the count after the text. `markers` are the double brackets as they are
read, none of which shares a bracket with another, and `Paired` says that each `[[` has its `]]`.
`removeSpace_paired_iff` says for which texts the loop finds that out.
-/

namespace Catse.Myxml2

/-- `[[` or `]]`. -/
inductive Marker where
  | opening
  | closing
  deriving DecidableEq

/-- The markers of a text, read from left to right. -/
def markers : List UInt8 → List Marker
  | 91 :: 91 :: a => .opening :: markers a
  | 93 :: 93 :: a => .closing :: markers a
  | _ :: a => markers a
  | [] => []

/-- No `[[` is in another, and no `]]` comes without a `[[` before it. -/
def Flat (ms : List Marker) : Prop := (Marker.closing :: ms).IsChain (· ≠ ·)

instance (ms : List Marker) : Decidable (Flat ms) :=
  inferInstanceAs (Decidable (List.IsChain _ _))

/-- The last marker is a `[[`. -/
def EndsOpen (ms : List Marker) : Prop := ms.getLast? = some .opening

instance (ms : List Marker) : Decidable (EndsOpen ms) :=
  inferInstanceAs (Decidable (_ = _))

/-- Each `[[` has its `]]`, and none is in another. -/
def Paired (ms : List Marker) : Prop := Flat ms ∧ ¬EndsOpen ms

instance (ms : List Marker) : Decidable (Paired ms) := inferInstanceAs (Decidable (_ ∧ ¬_))

/-- Three equal brackets in a row. -/
def Triple (a : List UInt8) : Prop := bytes "[[[" <:+: a ∨ bytes "]]]" <:+: a

/-! ## What the loop counts -/

/-- The pair of brackets at a character, given what follows it. -/
def window (x : UInt8) (a : List UInt8) : Option Marker :=
  if x = 91 ∧ next 91 a then some .opening
  else if x = 93 ∧ next 93 a then some .closing
  else none

/-- The pairs of brackets at all positions. -/
def windows : List UInt8 → List Marker
  | [] => []
  | x :: a => (window x a).toList ++ windows a

/-- `cntKuo` after a marker. -/
def Marker.depth : Marker → ℤ
  | opening => 1
  | closing => 0

theorem window_cases (x : UInt8) (a : List UInt8) :
    (window x a = none ∧ ∀ kuo, count kuo x a = kuo) ∨
      (window x a = some .opening ∧ ∀ kuo, count kuo x a = kuo + 1) ∨
      (window x a = some .closing ∧ ∀ kuo, count kuo x a = kuo - 1) := by
  unfold window count
  by_cases hopen : x = 91 ∧ next 91 a
  · have hquote : x ≠ 34 := by
      rw [hopen.1]
      decide
    rw [if_pos hopen]
    exact .inr (.inl ⟨rfl, fun kuo => by rw [if_neg hquote, if_pos hopen]⟩)
  · rw [if_neg hopen]
    by_cases hclose : x = 93 ∧ next 93 a
    · have hquote : x ≠ 34 := by
        rw [hclose.1]
        decide
      rw [if_pos hclose]
      exact .inr (.inr ⟨rfl, fun kuo => by rw [if_neg hquote, if_neg hopen, if_pos hclose]⟩)
    · rw [if_neg hclose]
      exact .inl ⟨rfl, fun kuo => by rw [if_neg hopen, if_neg hclose, ite_self]⟩

/-- While the count is 0 or 1, the loop goes on. -/
theorem removeBlanks_cons_isOk {yin : Bool} {kuo : ℤ} {x : UInt8} {a : List UInt8}
    (hlow : 0 ≤ count kuo x a) (hhigh : count kuo x a ≤ 1) :
    (∃ b, removeBlanks yin kuo (x :: a) = .ok b) ↔
      ∃ b, removeBlanks (toggle yin x) (count kuo x a) a = .ok b := by
  constructor
  · rintro ⟨b, hb⟩
    obtain ⟨-, -, rest, hrest, -⟩ := removeBlanks_cons hb
    exact ⟨rest, hrest⟩
  · rintro ⟨rest, hrest⟩
    rw [removeBlanks, if_neg (not_lt.mpr hhigh), if_neg (not_lt.mpr hlow), hrest]
    by_cases hkeep : toggle yin x ∨ count kuo x a ≠ 0 ∨ x ≠ 10 ∧ x ≠ 13 ∧ x ≠ 32
    · exact ⟨_, if_pos hkeep⟩
    · exact ⟨_, if_neg hkeep⟩

/-- The loop does not fail when the pairs of brackets alternate. -/
theorem removeBlanks_isOk_iff (yin : Bool) (m : Marker) (a : List UInt8) :
    (∃ b, removeBlanks yin m.depth a = .ok b) ↔ (m :: windows a).IsChain (· ≠ ·) := by
  induction a generalizing yin m with
  | nil => exact iff_of_true ⟨[], rfl⟩ (List.isChain_singleton m)
  | cons x a ih =>
    -- The count goes from one depth to another, or by a second pair of the same kind out of range.
    have hgo : ∀ w : Marker, count m.depth x a = w.depth →
        ((∃ b, removeBlanks yin m.depth (x :: a) = .ok b) ↔ (w :: windows a).IsChain (· ≠ ·)) := by
      intro w hw
      have hrange : 0 ≤ w.depth ∧ w.depth ≤ 1 := by cases w <;> decide
      rw [removeBlanks_cons_isOk (hw ▸ hrange.1) (hw ▸ hrange.2), hw, ih]
    have hstop : ¬(0 ≤ count m.depth x a ∧ count m.depth x a ≤ 1) →
        ¬∃ b, removeBlanks yin m.depth (x :: a) = .ok b := by
      rintro hrange ⟨b, hb⟩
      obtain ⟨hhigh, hlow, -⟩ := removeBlanks_cons hb
      exact hrange ⟨hlow, hhigh⟩
    rw [windows]
    rcases window_cases x a with ⟨hw, hcount⟩ | ⟨hw, hcount⟩ | ⟨hw, hcount⟩
    · rw [hw]
      exact hgo m (hcount _)
    · rw [hw, Option.toList_some, List.singleton_append, List.isChain_cons_cons]
      rw [hcount] at hstop hgo
      cases m with
      | opening => exact iff_of_false (hstop (by decide)) fun h => h.1 rfl
      | closing => exact (hgo .opening rfl).trans (and_iff_right (by decide)).symm
    · rw [hw, Option.toList_some, List.singleton_append, List.isChain_cons_cons]
      rw [hcount] at hstop hgo
      cases m with
      | opening => exact (hgo .closing rfl).trans (and_iff_right (by decide)).symm
      | closing => exact iff_of_false (hstop (by decide)) fun h => h.1 rfl

/-- `removeSpace` fails when its first loop does, and only with the two errors of this loop. -/
theorem removeSpace_isOk_iff (a : List UInt8) :
    (∃ b, removeSpace a = .ok b) ↔ (Marker.closing :: windows a).IsChain (· ≠ ·) := by
  rw [← removeBlanks_isOk_iff false]
  show (∃ b, removeSpace a = .ok b) ↔ ∃ b, removeBlanks false 0 a = .ok b
  constructor
  · rintro ⟨b, hb⟩
    obtain ⟨c, hc, -⟩ := ok_of_bind hb
    exact ⟨c, hc⟩
  · rintro ⟨c, hc⟩
    rw [removeSpace, hc]
    exact ⟨_, rfl⟩

theorem removeBlanks_error {yin : Bool} {kuo : ℤ} {a : List UInt8} {e : Fail}
    (h : removeBlanks yin kuo a = .error e) : e = .nestedBracket ∨ e = .strayBracket := by
  induction a generalizing yin kuo with
  | nil => cases h
  | cons x a ih =>
    rw [removeBlanks] at h
    by_cases hnested : 1 < count kuo x a
    · rw [if_pos hnested] at h
      exact .inl (Except.error.inj h).symm
    by_cases hstray : count kuo x a < 0
    · rw [if_neg hnested, if_pos hstray] at h
      exact .inr (Except.error.inj h).symm
    rw [if_neg hnested, if_neg hstray] at h
    cases hrest : removeBlanks (toggle yin x) (count kuo x a) a with
    | error e' =>
      rw [hrest] at h
      cases h
      exact ih hrest
    | ok rest =>
      rw [hrest] at h
      by_cases hkeep : toggle yin x ∨ count kuo x a ≠ 0 ∨ x ≠ 10 ∧ x ≠ 13 ∧ x ≠ 32
      · cases (if_pos hkeep).symm.trans h
      · cases (if_neg hkeep).symm.trans h

theorem removeSpace_error {a : List UInt8} {e : Fail} (h : removeSpace a = .error e) :
    e = .nestedBracket ∨ e = .strayBracket := by
  cases hblanks : removeBlanks false 0 a with
  | error e' =>
    rw [removeSpace, hblanks] at h
    rw [← Except.error.inj h]
    exact removeBlanks_error hblanks
  | ok b =>
    rw [removeSpace, hblanks] at h
    cases h

/-! ## Windows and markers -/

/-- Three brackets in a row are at the start of a text or further on. -/
theorem triple_cons_iff (x : UInt8) (a : List UInt8) :
    Triple (x :: a) ↔ (x = 91 ∧ [91, 91] <+: a ∨ x = 93 ∧ [93, 93] <+: a) ∨ Triple a := by
  show [91, 91, 91] <:+: x :: a ∨ [93, 93, 93] <:+: x :: a ↔
    _ ∨ [91, 91, 91] <:+: a ∨ [93, 93, 93] <:+: a
  rw [List.infix_cons_iff, List.infix_cons_iff, List.cons_prefix_cons, List.cons_prefix_cons,
    eq_comm (a := x), eq_comm (a := x)]
  tauto

theorem window_of_next {x : UInt8} {w : Marker}
    (hx : x = 91 ∧ w = .opening ∨ x = 93 ∧ w = .closing) (a : List UInt8) :
    window x a = if next x a then some w else none := by
  rcases hx with ⟨rfl, rfl⟩ | ⟨rfl, rfl⟩
  · simp [window]
  · simp [window]

/-- A pair of equal brackets, after which the text goes on. -/
theorem windows_pair {x : UInt8} {w : Marker} (hx : x = 91 ∧ w = .opening ∨ x = 93 ∧ w = .closing)
    (a : List UInt8) :
    windows (x :: x :: a) = w :: ((if next x a then some w else none).toList ++ windows a) ∧
      (Triple (x :: x :: a) ↔ next x a ∨ Triple a) := by
  constructor
  · rw [windows, windows, window_of_next hx, window_of_next hx, if_pos (by simp [next])]
    rfl
  · have hpair : ∀ c : UInt8, [c, c] <+: a → [c] <+: a := fun c =>
      (List.prefix_append [c] [c]).trans
    rw [triple_cons_iff, triple_cons_iff, List.cons_prefix_cons, List.cons_prefix_cons,
      next_iff]
    rcases hx with ⟨rfl, -⟩ | ⟨rfl, -⟩
    · have := hpair 91
      simp
      tauto
    · have := hpair 93
      simp
      tauto

/-- The pairs of brackets at all positions alternate when the markers do and no three brackets are
in a row. -/
theorem windows_isChain_iff (m : Marker) (a : List UInt8) :
    (m :: windows a).IsChain (· ≠ ·) ↔ (m :: markers a).IsChain (· ≠ ·) ∧ ¬Triple a := by
  have hpair : ∀ {x : UInt8} {w : Marker} (_ : x = 91 ∧ w = .opening ∨ x = 93 ∧ w = .closing)
      (m : Marker) (a : List UInt8), ((w :: windows a).IsChain (· ≠ ·) ↔
        (w :: markers a).IsChain (· ≠ ·) ∧ ¬Triple a) →
      ((m :: windows (x :: x :: a)).IsChain (· ≠ ·) ↔
        (m :: w :: markers a).IsChain (· ≠ ·) ∧ ¬Triple (x :: x :: a)) := by
    intro x w hx m a ih
    obtain ⟨hwindows, htriple⟩ := windows_pair hx a
    rw [hwindows, htriple, List.isChain_cons_cons, List.isChain_cons_cons]
    by_cases hnext : next x a
    · -- A third bracket is a second pair of the same kind.
      rw [if_pos hnext, Option.toList_some, List.singleton_append, List.isChain_cons_cons]
      exact iff_of_false (fun h => h.2.1 rfl) fun h => h.2 (.inl hnext)
    · rw [if_neg hnext, Option.toList_none, List.nil_append, ih, or_iff_right hnext, and_assoc]
  fun_induction markers a generalizing m with
  | case1 a ih => exact hpair (.inl ⟨rfl, rfl⟩) m a (ih _)
  | case2 a ih => exact hpair (.inr ⟨rfl, rfl⟩) m a (ih _)
  | case3 x a hopen hclose ih =>
    have hno : ∀ c : UInt8, (∀ t, x = c → a = c :: t → False) → ¬(x = c ∧ [c] <+: a) := by
      rintro c hc ⟨hx, t, ht⟩
      exact hc t hx ht.symm
    have hopen' := hno 91 hopen
    have hclose' := hno 93 hclose
    have hw : window x a = none := by
      rw [← next_iff] at hopen' hclose'
      rw [window, if_neg hopen', if_neg hclose']
    have htriple : Triple (x :: a) ↔ Triple a := by
      rw [triple_cons_iff]
      refine or_iff_right ?_
      rintro (⟨hx, hpre⟩ | ⟨hx, hpre⟩)
      · exact hopen' ⟨hx, (List.prefix_append [91] [91]).trans hpre⟩
      · exact hclose' ⟨hx, (List.prefix_append [93] [93]).trans hpre⟩
    rw [windows, hw, htriple]
    exact ih m
  | case4 =>
    refine iff_of_true (List.isChain_singleton m) ⟨List.isChain_singleton m, ?_⟩
    rintro (h | h)
    · exact absurd (List.eq_nil_of_infix_nil h) (by decide)
    · exact absurd (List.eq_nil_of_infix_nil h) (by decide)

/-- `removeSpace` fails only with an error about the brackets of the text. It does so exactly when
they are not paired, if the text is one where the markers are not flat, or where three brackets are
in a row just when the last marker is a `[[`. -/
theorem removeSpace_paired_iff (a : List UInt8) :
    (∀ e, removeSpace a = .error e → e = .nestedBracket ∨ e = .strayBracket) ∧
      (((∃ b, removeSpace a = .ok b) ↔ Paired (markers a)) ↔
        (Flat (markers a) → (Triple a ↔ EndsOpen (markers a)))) := by
  refine ⟨fun e h => removeSpace_error h, ?_⟩
  rw [removeSpace_isOk_iff, windows_isChain_iff]
  show ((Flat (markers a) ∧ ¬Triple a) ↔ Flat (markers a) ∧ ¬EndsOpen (markers a)) ↔ _
  rw [and_congr_right_iff, not_iff_not]

/-- A `[[` without a `]]` is accepted. A `]]` with a bracket after it is not, although it has its
`[[`. -/
theorem removeSpace_unpaired :
    (removeSpace (bytes "[[a") = .ok (bytes "[[a") ∧ ¬Paired (markers (bytes "[[a"))) ∧
      removeSpace (bytes "[[a]]]") = .error .strayBracket ∧ Paired (markers (bytes "[[a]]]")) :=
  ⟨⟨rfl, by decide⟩, rfl, by decide⟩

end Catse.Myxml2
