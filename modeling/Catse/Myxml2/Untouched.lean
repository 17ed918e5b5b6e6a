import Catse.Myxml2.Convert
import Catse.Lib.Settling

/-!
# Texts that conversion leaves

Which texts the conversion of a cell writes back as they are. Everything that it does to a text
makes it shorter or leaves it, so no part of the conversion can undo what another has done
(`Shortened.comp_eq_iff`): a text is left when each part finds nothing in it. `Untouched` says for
each type what that is, and `convert_spec` that it is right.
-/

namespace Catse.Myxml2

/-! ## `strReplace` -/

theorem strReplace_shortened {b c : List UInt8} (h : c.length < b.length) (a : List UInt8) :
    Shortened a (strReplace b c a) := by
  fun_induction strReplace b c a with
  | case1 => exact .refl _
  | case2 x a hpre ih =>
    have hle := ih.length_le
    have hb := (List.isPrefixOf_iff_prefix.mp hpre).length_le
    right
    rw [List.length_drop] at hle
    rw [List.length_append]
    rw [List.length_cons] at hb ⊢
    omega
  | case3 x a hpre ih =>
    rcases ih with ih | ih
    · exact .inl (by rw [ih])
    · exact .inr (by rw [List.length_cons, List.length_cons]; omega)

/-- A text is left when what is to be replaced does not occur in it. -/
theorem strReplace_eq_self_iff {b c : List UInt8} (h : c.length < b.length) (a : List UInt8) :
    strReplace b c a = a ↔ ¬b <:+: a := by
  fun_induction strReplace b c a with
  | case1 =>
    have hb : b ≠ [] := List.ne_nil_of_length_pos (by omega)
    simp [hb]
  | case2 x a hpre ih =>
    have hprefix := List.isPrefixOf_iff_prefix.mp hpre
    have hle := (strReplace_shortened h (a.drop (b.length - 1))).length_le
    have hb := hprefix.length_le
    constructor
    · intro heq
      have hlen := congrArg List.length heq
      rw [List.length_drop] at hle
      rw [List.length_append] at hlen
      rw [List.length_cons] at hb hlen
      omega
    · intro hno
      exact absurd hprefix.isInfix hno
  | case3 x a hpre ih =>
    have hno : ¬b <+: x :: a := fun hb => hpre (List.isPrefixOf_iff_prefix.mpr hb)
    rw [List.cons.injEq, ih, List.infix_cons_iff]
    simp [hno]

/-! ## `removeSpace` -/

/-- Every blank is inside of quotes or double brackets. -/
def NoBlanks (yin : Bool) (kuo : ℤ) : List UInt8 → Prop
  | [] => True
  | x :: a => (toggle yin x ∨ count kuo x a ≠ 0 ∨ x ≠ 10 ∧ x ≠ 13 ∧ x ≠ 32) ∧
      NoBlanks (toggle yin x) (count kuo x a) a

instance (yin : Bool) (kuo : ℤ) (a : List UInt8) : Decidable (NoBlanks yin kuo a) := by
  induction a generalizing yin kuo with
  | nil => exact inferInstanceAs (Decidable True)
  | cons x a ih =>
    have := ih (toggle yin x) (count kuo x a)
    exact inferInstanceAs (Decidable (_ ∧ _))

/-- What the first loop does at a character, when it does not fail. -/
theorem removeBlanks_cons {yin : Bool} {kuo : ℤ} {x : UInt8} {a b : List UInt8}
    (h : removeBlanks yin kuo (x :: a) = .ok b) :
    count kuo x a ≤ 1 ∧ 0 ≤ count kuo x a ∧
      ∃ rest, removeBlanks (toggle yin x) (count kuo x a) a = .ok rest ∧
        b = if toggle yin x ∨ count kuo x a ≠ 0 ∨ x ≠ 10 ∧ x ≠ 13 ∧ x ≠ 32 then x :: rest
          else rest := by
  rw [removeBlanks] at h
  by_cases hnested : 1 < count kuo x a
  · rw [if_pos hnested] at h
    cases h
  by_cases hstray : count kuo x a < 0
  · rw [if_neg hnested, if_pos hstray] at h
    cases h
  rw [if_neg hnested, if_neg hstray] at h
  obtain ⟨rest, hrest, h⟩ := ok_of_bind h
  refine ⟨not_lt.mp hnested, not_lt.mp hstray, rest, hrest, ?_⟩
  split_ifs at h ⊢
  · cases h
    rfl
  · cases h
    rfl

/-- The first loop shortens a text, unless there is nothing to remove. -/
theorem removeBlanks_spec {yin : Bool} {kuo : ℤ} {a b : List UInt8}
    (h : removeBlanks yin kuo a = .ok b) : Shortened a b ∧ (b = a ↔ NoBlanks yin kuo a) := by
  induction a generalizing yin kuo b with
  | nil =>
    cases h
    exact ⟨.refl _, fun _ => trivial, fun _ => rfl⟩
  | cons x a ih =>
    obtain ⟨-, -, rest, hrest, rfl⟩ := removeBlanks_cons h
    obtain ⟨hshort, hiff⟩ := ih hrest
    rw [NoBlanks]
    split_ifs with hkeep
    · rw [List.cons.injEq, hiff]
      refine ⟨?_, by simp [hkeep]⟩
      rcases hshort with rfl | hshort
      · exact .refl _
      · exact .inr (by rw [List.length_cons, List.length_cons]; omega)
    · have hlen : rest.length < (x :: a).length := by
        have := hshort.length_le
        rw [List.length_cons]
        omega
      exact ⟨.inr hlen, fun heq => absurd (congrArg List.length heq) hlen.ne,
        fun hno => absurd hno.1 hkeep⟩

theorem removeCommas_shortened (a : List UInt8) : Shortened a (removeCommas a) := by
  induction a with
  | nil => exact .refl _
  | cons x a ih =>
    rw [removeCommas]
    split_ifs
    · have := ih.length_le
      exact .inr (by rw [List.length_cons]; omega)
    · rcases ih with ih | ih
      · exact .inl (by rw [ih])
      · exact .inr (by rw [List.length_cons, List.length_cons]; omega)

theorem next_iff {c : UInt8} {a : List UInt8} : next c a = true ↔ [c] <+: a := by
  cases a with
  | nil => simp [next]
  | cons x a => simp [next, List.cons_prefix_cons, eq_comm]

/-- The second loop removes a comma wherever a closing brace follows it. -/
theorem removeCommas_eq_self_iff (a : List UInt8) : removeCommas a = a ↔ ¬[44, 125] <:+: a := by
  induction a with
  | nil => simp [removeCommas]
  | cons x a ih =>
    have hprefix : [44, 125] <+: x :: a ↔ x = 44 ∧ next 125 a = true := by
      rw [List.cons_prefix_cons, next_iff, eq_comm]
    rw [removeCommas, List.infix_cons_iff, hprefix]
    split_ifs with hcomma
    · have hlen := (removeCommas_shortened a).length_le
      constructor
      · intro heq
        have := congrArg List.length heq
        rw [List.length_cons] at this
        omega
      · intro hno
        exact absurd (.inl hcomma) hno
    · rw [List.cons.injEq, ih]
      simp [hcomma]

theorem removeLast_shortened (a : List UInt8) : Shortened a (removeLast a) := by
  unfold removeLast
  split_ifs with hlast
  · have hne : a ≠ [] := by
      rintro rfl
      cases hlast
    have := List.length_pos_of_ne_nil hne
    exact .inr (by rw [List.length_dropLast]; omega)
  · exact .refl _

theorem removeLast_eq_self_iff (a : List UInt8) : removeLast a = a ↔ a.getLast? ≠ some 44 := by
  unfold removeLast
  split_ifs with hlast
  · have hne : a ≠ [] := by
      rintro rfl
      cases hlast
    have := List.length_pos_of_ne_nil hne
    refine ⟨fun heq => ?_, fun hno => absurd hlast hno⟩
    have hlen := congrArg List.length heq
    rw [List.length_dropLast] at hlen
    omega
  · exact ⟨fun _ => hlast, fun _ => rfl⟩

/-- A text in which `removeSpace` finds nothing. -/
structure Tight (a : List UInt8) : Prop where
  noBlanks : NoBlanks false 0 a
  noCommas : ¬[44, 125] <:+: a
  noLast : a.getLast? ≠ some 44

instance (a : List UInt8) : Decidable (Tight a) :=
  decidable_of_iff (NoBlanks false 0 a ∧ ¬[44, 125] <:+: a ∧ a.getLast? ≠ some 44)
    ⟨fun ⟨h₁, h₂, h₃⟩ => ⟨h₁, h₂, h₃⟩, fun ⟨h₁, h₂, h₃⟩ => ⟨h₁, h₂, h₃⟩⟩

theorem removeSpace_spec {a b : List UInt8} (h : removeSpace a = .ok b) :
    Shortened a b ∧ (b = a ↔ Tight a) := by
  unfold removeSpace at h
  obtain ⟨c, hc, h⟩ := ok_of_bind h
  cases h
  obtain ⟨hshort, hblanks⟩ := removeBlanks_spec hc
  have hcommas := removeCommas_shortened c
  have hlast := removeLast_shortened (removeCommas c)
  refine ⟨(hshort.trans hcommas).trans hlast, ?_⟩
  constructor
  · intro heq
    have hca : c = a := hshort.eq_of_eq (hcommas.trans hlast) heq
    rw [hca] at hcommas hlast heq
    have hra : removeCommas a = a := hcommas.eq_of_eq hlast heq
    rw [hra] at heq
    exact ⟨hblanks.mp hca, (removeCommas_eq_self_iff a).mp hra, (removeLast_eq_self_iff a).mp heq⟩
  · rintro ⟨h₁, h₂, h₃⟩
    rw [hblanks.mpr h₁, (removeCommas_eq_self_iff a).mpr h₂, (removeLast_eq_self_iff a).mpr h₃]

/-! ## The conversion -/

/-- What is replaced in a column of a type, and by what. -/
def VarType.replacements : VarType → List (List UInt8 × List UInt8)
  | .table | .string => escapes ++ [(bytes "&#10;", bytes "\n")]
  | _ => escapes
where
  /-- What is replaced in all columns. -/
  escapes : List (List UInt8 × List UInt8) :=
    [(bytes "\r", []), (bytes "&amp;", bytes "&"), (bytes "&gt;", bytes ">"),
      (bytes "&quot;", bytes "\""), (bytes "&apos;", bytes "'"), (bytes "&lt;", bytes "<")]

/-- Replacements, one after the other. -/
def replaceAll (l : List (List UInt8 × List UInt8)) (a : List UInt8) : List UInt8 :=
  l.foldl (fun a bc => strReplace bc.1 bc.2 a) a

theorem replaceAll_spec {l : List (List UInt8 × List UInt8)}
    (h : ∀ bc ∈ l, bc.2.length < bc.1.length) (a : List UInt8) :
    Shortened a (replaceAll l a) ∧ (replaceAll l a = a ↔ ∀ bc ∈ l, ¬bc.1 <:+: a) := by
  induction l generalizing a with
  | nil => exact ⟨.refl _, fun _ bc hbc => absurd hbc List.not_mem_nil, fun _ => rfl⟩
  | cons bc l ih =>
    have hbc := h bc List.mem_cons_self
    have hstep := strReplace_shortened hbc a
    have ih := fun a => ih (fun bc hbc => h bc (List.mem_cons_of_mem _ hbc)) a
    have hcons : replaceAll (bc :: l) a = replaceAll l (strReplace bc.1 bc.2 a) := rfl
    rw [hcons, List.forall_mem_cons, ← strReplace_eq_self_iff hbc, ← (ih a).2]
    exact ⟨hstep.trans (ih _).1,
      Shortened.comp_eq_iff (fun a => (ih a).1) (fun a => strReplace_shortened hbc a) a⟩

theorem VarType.replacements_lt (t : VarType) :
    ∀ bc ∈ t.replacements, bc.2.length < bc.1.length := by
  cases t <;> decide

/-- Are the spaces removed from the cell itself? -/
def VarType.trims (t : VarType) (cell : List UInt8) : Prop :=
  match t with
  | .table => True
  | .tbstr => getStrAddQuote 4096 cell = .ok []
  | _ => False

/-- A text in which the conversion for the type finds nothing to replace and nothing to remove. -/
structure Untouched (t : VarType) (cell : List UInt8) : Prop where
  noEscape : ∀ bc ∈ t.replacements, ¬bc.1 <:+: cell
  tight : t.trims cell → Tight cell

instance (t : VarType) (cell : List UInt8) : Decidable (t.trims cell) :=
  match t with
  | .number | .plain | .string => inferInstanceAs (Decidable False)
  | .table => inferInstanceAs (Decidable True)
  | .tbstr => inferInstanceAs (Decidable (getStrAddQuote 4096 cell = .ok []))

instance (t : VarType) (cell : List UInt8) : Decidable (Untouched t cell) :=
  decidable_of_iff ((∀ bc ∈ t.replacements, ¬bc.1 <:+: cell) ∧ (t.trims cell → Tight cell))
    ⟨fun ⟨h₁, h₂⟩ => ⟨h₁, h₂⟩, fun ⟨h₁, h₂⟩ => ⟨h₁, h₂⟩⟩

/-- What the conversion leaves in the cell's memory is shorter than the cell, or it is the cell, and
that for the texts that are `Untouched`. -/
theorem convert_spec {t : VarType} {cell : List UInt8} {r : List UInt8 × List UInt8}
    (h : convert t cell = .ok r) : Shortened cell r.1 ∧ (r.1 = cell ↔ Untouched t cell) := by
  obtain ⟨hshort, hiff⟩ := replaceAll_spec t.replacements_lt cell
  -- Where no space is removed from the cell, the replacements are all.
  have hplain : ¬t.trims cell → r.1 = replaceAll t.replacements cell →
      Shortened cell r.1 ∧ (r.1 = cell ↔ Untouched t cell) := by
    intro htrims hr
    rw [hr, hiff]
    exact ⟨hshort, fun hno => ⟨hno, fun ht => absurd ht htrims⟩, fun hu => hu.noEscape⟩
  -- Where spaces are removed, they are removed from what the replacements have left.
  have htrimmed : ∀ {a}, removeSpace (replaceAll t.replacements cell) = .ok a → r.1 = a →
      (replaceAll t.replacements cell = cell → t.trims cell) →
      Shortened cell r.1 ∧ (r.1 = cell ↔ Untouched t cell) := by
    intro a ha hr htrims
    obtain ⟨hspace, htight⟩ := removeSpace_spec ha
    rw [hr]
    refine ⟨hshort.trans hspace, ?_⟩
    constructor
    · intro heq
      have hsame := hshort.eq_of_eq hspace heq
      rw [hsame] at htight
      exact ⟨hiff.mp hsame, fun _ => htight.mp heq⟩
    · intro hu
      have hsame := hiff.mpr hu.noEscape
      have ht := hu.tight (htrims hsame)
      rw [hsame] at htight
      exact htight.mpr ht
  cases t with
  | number =>
    cases h
    exact hplain (fun h => h) rfl
  | plain =>
    cases h
    exact hplain (fun h => h) rfl
  | string =>
    cases h
    exact hplain (fun h => h) rfl
  | table =>
    obtain ⟨a, ha, h⟩ := ok_of_bind h
    cases h
    exact htrimmed ha rfl fun _ => trivial
  | tbstr =>
    obtain ⟨quoted, hquoted, h⟩ := ok_of_bind h
    obtain ⟨a, ha, h⟩ := ok_of_bind h
    cases h
    by_cases hnone : quoted = []
    · rw [if_pos hnone] at ha
      rw [hnone] at hquoted
      refine htrimmed ha (if_pos hnone) fun hsame => ?_
      have hcell : unescape cell = cell := hsame
      rw [hcell] at hquoted
      exact hquoted
    · -- What is quoted is a copy.
      dsimp only at hiff hshort ⊢
      rw [if_neg hnone]
      change Shortened cell (replaceAll VarType.tbstr.replacements cell) ∧ _
      refine ⟨hshort, hiff.trans ⟨fun hno => ⟨hno, fun ht => ?_⟩, fun hu => hu.noEscape⟩⟩
      have hcell : unescape cell = cell := hiff.mpr hno
      rw [hcell] at hquoted
      exact absurd (Except.ok.inj (hquoted.symm.trans ht)) hnone

end Catse.Myxml2
