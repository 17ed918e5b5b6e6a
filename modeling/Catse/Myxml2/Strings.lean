import Catse.Lib.SortedTable
import Mathlib.Algebra.Group.Nat.Defs
import Mathlib.Logic.Function.Basic
import Mathlib.Data.List.Pairwise

/-!
# Interned strings

`getStr` of `myxml2` keeps one copy of each string: five words are literals, and every other string
is a copy in `buf`, with a pointer in `set`, which is sorted by what the pointers point to. A
pointer into `buf` is its offset. The tables of the program compare strings by their pointers, so
what counts is that the copies are not written to: `WF` holds as long as `getStr` alone changes the
table, and then pointers stand for strings (`Intern.WF.textOf_injective`).
-/

namespace Catse.Myxml2

open SortedTable

/-- The bytes of a string literal. -/
def bytes (s : String) : List UInt8 := s.toUTF8.data.toList

/-- Where `MYXML2_FAIL` ends the program, and where its behaviour is undefined: a pointer that is
null or out of bounds (`undefined`), or a write to a literal (`readOnly`). -/
inductive Fail where
  | sheetNames
  | sharedStrings
  | stringLength
  | setFull
  | bufFull
  | rowOrder
  | rows
  | columns
  | tooFewRows
  | nestedBracket
  | strayBracket
  | cellLength
  | duplicateId (id : List UInt8)
  | duplicateName (name : List UInt8)
  | sheetSize
  | undefined
  | readOnly
  deriving DecidableEq

/-- The words of `fix`, which are the types of columns. -/
inductive VarType where
  | number
  | plain
  | string
  | table
  | tbstr
  deriving DecidableEq

namespace VarType

/-- The array `fix`. -/
def fix : List VarType := [number, plain, string, table, tbstr]

/-- The word. -/
def text : VarType → List UInt8
  | number => bytes "number"
  | plain => bytes "plain"
  | string => bytes "string"
  | table => bytes "table"
  | tbstr => bytes "tbstr"

theorem mem_fix (t : VarType) : t ∈ fix := by
  cases t <;> decide

theorem text_injective {t u : VarType} (h : t.text = u.text) : t = u := by
  have hall : ∀ t ∈ fix, ∀ u ∈ fix, t.text = u.text → t = u := by decide
  exact hall t t.mem_fix u u.mem_fix h

end VarType

/-- What `getStr` returns: a literal, or an offset in `buf`. -/
inductive StrPtr where
  | fix (t : VarType)
  | buf (p : ℕ)
  deriving DecidableEq

/-! ## `strcmp` -/

/-- `strcmp`. -/
def strcmp : List UInt8 → List UInt8 → ℤ
  | [], [] => 0
  | [], y :: _ => -y.toNat - 1
  | x :: _, [] => x.toNat + 1
  | x :: s, y :: t => if x = y then strcmp s t else x.toNat - y.toNat

/-- What `strcmp` orders by. -/
def strKey (s : List UInt8) : List ℕ := s.map UInt8.toNat

theorem strKey_injective : Function.Injective strKey :=
  List.map_injective_iff.mpr fun _ _ h => UInt8.toNat_inj.mp h

theorem strcmp_neg_iff (s t : List UInt8) : strcmp s t < 0 ↔ strKey s < strKey t := by
  induction s generalizing t with
  | nil =>
    cases t with
    | nil => exact ⟨fun h => absurd h (by simp [strcmp]), fun h => absurd h (lt_irrefl _)⟩
    | cons y t => exact ⟨fun _ => List.nil_lt_cons _ _, fun _ => by rw [strcmp]; omega⟩
  | cons x s ih =>
    cases t with
    | nil => exact ⟨fun h => absurd h (by rw [strcmp]; omega),
        fun h => absurd h (List.not_lt_nil _)⟩
    | cons y t =>
      rw [strcmp, strKey, strKey, List.map_cons, List.map_cons, List.cons_lt_cons_iff]
      split_ifs with hxy
      · rw [ih, hxy]
        simp [strKey]
      · have hne : x.toNat ≠ y.toNat := fun h => hxy (UInt8.toNat_inj.mp h)
        constructor
        · intro h
          exact .inl (by omega)
        · rintro (h | ⟨h, -⟩)
          · omega
          · exact absurd h hne

theorem strcmp_eq_zero_iff (s t : List UInt8) : strcmp s t = 0 ↔ s = t := by
  induction s generalizing t with
  | nil =>
    cases t with
    | nil => exact ⟨fun _ => rfl, fun _ => rfl⟩
    | cons y t => exact ⟨fun h => absurd h (by rw [strcmp]; omega), fun h => absurd h (by simp)⟩
  | cons x s ih =>
    cases t with
    | nil => exact ⟨fun h => absurd h (by rw [strcmp]; omega), fun h => absurd h (by simp)⟩
    | cons y t =>
      rw [strcmp, List.cons.injEq]
      split_ifs with hxy
      · rw [ih]
        exact ⟨fun h => ⟨hxy, h⟩, fun h => h.2⟩
      · have hne : x.toNat ≠ y.toNat := fun h => hxy (UInt8.toNat_inj.mp h)
        exact ⟨fun h => absurd h (by omega), fun h => absurd h.1 hxy⟩

/-- `strcmp` with the strings that pointers stand for. -/
theorem compares_strcmp (text : ℕ → List UInt8) (str : List UInt8) :
    Compares (strKey str) (fun p => strKey (text p)) fun p => strcmp str (text p) where
  neg_iff := fun p => strcmp_neg_iff str (text p)
  zero_iff := fun p => (strcmp_eq_zero_iff str (text p)).trans strKey_injective.eq_iff.symm

/-! ## The table -/

/-- The static data of `getStr`: the sorted pointers, the string at each offset, and the used length
of `buf`. -/
structure Intern where
  set : List ℕ
  text : ℕ → List UInt8
  buflen : ℕ

namespace Intern

/-- Before the first call. -/
def init : Intern := ⟨[], fun _ => [], 0⟩

/-- The string that a pointer points to. -/
def textOf (s : Intern) : StrPtr → List UInt8
  | .fix t => t.text
  | .buf p => s.text p

/-- The table after a new string is entered at the index `a`. -/
def enter (s : Intern) (a : ℕ) (str : List UInt8) : Intern where
  set := s.set.take a ++ s.buflen :: s.set.drop a
  text := Function.update s.text s.buflen str
  buflen := s.buflen + str.length + 1

/-- The table after a write to the string at `p`. -/
def write (s : Intern) (p : ℕ) (str : List UInt8) :
    Intern := { s with text := Function.update s.text p str }

end Intern

/-- `getStr`. -/
def getStr (str : List UInt8) (s : Intern) : Except Fail (StrPtr × Intern) :=
  match VarType.fix.find? fun t => t.text = str with
  | some t => .ok (.fix t, s)
  | none =>
    match lookup (fun p => strcmp str (s.text p)) s.set with
    | .found c => .ok (.buf (s.set.getD c 0), s)
    | .absent a =>
      if 65536 ≤ s.set.length then .error .setFull
      else if 2^22 ≤ s.buflen + str.length then .error .bufFull
      else .ok (.buf s.buflen, s.enter a str)

namespace Intern

/-- A pointer that has been returned. -/
def Valid (s : Intern) : StrPtr → Prop
  | .fix _ => True
  | .buf p => p ∈ s.set

/-- The table is sorted, the strings lie in the used part of `buf`, and none of them is a
literal. -/
structure WF (s : Intern) : Prop where
  sorted : s.set.Pairwise fun p q => strKey (s.text p) < strKey (s.text q)
  lt : ∀ p ∈ s.set, p < s.buflen
  new : ∀ p ∈ s.set, ∀ t : VarType, t.text ≠ s.text p

/-- Pointers keep what they point to. -/
def Extends (s s' : Intern) : Prop := ∀ p, s.Valid p → s'.Valid p ∧ s'.textOf p = s.textOf p

theorem Extends.refl (s : Intern) : s.Extends s := fun _ hp => ⟨hp, rfl⟩

theorem Extends.trans {s s' s'' : Intern} (h : s.Extends s') (h' : s'.Extends s'') :
    s.Extends s'' := by
  intro p hp
  obtain ⟨hv, ht⟩ := h p hp
  obtain ⟨hv', ht'⟩ := h' p hv
  exact ⟨hv', ht'.trans ht⟩

theorem wf_init : init.WF where
  sorted := List.Pairwise.nil
  lt := fun _ hp => absurd hp List.not_mem_nil
  new := fun _ hp => absurd hp List.not_mem_nil

/-- Pointers stand for strings. -/
theorem WF.textOf_injective {s : Intern} (h : s.WF) {p q : StrPtr} (hp : s.Valid p) (hq : s.Valid q)
    (heq : s.textOf p = s.textOf q) : p = q := by
  cases p with
  | fix t =>
    cases q with
    | fix u => exact congrArg StrPtr.fix (VarType.text_injective heq)
    | buf q => exact absurd heq (h.new q hq t)
  | buf p =>
    cases q with
    | fix u => exact absurd heq.symm (h.new p hp u)
    | buf q =>
      -- The strings of a sorted table are different.
      have hne : s.set.Pairwise fun p q => s.text p ≠ s.text q :=
        h.sorted.imp fun hlt heq' => hlt.ne (congrArg strKey heq')
      have hsymm : Std.Symm fun p q => s.text p ≠ s.text q := ⟨fun _ _ h => Ne.symm h⟩
      by_contra hpq
      exact hne.forall hp hq (fun h => hpq (congrArg StrPtr.buf h)) heq

theorem text_enter_of_mem {s : Intern} (h : ∀ p ∈ s.set, p < s.buflen) (a : ℕ) (str : List UInt8)
    {p : ℕ} (hp : p ∈ s.set) :
    (s.enter a str).text p = s.text p :=
  Function.update_of_ne (h p hp).ne _ _

theorem text_enter_self (s : Intern) (a : ℕ) (str : List UInt8) :
    (s.enter a str).text s.buflen = str :=
  Function.update_self ..

theorem mem_enter {s : Intern} {a : ℕ} {str : List UInt8} {p : ℕ} :
    p ∈ (s.enter a str).set ↔ p = s.buflen ∨ p ∈ s.set := by
  have hparts : p ∈ s.set ↔ p ∈ s.set.take a ∨ p ∈ s.set.drop a := by
    rw [← List.mem_append, List.take_append_drop]
  show p ∈ s.set.take a ++ s.buflen :: s.set.drop a ↔ _
  rw [List.mem_append, List.mem_cons, hparts, or_left_comm]

/-- A string that was not found can be entered. -/
theorem WF.enter {s : Intern} (h : s.WF) {a : ℕ} {str : List UInt8}
    (hfix : ∀ t : VarType, t.text ≠ str) (hlow : ∀ p ∈ s.set.take a, strKey (s.text p) < strKey str)
    (hhigh : ∀ p ∈ s.set.drop a, strKey str < strKey (s.text p)) : (s.enter a str).WF := by
  constructor
  · have hold : s.set.Pairwise fun p q =>
      strKey ((s.enter a str).text p) < strKey ((s.enter a str).text q) := by
      refine h.sorted.imp_of_mem fun {p q} hp hq hlt => ?_
      rw [text_enter_of_mem h.lt a str hp, text_enter_of_mem h.lt a str hq]
      exact hlt
    rw [← List.take_append_drop a s.set] at hold
    apply pairwise_insert hold
    · intro p hp
      rw [text_enter_self, text_enter_of_mem h.lt a str (List.mem_of_mem_take hp)]
      exact hlow p hp
    · intro p hp
      rw [text_enter_self, text_enter_of_mem h.lt a str (List.mem_of_mem_drop hp)]
      exact hhigh p hp
  · intro p hp
    show p < s.buflen + str.length + 1
    rcases mem_enter.mp hp with rfl | hp
    · omega
    · have := h.lt p hp
      omega
  · intro p hp t
    rcases mem_enter.mp hp with rfl | hp
    · rw [text_enter_self]
      exact hfix t
    · rw [text_enter_of_mem h.lt a str hp]
      exact h.new p hp t

theorem extends_enter {s : Intern} (h : ∀ p ∈ s.set, p < s.buflen) (a : ℕ) (str : List UInt8) :
    s.Extends (s.enter a str) := by
  intro p hp
  cases p with
  | fix t => exact ⟨trivial, rfl⟩
  | buf p => exact ⟨mem_enter.mpr (.inr hp), text_enter_of_mem h a str hp⟩

end Intern

/-- What `getStr` can do: it returns a literal, finds the string, or enters it. -/
theorem getStr_cases {str : List UInt8} {s s' : Intern} {p : StrPtr}
    (h : getStr str s = .ok (p, s')) :
    (∃ t : VarType, t.text = str ∧ p = .fix t ∧ s' = s) ∨
      (∀ t : VarType, t.text ≠ str) ∧
        ((∃ q ∈ s.set, s.text q = str ∧ p = .buf q ∧ s' = s) ∨
          ∃ a, lookup (fun q => strcmp str (s.text q)) s.set = .absent a ∧ p = .buf s.buflen ∧
            s' = s.enter a str) := by
  unfold getStr at h
  cases hfix : VarType.fix.find? fun t => t.text = str with
  | some t =>
    rw [hfix] at h
    cases h
    have htext : t.text = str := by simpa using List.find?_some hfix
    exact .inl ⟨t, htext, rfl, rfl⟩
  | none =>
    rw [hfix] at h
    have hnew : ∀ t : VarType, t.text ≠ str := fun t ht =>
      List.find?_eq_none.mp hfix t t.mem_fix (decide_eq_true ht)
    refine .inr ⟨hnew, ?_⟩
    cases hl : lookup (fun q => strcmp str (s.text q)) s.set with
    | found c =>
      rw [hl] at h
      obtain ⟨hc, h0⟩ := lookup_found hl
      have hget : s.set.getD c 0 = s.set[c] := by
        rw [List.getD_eq_getElem?_getD, List.getElem?_eq_getElem hc]; rfl
      cases h
      have htext : s.text s.set[c] = str := ((strcmp_eq_zero_iff _ _).mp h0).symm
      exact .inl ⟨s.set[c], List.getElem_mem hc, htext, by rw [hget], rfl⟩
    | absent a =>
      rw [hl] at h
      dsimp only at h
      split_ifs at h
      cases h
      exact .inr ⟨a, rfl, rfl, rfl⟩

/-- What `getStr` does: it returns a pointer to the string, and the pointers that there are keep
what they point to. -/
theorem getStr_spec {str : List UInt8} {s s' : Intern} {p : StrPtr} (h : s.WF)
    (hr : getStr str s = .ok (p, s')) :
    s'.WF ∧ s.Extends s' ∧ s'.Valid p ∧ s'.textOf p = str := by
  obtain ⟨t, ht, rfl, rfl⟩ | ⟨hnew, ⟨q, hq, hstr, rfl, rfl⟩ | ⟨a, hl, rfl, rfl⟩⟩ := getStr_cases hr
  · exact ⟨h, .refl _, trivial, ht⟩
  · exact ⟨h, .refl _, hq, hstr⟩
  · obtain ⟨hlow, hhigh⟩ := lookup_absent (compares_strcmp s.text str) h.sorted hl
    exact ⟨h.enter hnew hlow hhigh, Intern.extends_enter h.lt a str,
      Intern.mem_enter.mpr (.inl rfl), Intern.text_enter_self s a str⟩

end Catse.Myxml2
