import Mathlib.Algebra.Order.Group.Nat
import Mathlib.Data.List.Basic
import Mathlib.Logic.Function.Basic
import Mathlib.Tactic.Common

/-!
# Strings in a buffer

A buffer is a function from offsets to bytes. `Holds buf i bs` says that `bs` stands at offset `i`,
and `StrAt` that a C string stands there which ends before a given offset, so that writes from that
offset on leave it alone. `scan` is the loop that looks for an offset.
-/

namespace Catse

/-- The bytes `bs` stand at offset `i`. -/
def Holds (buf : ℕ → UInt8) : ℕ → List UInt8 → Prop
  | _, [] => True
  | i, b :: bs => buf i = b ∧ Holds buf (i + 1) bs

/-- Whether the C string at offset `i` is the string `str`. -/
def strEq (buf : ℕ → UInt8) : ℕ → List UInt8 → Bool
  | i, [] => buf i == 0
  | i, b :: str => buf i == b && strEq buf (i + 1) str

/-- The C string at offset `i`, in a buffer that is read up to `stop`. -/
def cstr (buf : ℕ → UInt8) (stop i : ℕ) : List UInt8 :=
  ((List.range' i (stop - i)).map buf).takeWhile (· ≠ 0)

/-- The first offset from `i` on with the property `p`, for a number of turns. -/
def scan (p : ℕ → Bool) : ℕ → ℕ → Option ℕ
  | 0, _ => none
  | n + 1, i => if p i then some i else scan p n (i + 1)

variable {buf buf' : ℕ → UInt8} {i : ℕ} {bs cs : List UInt8}

theorem holds_append : Holds buf i (bs ++ cs) ↔ Holds buf i bs ∧ Holds buf (i + bs.length) cs := by
  induction bs generalizing i with
  | nil => exact (true_and _).symm ▸ Iff.rfl
  | cons b bs ih =>
    rw [List.cons_append, Holds, Holds, ih, and_assoc, List.length_cons, add_assoc, add_comm 1]

/-- What stands behind the offsets at which two buffers differ. -/
theorem Holds.congr (h : Holds buf i bs) (heq : ∀ j, i ≤ j → buf' j = buf j) : Holds buf' i bs := by
  induction bs generalizing i with
  | nil => trivial
  | cons b bs ih =>
    exact ⟨(heq i le_rfl).trans h.1, ih h.2 fun j hj => heq j (by omega)⟩

/-- What stands before the offsets at which two buffers differ. -/
theorem Holds.congr_lt (h : Holds buf i bs) (heq : ∀ j < i + bs.length, buf' j = buf j) :
    Holds buf' i bs := by
  induction bs generalizing i with
  | nil => trivial
  | cons b bs ih =>
    rw [List.length_cons] at heq
    exact ⟨(heq i (by omega)).trans h.1, ih h.2 fun j hj => heq j (by omega)⟩

theorem Holds.update (h : Holds buf i bs) {k : ℕ} (hk : k < i) (b : UInt8) :
    Holds (Function.update buf k b) i bs :=
  h.congr fun _ hj => Function.update_of_ne (by omega) _ _

theorem Holds.getElem (h : Holds buf i bs) {j : ℕ} (hj : j < bs.length) : buf (i + j) = bs[j] := by
  induction bs generalizing i j with
  | nil => exact absurd hj (Nat.not_lt_zero j)
  | cons b bs ih =>
    cases j with
    | zero => exact h.1
    | succ j =>
      rw [List.getElem_cons_succ, ← ih h.2, add_assoc, add_comm 1]

/-! ## Scanning -/

theorem scan_eq {p : ℕ → Bool} {m n : ℕ} (hn : m < n) (hskip : ∀ j < m, p (i + j) = false)
    (hp : p (i + m) = true) : scan p n i = some (i + m) := by
  induction m generalizing i n with
  | zero =>
    obtain ⟨n, rfl⟩ := Nat.exists_eq_succ_of_ne_zero (by omega : n ≠ 0)
    exact if_pos hp
  | succ m ih =>
    obtain ⟨n, rfl⟩ := Nat.exists_eq_succ_of_ne_zero (by omega : n ≠ 0)
    have hfirst : p i = false := hskip 0 (Nat.succ_pos m)
    rw [Nat.succ_eq_add_one, scan, hfirst, if_neg Bool.false_ne_true]
    rw [← add_assoc, add_right_comm] at hp ⊢
    exact ih (by omega) (fun j hj => by
      rw [add_right_comm]
      exact hskip (j + 1) (by omega)) hp

theorem scan_none {p : ℕ → Bool} {n : ℕ} (hskip : ∀ j < n, p (i + j) = false) :
    scan p n i = none := by
  induction n generalizing i with
  | zero => rfl
  | succ n ih =>
    have hfirst : p i = false := hskip 0 (Nat.succ_pos n)
    rw [scan, hfirst, if_neg Bool.false_ne_true]
    exact ih fun j hj => by
      rw [add_assoc, add_comm 1]
      exact hskip (j + 1) (by omega)

/-! ## Strings -/

/-- The C string `str` stands at offset `i`, and ends before `lim`. -/
structure StrAt (buf : ℕ → UInt8) (lim i : ℕ) (str : List UInt8) : Prop where
  holds : Holds buf i (str ++ [0])
  lt : i + str.length < lim
  ne_zero : ∀ b ∈ str, b ≠ 0

theorem StrAt.congr {lim lim' : ℕ} {str : List UInt8} (h : StrAt buf lim i str)
    (heq : ∀ j < lim, buf' j = buf j) (hle : lim ≤ lim') : StrAt buf' lim' i str := by
  refine ⟨h.holds.congr_lt fun j hj => heq j ?_, h.lt.trans_le hle, h.ne_zero⟩
  have hlt := h.lt
  rw [List.length_append, List.length_singleton] at hj
  omega

/-- The string at an offset is what it is compared with. -/
theorem strEq_iff {str : List UInt8} (hbs : Holds buf i (bs ++ [0])) (h0 : ∀ b ∈ bs, b ≠ 0)
    (hstr : ∀ b ∈ str, b ≠ 0) : strEq buf i str = decide (bs = str) := by
  induction bs generalizing i str with
  | nil =>
    cases str with
    | nil => exact beq_iff_eq.mpr hbs.1
    | cons c str =>
      have hne : buf i ≠ c := hbs.1 ▸ (hstr c List.mem_cons_self).symm
      rw [strEq, beq_eq_false_iff_ne.mpr hne]
      rfl
  | cons b bs ih =>
    have hb : buf i = b := hbs.1
    cases str with
    | nil =>
      rw [strEq, hb, beq_eq_false_iff_ne.mpr (h0 b List.mem_cons_self)]
      rfl
    | cons c str =>
      rw [strEq, hb, ih hbs.2 (fun x hx => h0 x (List.mem_cons_of_mem _ hx))
        fun x hx => hstr x (List.mem_cons_of_mem _ hx)]
      by_cases hbc : b = c
      · simp [hbc]
      · simp [hbc]

theorem StrAt.cstr_eq {lim stop : ℕ} {str : List UInt8} (h : StrAt buf lim i str)
    (hstop : i + str.length < stop) : cstr buf stop i = str := by
  obtain ⟨hholds, -, h0⟩ := h
  clear lim
  unfold cstr
  induction str generalizing i with
  | nil =>
    obtain ⟨n, hn⟩ := Nat.exists_eq_succ_of_ne_zero (by
      rw [List.length_nil] at hstop
      omega : stop - i ≠ 0)
    have hzero : buf i = 0 := hholds.1
    rw [hn, List.range'_succ, List.map_cons, List.takeWhile_cons, hzero]
    rfl
  | cons b str ih =>
    rw [List.length_cons] at hstop
    obtain ⟨n, hn⟩ := Nat.exists_eq_succ_of_ne_zero (by omega : stop - i ≠ 0)
    have hn' : n = stop - (i + 1) := by omega
    have hb : buf i = b := hholds.1
    have hne : b ≠ 0 := h0 b List.mem_cons_self
    rw [hn, List.range'_succ, List.map_cons, List.takeWhile_cons, hb, if_pos (decide_eq_true hne),
      hn', ih (by omega) hholds.2 fun x hx => h0 x (List.mem_cons_of_mem _ hx)]

end Catse
