import Catse.Lib.Loops
import Catse.Myxml2.Convert
import Mathlib.Tactic.Linarith

/-!
# Auto-quoting

What `getStrAddQuote` makes of a text: parts of the text stay as they are, and the parts between
them are put in quotation marks (`getStrAddQuote_spec`). The variables of the loop say of every
prefix of the text how far it is taken apart already (`Reading`), and a character is added to that
by one step. The loop checks the room in `out` before everything that it writes. As `out` only
grows, the check after the loop alone would do (`getStrAddQuoteChecked_eq`).
-/

namespace Catse.Myxml2

/-! ## The checks -/

namespace Quoting

variable (outCap : ℕ)

/-- `memcpy` to the end of `out`, when there is room. -/
def put (q : Quoting) (s : List UInt8) : Except Fail Quoting :=
  if outCap < q.out.length + s.length then .error .cellLength
  else .ok { q with out := q.out ++ s }

/-- A quotation mark at the end of `out`, when there is room. -/
def mark (q : Quoting) : Except Fail Quoting :=
  if outCap ≤ q.out.length then .error .cellLength else .ok { q with out := q.out ++ [34] }

/-- The end of an item, with the checks. -/
def closeChecked (q : Quoting) : Except Fail Quoting :=
  match q.item with
  | none => .ok q
  | some i =>
    if q.hasLetter then
      if q.cntKuo = 0 then do
        let q₁ ← q.put outCap q.before
        let q₂ ← q₁.mark outCap
        let q₃ ← q₂.put outCap i
        let q₄ ← q₃.mark outCap
        .ok { q₄ with before := [], item := none }
      else .ok q
    else .ok { q with before := q.before ++ i, item := none }

/-- What happens at a character, with the checks. -/
def stepChecked (q : Quoting) (x : UInt8) : Except Fail Quoting :=
  if x = 40 then .ok { q with cntKuo := q.cntKuo + 1 }
  else if x = 41 then .ok { q with cntKuo := q.cntKuo - 1 }
  else if x = 44 ∨ x = 125 then q.closeChecked outCap
  else if x = 10 ∨ x = 13 ∨ x = 32 ∨ x = 123 then .ok q
  else .ok (q.letter x)

end Quoting

/-- `getStrAddQuote` with all of its checks. -/
def getStrAddQuoteChecked (outCap : ℕ) (a : List UInt8) : Except Fail (List UInt8) := do
  let q ← a.foldlM (fun q x => do
    let q' ← Quoting.stepChecked outCap q x
    .ok (q'.pass x)) (Quoting.mk [] [] none false 0)
  let q' ← q.closeChecked outCap
  -- What comes after the last item that was quoted, if one was.
  let q'' ← if q'.out = [] then .ok q' else q'.put outCap (q'.before ++ q'.item.getD [])
  if outCap ≤ q''.out.length then .error .cellLength else .ok q''.out

namespace Quoting

variable (outCap : ℕ)

/-- A state whose `out` fits. -/
def fits (q : Quoting) : Except Fail Quoting :=
  if outCap < q.out.length then .error .cellLength else .ok q

theorem out_pass (q : Quoting) (x : UInt8) : (q.pass x).out = q.out := by
  unfold pass
  split <;> rfl

theorem pass_of_none {q : Quoting} (h : q.item = none) (x : UInt8) :
    q.pass x = { q with before := q.before ++ [x] } := by
  unfold pass
  rw [h]

theorem out_letter (q : Quoting) (x : UInt8) : (q.letter x).out = q.out := by
  unfold letter
  dsimp only
  split_ifs <;> rfl

/-- `out` grows. -/
theorem out_close_grows (q : Quoting) : q.out <+: q.close.out := by
  unfold close
  split
  · exact List.prefix_refl _
  · split_ifs
    · exact ⟨_, by simp only [List.append_assoc]; rfl⟩
    · exact List.prefix_refl _
    · exact List.prefix_refl _

theorem out_step_grows (q : Quoting) (x : UInt8) : q.out <+: (q.step x).out := by
  unfold step
  split_ifs
  · exact List.prefix_refl _
  · exact List.prefix_refl _
  · exact out_close_grows q
  · exact List.prefix_refl _
  · rw [out_letter]

theorem out_foldl_grows (q : Quoting) (a : List UInt8) :
    q.out <+: (a.foldl (fun q x => pass (q.step x) x) q).out := by
  induction a generalizing q with
  | nil => exact List.prefix_refl _
  | cons x a ih =>
    have hstep := out_step_grows q x
    rw [← out_pass (q.step x) x] at hstep
    exact hstep.trans (ih _)

/-- What goes on with a state that fits ends in one that fits, or `out` has grown out of its room on
the way. -/
theorem fits_bind {q q' : Quoting} {f : Quoting → Except Fail Quoting}
    (hgrow : q.out.length ≤ q'.out.length)
    (hf : q.out.length ≤ outCap → f q = q'.fits outCap) :
    (q.fits outCap >>= f) = q'.fits outCap := by
  by_cases h : outCap < q.out.length
  · have hq : q.fits outCap = .error .cellLength := if_pos h
    have hq' : q'.fits outCap = .error .cellLength := if_pos (lt_of_lt_of_le h hgrow)
    rw [hq, hq']
    rfl
  · have hq : q.fits outCap = .ok q := if_neg h
    rw [hq]
    exact hf (not_lt.mp h)

theorem fits_of_le {q : Quoting} (h : q.out.length ≤ outCap) : q.fits outCap = .ok q :=
  if_neg (not_lt.mpr h)

theorem put_eq (q : Quoting) (s : List UInt8) :
    q.put outCap s = fits outCap { q with out := q.out ++ s } := by
  rw [put, fits, List.length_append]

theorem mark_eq (q : Quoting) : q.mark outCap = fits outCap { q with out := q.out ++ [34] } := by
  rw [mark, fits, List.length_append]
  exact if_congr Nat.lt_succ_iff.symm rfl rfl

/-- The checks at the end of an item find out whether what is written fits. -/
theorem closeChecked_eq {q : Quoting} (h : q.out.length ≤ outCap) :
    q.closeChecked outCap = q.close.fits outCap := by
  unfold closeChecked close
  cases q.item with
  | none => exact (fits_of_le outCap (by exact h)).symm
  | some i =>
    dsimp only
    split_ifs
    · rw [put_eq]
      refine fits_bind outCap ?_ fun _ => ?_
      · simp
      rw [mark_eq]
      refine fits_bind outCap ?_ fun _ => ?_
      · simp
      rw [put_eq]
      refine fits_bind outCap ?_ fun _ => ?_
      · simp
      rw [mark_eq]
      refine fits_bind outCap ?_ fun hfit => ?_
      · simp
      exact (fits_of_le outCap (by exact hfit)).symm
    · exact (fits_of_le outCap (by exact h)).symm
    · exact (fits_of_le outCap (by exact h)).symm

theorem stepChecked_eq {q : Quoting} (h : q.out.length ≤ outCap) (x : UInt8) :
    q.stepChecked outCap x = (q.step x).fits outCap := by
  unfold stepChecked step
  split_ifs
  · exact (fits_of_le outCap (by exact h)).symm
  · exact (fits_of_le outCap (by exact h)).symm
  · exact closeChecked_eq outCap h
  · exact (fits_of_le outCap (by exact h)).symm
  · exact (fits_of_le outCap (by rwa [out_letter])).symm

/-- The loop with its checks. -/
theorem foldlM_checked {q : Quoting} (h : q.out.length ≤ outCap) (a : List UInt8) :
    a.foldlM (fun q x => do
      let q' ← stepChecked outCap q x
      .ok (q'.pass x)) q = fits outCap (a.foldl (fun q x => pass (q.step x) x) q) := by
  induction a generalizing q with
  | nil => exact (fits_of_le outCap (by exact h)).symm
  | cons x a ih =>
    have hgrow := (out_foldl_grows ((q.step x).pass x) a).length_le
    rw [out_pass] at hgrow
    rw [List.foldlM_cons, stepChecked_eq outCap h, bind_assoc]
    refine fits_bind outCap hgrow fun hfit => ?_
    exact ih (by rwa [out_pass])

end Quoting

theorem Quoting.fits_finish (outCap : ℕ) (q : Quoting) :
    (q.fits outCap >>= fun q => if outCap ≤ q.out.length then .error .cellLength else .ok q.out) =
      (if outCap ≤ q.out.length then .error .cellLength else .ok q.out :
        Except Fail (List UInt8)) := by
  by_cases h : outCap < q.out.length
  · have hq : q.fits outCap = .error .cellLength := if_pos h
    rw [hq, if_pos h.le]
    rfl
  · rw [fits_of_le outCap (not_lt.mp h)]
    rfl

/-- What is copied after the loop, and the check after that. -/
theorem getStrAddQuote_eq (outCap : ℕ) (a : List UInt8) {q : Quoting}
    (hq : (a.foldl (fun q x => Quoting.pass (q.step x) x) (Quoting.mk [] [] none false 0)).close =
      q) :
    getStrAddQuote outCap a =
      if outCap ≤ (if q.out = [] then [] else q.out ++ (q.before ++ q.item.getD [])).length
        then .error .cellLength
      else .ok (if q.out = [] then [] else q.out ++ (q.before ++ q.item.getD [])) := by
  rw [getStrAddQuote, hq]
  simp only [List.append_assoc]

/-- The check after the loop would do. -/
theorem getStrAddQuoteChecked_eq (outCap : ℕ) (a : List UInt8) :
    getStrAddQuoteChecked outCap a = getStrAddQuote outCap a := by
  generalize hq : (a.foldl (fun q x => Quoting.pass (q.step x) x)
    (Quoting.mk [] [] none false 0)).close = q
  rw [getStrAddQuote_eq outCap a hq]
  have hstart : (Quoting.mk [] [] none false 0).out.length ≤ outCap := Nat.zero_le _
  have hgrow := (Quoting.out_close_grows (a.foldl (fun q x => Quoting.pass (q.step x) x)
    (Quoting.mk [] [] none false 0))).length_le
  rw [hq] at hgrow
  -- Up to the end of the loop, and of the last item.
  have hclose : (a.foldlM (fun q x => do
      let q' ← Quoting.stepChecked outCap q x
      .ok (q'.pass x)) (Quoting.mk [] [] none false 0) >>= Quoting.closeChecked outCap) =
      q.fits outCap := by
    rw [Quoting.foldlM_checked outCap hstart]
    exact Quoting.fits_bind outCap hgrow fun hfit => by rw [Quoting.closeChecked_eq outCap hfit, hq]
  rw [getStrAddQuoteChecked, ← bind_assoc, hclose]
  by_cases hlong : outCap < q.out.length
  · have hne : q.out ≠ [] := List.ne_nil_of_length_pos (by omega)
    have hfull : outCap ≤ (q.out ++ (q.before ++ q.item.getD [])).length := by
      rw [List.length_append]
      omega
    have hfits : q.fits outCap = .error .cellLength := if_pos hlong
    rw [hfits, if_neg hne, if_pos hfull]
    rfl
  · rw [Quoting.fits_of_le outCap (not_lt.mp hlong)]
    by_cases hnil : q.out = []
    · have hfits : (Except.ok q : Except Fail Quoting) = q.fits outCap :=
        (Quoting.fits_of_le outCap (not_lt.mp hlong)).symm
      refine (if_pos hnil).trans ?_
      rw [if_pos hnil, hfits, Quoting.fits_finish, hnil]
    · refine (if_neg hnil).trans ?_
      rw [if_neg hnil, Quoting.put_eq, Quoting.fits_finish]

/-! ## The pieces of a text -/

/-- A part of a text that stays as it is, and one after it that is quoted. -/
structure Piece where
  gap : List UInt8
  run : List UInt8

namespace Piece

/-- What pieces stand for in the text. -/
def plain (ps : List Piece) : List UInt8 := ps.flatMap fun p => p.gap ++ p.run

/-- What is written for pieces. -/
def marked (ps : List Piece) : List UInt8 := ps.flatMap fun p => p.gap ++ [34] ++ p.run ++ [34]

/-- A character that an item can start at. -/
def Starts (x : UInt8) : Prop := x ≠ 32 ∧ x ≠ 10 ∧ x ≠ 13 ∧ x ≠ 44 ∧ x ≠ 123 ∧ x ≠ 125

/-- A character of a number. -/
def Numeric (x : UInt8) : Prop := x = 45 ∨ x = 46 ∨ 47 < x ∧ x < 58

/-- A comma or a closing brace. -/
def Separator (x : UInt8) : Prop := x = 44 ∨ x = 125

/-- A run that is quoted: it starts at the start of an item, and it is more than a number. -/
def IsRun (r : List UInt8) : Prop := (∃ c t, r = c :: t ∧ Starts c) ∧ ∃ x ∈ r, ¬Numeric x

/-- The runs are quoted, and what comes after each of them, up to the end of the text, is `E`. -/
def Runs (E : List UInt8 → Prop) : List Piece → List UInt8 → Prop
  | [], _ => True
  | p :: ps, tail => IsRun p.run ∧ E (plain ps ++ tail) ∧ Runs E ps tail

/-- A separator comes next. -/
def Cut (rest : List UInt8) : Prop := ∃ x t, rest = x :: t ∧ Separator x

/-- A separator comes next, or nothing. -/
def Ends (rest : List UInt8) : Prop := rest = [] ∨ Cut rest

theorem Cut.append {rest : List UInt8} (h : Cut rest) (u : List UInt8) : Cut (rest ++ u) := by
  obtain ⟨x, t, rfl, hx⟩ := h
  exact ⟨x, t ++ u, rfl, hx⟩

/-- More of the text comes after the runs. -/
theorem Runs.append {ps : List Piece} {tail : List UInt8} (h : Runs Cut ps tail) (u : List UInt8) :
    Runs Cut ps (tail ++ u) := by
  induction ps with
  | nil => trivial
  | cons p ps ih =>
    obtain ⟨hrun, hcut, hrest⟩ := h
    refine ⟨hrun, ?_, ih hrest⟩
    rw [← List.append_assoc]
    exact hcut.append u

theorem Runs.ends {ps : List Piece} {tail : List UInt8} (h : Runs Cut ps tail) :
    Runs Ends ps tail := by
  induction ps with
  | nil => trivial
  | cons p ps ih => exact ⟨h.1, .inr h.2.1, ih h.2.2⟩

/-- One more run. -/
theorem runs_concat {E : List UInt8 → Prop} (ps : List Piece) (p : Piece) (tail : List UInt8) :
    Runs E (ps ++ [p]) tail ↔ Runs E ps (p.gap ++ p.run ++ tail) ∧ IsRun p.run ∧ E tail := by
  induction ps with
  | nil => simp [Runs, plain]
  | cons q ps ih =>
    have hplain : plain (ps ++ [p]) ++ tail = plain ps ++ (p.gap ++ p.run ++ tail) := by
      simp [plain]
    rw [List.cons_append, Runs, Runs, ih, hplain]
    tauto

end Piece

namespace Quoting

open Piece

/-- How far the variables take a text apart: into pieces that are written, what is before the
current item, and the current item. -/
structure Reading (ps : List Piece) (p : List UInt8) (q : Quoting) : Prop where
  source : p = plain ps ++ (q.before ++ q.item.getD [])
  out : q.out = marked ps
  runs : Runs Cut ps (q.before ++ q.item.getD [])
  starts : ∀ i, q.item = some i → ∃ c t, i = c :: t ∧ Starts c
  letter : ∀ i, q.item = some i → q.hasLetter = true → ∃ x ∈ i, ¬Numeric x

/-- The current item is to be quoted if it ends here. -/
def Due (q : Quoting) : Prop := q.item ≠ none ∧ q.hasLetter = true ∧ q.cntKuo = 0

/-- A character that is read goes to the item, or to what is before it. -/
theorem Reading.pass {ps : List Piece} {p : List UInt8} {q : Quoting} (h : Reading ps p q)
    (x : UInt8) : Reading ps (p ++ [x]) (q.pass x) := by
  have htail : ∀ {b i : List UInt8}, q.before ++ q.item.getD [] ++ [x] = b ++ i →
      p ++ [x] = plain ps ++ (b ++ i) ∧ Runs Cut ps (b ++ i) := by
    intro b i hbi
    rw [← hbi]
    exact ⟨by rw [h.source, List.append_assoc], h.runs.append [x]⟩
  unfold Quoting.pass
  cases hitem : q.item with
  | none =>
    obtain ⟨hsource, hruns⟩ := htail (b := q.before ++ [x]) (i := []) (by simp [hitem])
    refine ⟨hsource, h.out, hruns, ?_, ?_⟩
    · exact fun i hi => absurd hi (by simp)
    · exact fun i hi => absurd hi (by simp)
  | some i =>
    obtain ⟨hsource, hruns⟩ := htail (b := q.before) (i := i ++ [x]) (by simp [hitem])
    refine ⟨hsource, h.out, hruns, ?_, ?_⟩
    · intro j hj
      obtain ⟨c, t, rfl, hc⟩ := h.starts i hitem
      rw [← Option.some.inj hj]
      exact ⟨c, t ++ [x], rfl, hc⟩
    · intro j hj hletter
      obtain ⟨y, hy, hnum⟩ := h.letter i hitem hletter
      rw [← Option.some.inj hj]
      exact ⟨y, List.mem_append_left _ hy, hnum⟩

/-- At the end of an item, the item becomes a piece with what is before it, or stays what it is, or
goes to what is before the next. A piece that has come up ends here. -/
theorem Reading.close {ps : List Piece} {p : List UInt8} {q : Quoting} (h : Reading ps p q) :
    Reading ps p q.close ∨
      ∃ pc, q.close.before = [] ∧ q.close.item = none ∧ p = plain (ps ++ [pc]) ∧
        q.close.out = marked (ps ++ [pc]) ∧ Runs Cut ps (pc.gap ++ pc.run) ∧ IsRun pc.run := by
  unfold Quoting.close
  cases hitem : q.item with
  | none => exact .inl h
  | some i =>
    dsimp only
    split_ifs with hletter hkuo
    · right
      refine ⟨⟨q.before, i⟩, rfl, rfl, ?_, ?_, ?_, h.starts i hitem, h.letter i hitem hletter⟩
      · have hsource := h.source
        rw [hitem] at hsource
        rw [hsource]
        simp [plain]
      · rw [h.out]
        simp [marked]
      · have hruns := h.runs
        rw [hitem] at hruns
        exact hruns
    · exact .inl h
    · left
      have hsource := h.source
      have hruns := h.runs
      rw [hitem, Option.getD_some] at hsource hruns
      refine ⟨?_, h.out, ?_, ?_, ?_⟩
      · simpa using hsource
      · simpa using hruns
      · exact fun j hj => absurd hj (by simp)
      · exact fun j hj => absurd hj (by simp)

/-- A character of an item, which begins one if there is none. -/
theorem Reading.letter_pass {ps : List Piece} {p : List UInt8} {q : Quoting} (h : Reading ps p q)
    {x : UInt8} (hx : Starts x) : Reading ps (p ++ [x]) ((q.letter x).pass x) := by
  cases hitem : q.item with
  | none =>
    -- The item begins here, and the flag that is set is only about `x`.
    have hread : ((q.letter x).pass x).before = q.before ∧ ((q.letter x).pass x).out = q.out ∧
        ((q.letter x).pass x).item = some [x] ∧
        (((q.letter x).pass x).hasLetter = true → ¬Numeric x) := by
      unfold Quoting.letter Quoting.pass
      rw [hitem]
      by_cases hnum : x = 45 ∨ x = 46 ∨ 47 < x ∧ x < 58
      · simp [hnum]
      · simp [hnum, Numeric]
    obtain ⟨hbefore, hout, hitem', hletter⟩ := hread
    have hsource := h.source
    have hruns := h.runs
    rw [hitem, Option.getD_none, List.append_nil] at hsource hruns
    refine ⟨?_, hout.trans h.out, ?_, ?_, ?_⟩
    · rw [hbefore, hitem', hsource, Option.getD_some, List.append_assoc]
    · rw [hbefore, hitem']
      exact hruns.append [x]
    · intro i hi
      rw [hitem', Option.some.injEq] at hi
      exact ⟨x, [], hi.symm, hx⟩
    · intro i hi hl
      rw [hitem', Option.some.injEq] at hi
      rw [← hi]
      exact ⟨x, List.mem_singleton_self x, hletter hl⟩
  | some i =>
    have hsome : q.item ≠ none := by simp [hitem]
    by_cases hnum : x = 45 ∨ x = 46 ∨ 47 < x ∧ x < 58
    · have hsame : q.letter x = q := by
        unfold Quoting.letter
        dsimp only
        rw [if_neg hsome, if_pos hnum]
      rw [hsame]
      exact h.pass x
    · -- The character is the letter that the flag speaks of from now on.
      have hset : q.letter x = { q with hasLetter := true } := by
        unfold Quoting.letter
        dsimp only
        rw [if_neg hsome, if_neg hnum]
      have hpass := h.pass x
      have hpassed : (q.pass x).item = some (i ++ [x]) := by
        rw [Quoting.pass, hitem]
      have hset' : (q.letter x).pass x = { q.pass x with hasLetter := true } := by
        rw [hset, Quoting.pass, Quoting.pass]
        dsimp only
        rw [hitem]
      rw [hset']
      refine ⟨hpass.source, hpass.out, hpass.runs, hpass.starts, ?_⟩
      intro j hj _
      rw [← Option.some.inj (hpassed.symm.trans hj)]
      exact ⟨x, List.mem_append_right _ (List.mem_singleton_self x), hnum⟩

/-- One character. -/
theorem Reading.step {ps : List Piece} {p : List UInt8} {q : Quoting} (h : Reading ps p q)
    (x : UInt8) : ∃ ps', Reading ps' (p ++ [x]) ((q.step x).pass x) := by
  unfold Quoting.step
  split_ifs with hopen hclose hsep hblank
  · have hkuo : Reading ps p { q with cntKuo := q.cntKuo + 1 } :=
      ⟨h.source, h.out, h.runs, h.starts, h.letter⟩
    exact ⟨ps, hkuo.pass x⟩
  · have hkuo : Reading ps p { q with cntKuo := q.cntKuo - 1 } :=
      ⟨h.source, h.out, h.runs, h.starts, h.letter⟩
    exact ⟨ps, hkuo.pass x⟩
  · rcases h.close with hsame | ⟨pc, hbefore, hitem, hsource, hout, hruns, hrun⟩
    · exact ⟨ps, hsame.pass x⟩
    · -- The separator comes after the new piece.
      rw [pass_of_none hitem, hbefore]
      refine ⟨ps ++ [pc], ?_, hout, ?_, ?_, ?_⟩
      · rw [hitem, hsource]
        rfl
      · rw [hitem]
        exact (runs_concat ps pc [x]).mpr ⟨hruns.append [x], hrun, x, [], rfl, hsep⟩
      · exact fun i hi => absurd (hitem.symm.trans hi) (by simp)
      · exact fun i hi => absurd (hitem.symm.trans hi) (by simp)
  · exact ⟨ps, h.pass x⟩
  · refine ⟨ps, h.letter_pass ?_⟩
    rw [not_or] at hsep
    rw [not_or, not_or, not_or] at hblank
    exact ⟨hblank.2.2.1, hblank.1, hblank.2.1, hsep.1, hblank.2.2.2, hsep.2⟩

/-- The variables after a text. -/
def after (a : List UInt8) : Quoting :=
  a.foldl (fun q x => Quoting.pass (q.step x) x) (Quoting.mk [] [] none false 0)

/-- At every point of a text, the variables take apart what has been read. -/
theorem after_reading (a : List UInt8) : ∃ ps, Reading ps a (after a) := by
  induction a using List.reverseRecOn with
  | nil =>
    refine ⟨[], rfl, rfl, trivial, ?_, ?_⟩
    · exact fun i hi => absurd hi (by simp [after])
    · exact fun i hi => absurd hi (by simp [after])
  | append_singleton a x ih =>
    obtain ⟨ps, h⟩ := ih
    rw [after, List.foldl_concat]
    exact h.step x

/-- An item that is due is quoted where it ends. -/
theorem Due.out_close {q : Quoting} (h : q.Due) : q.close.out ≠ [] := by
  obtain ⟨hitem, hletter, hkuo⟩ := h
  obtain ⟨i, hi⟩ := Option.ne_none_iff_exists'.mp hitem
  rw [Quoting.close, hi]
  dsimp only
  rw [if_pos hletter, if_pos hkuo]
  simp

/-- Where an item is due at its end, something is written. -/
theorem out_ne_nil_of_due {a p s : List UInt8} (ha : a = p ++ s) (hs : Ends s)
    (hdue : (after p).Due) : (after a).close.out ≠ [] := by
  have hprefix : ∀ {b c : List UInt8}, b <+: c → b ≠ [] → c ≠ [] := by
    rintro b c ⟨t, rfl⟩ hb
    exact List.append_ne_nil_of_left_ne_nil hb t
  rcases hs with hs | ⟨x, t, hs, hx⟩
  · rw [ha, hs, List.append_nil]
    exact hdue.out_close
  · have hstep : (after p).step x = (after p).close := by
      have hne : x ≠ 40 ∧ x ≠ 41 := by rcases hx with rfl | rfl <;> decide
      rw [Quoting.step, if_neg hne.1, if_neg hne.2]
      exact if_pos hx
    have hfold : after a = t.foldl (fun q x => Quoting.pass (q.step x) x)
        (((after p).close).pass x) := by
      rw [ha, hs, after, List.foldl_append, List.foldl_cons, ← hstep]
      rfl
    have hgrow := out_foldl_grows ((after p).close.pass x) t
    rw [← hfold, out_pass] at hgrow
    exact hprefix (hgrow.trans (out_close_grows _)) hdue.out_close

end Quoting

open Piece in
/-- A text for which `getStrAddQuote` returns is written within the room there is. Nothing is
written where no item that ends is due to be quoted. Otherwise the text is written with quotation
marks around runs, each of which starts at the start of an item, ends at a separator or at the end
of the text, and is more than a number. -/
theorem getStrAddQuote_spec {outCap : ℕ} {a out : List UInt8}
    (h : getStrAddQuote outCap a = .ok out) :
    getStrAddQuoteChecked outCap a = .ok out ∧ out.length < outCap ∧
      ((out = [] ∧ ∀ p s, a = p ++ s → Ends s → ¬(Quoting.after p).Due) ∨
        ∃ ps tail, ps ≠ [] ∧ a = plain ps ++ tail ∧ out = marked ps ++ tail ∧
          Runs Ends ps tail) := by
  generalize hq : (Quoting.after a).close = q
  rw [getStrAddQuoteChecked_eq]
  refine ⟨h, ?_⟩
  rw [getStrAddQuote_eq outCap a hq] at h
  by_cases hfull : outCap ≤
      (if q.out = [] then [] else q.out ++ (q.before ++ q.item.getD [])).length
  · rw [if_pos hfull] at h
    cases h
  rw [if_neg hfull] at h
  have hout := Except.ok.inj h
  rw [hout] at hfull
  refine ⟨not_le.mp hfull, ?_⟩
  by_cases hnil : q.out = []
  · left
    rw [if_pos hnil] at hout
    refine ⟨hout.symm, fun p s ha hs hdue => ?_⟩
    have hne := Quoting.out_ne_nil_of_due ha hs hdue
    rw [hq] at hne
    exact hne hnil
  · right
    rw [if_neg hnil] at hout
    obtain ⟨ps, hread⟩ := Quoting.after_reading a
    -- The end of the text ends the last item, which is put in quotes or stays as it is.
    rcases hread.close with hsame | ⟨pc, hbefore, hitem, hsource, hmarked, hruns, hrun⟩
    · rw [hq] at hsame
      refine ⟨ps, q.before ++ q.item.getD [], ?_, hsame.source, ?_, hsame.runs.ends⟩
      · rintro rfl
        exact hnil hsame.out
      · rw [← hout, hsame.out]
    · rw [hq] at hbefore hitem hmarked
      refine ⟨ps ++ [pc], [], by simp, by rw [hsource, List.append_nil], ?_, ?_⟩
      · rw [← hout, hmarked, hbefore, hitem]
        rfl
      · refine (runs_concat ps pc []).mpr ⟨?_, hrun, .inl rfl⟩
        rw [List.append_nil]
        exact hruns.ends

/-- A text with a name, a number and a call with a comma in it. -/
theorem getStrAddQuote_items :
    getStrAddQuote 4096 (bytes "ab, 1,f(x,y)") = .ok (bytes "\"ab\", 1,\"f(x,y)\"") ∧
      (bytes "\"ab\", 1,\"f(x,y)\"").length < 4096 := by
  have h : getStrAddQuote 4096 (bytes "ab, 1,f(x,y)") = .ok (bytes "\"ab\", 1,\"f(x,y)\"") := by rfl
  exact ⟨h, (getStrAddQuote_spec h).2.1⟩

end Catse.Myxml2
