import Catse.Lib.Literals
import Catse.Myxml2.Untouched

/-!
# Literals in a cell

`removeSpace` is there to remove white space and trailing commas from a table in Lua, and what is in
string literals is to stay. Its first loop knows literals by a toggle and a count, and the two reach
a different state than Lua does where a quote is escaped, or where there are brackets in quotes or
quotes in brackets. The commas are removed by a loop that does not look for literals at all. And two
brackets with white space between them are not brackets of a literal before it is removed, and are
after. `Safe` says that a text has nothing of the kind at a place where it counts, and
`literals_survive_iff` that the literals stay in exactly these texts.
-/

namespace Catse.Myxml2

/-- What the first loop removes outside of quotes and double brackets. -/
def Blank (x : UInt8) : Prop := x = 10 ∨ x = 13 ∨ x = 32

instance (x : UInt8) : Decidable (Blank x) := inferInstanceAs (Decidable (_ ∨ _ ∨ _))

/-- White space, or a comma with a closing brace or nothing after it, that is not in a literal. -/
def Idle (m : Mark) (ms : List Mark) : Prop :=
  m.before = .code ∧ m.after = .code ∧
    (Blank m.char ∨ m.char = 44 ∧
      (ms.head?.map Mark.char = some 125 ∨ ms.head?.map Mark.char = none))

/-- The literals have the same contents, and only white space and trailing commas outside of them
are gone. -/
structure Survives (a b : List UInt8) : Prop where
  literals_eq : literals b = literals a
  thinned : Thinned Idle (marks .code a) (marks .code b)

/-- The literals are the same because what is gone is outside of them. -/
theorem survives_iff {a b : List UInt8} :
    Survives a b ↔ Thinned Idle (marks .code a) (marks .code b) :=
  ⟨Survives.thinned, fun h => ⟨contents_eq (fun _ _ hm => ⟨hm.1, hm.2.1⟩) h, h⟩⟩

/-! ## What is removed -/

/-- The first character of a text that the first loop keeps. -/
def nextKept (yin : Bool) (kuo : ℤ) (a : List UInt8) : Option UInt8 :=
  if yin ∨ kuo ≠ 0 then a.head? else (a.dropWhile fun x => Blank x).head?

/-- Is a character removed? `yin` and `kuo` are the toggle and the count after it, and `a` is what
follows it. -/
def Goes (yin : Bool) (kuo : ℤ) (x : UInt8) (a : List UInt8) : Prop :=
  Blank x ∧ ¬(yin ∨ kuo ≠ 0) ∨
    x = 44 ∧ (nextKept yin kuo a = some 125 ∨ nextKept yin kuo a = none)

instance (yin : Bool) (kuo : ℤ) (x : UInt8) (a : List UInt8) : Decidable (Goes yin kuo x a) :=
  inferInstanceAs (Decidable (_ ∧ ¬_ ∨ _ ∧ (_ ∨ _)))

theorem toggle_of_blank {x : UInt8} (h : Blank x) (yin : Bool) : toggle yin x = yin := by
  rcases h with rfl | rfl | rfl <;> rfl

theorem count_of_blank {x : UInt8} (h : Blank x) (kuo : ℤ) (a : List UInt8) :
    count kuo x a = kuo := by
  rcases h with rfl | rfl | rfl <;> rfl

/-- What the first loop does at a character: white space goes where the toggle is off and the count
is zero. -/
theorem removeBlanks_step {yin : Bool} {kuo : ℤ} {x : UInt8} {a r : List UInt8}
    (h : removeBlanks yin kuo (x :: a) = .ok r) :
    ∃ rest, removeBlanks (toggle yin x) (count kuo x a) a = .ok rest ∧
      r = if Blank x ∧ ¬(toggle yin x ∨ count kuo x a ≠ 0) then rest else x :: rest := by
  obtain ⟨-, -, rest, hrest, rfl⟩ := removeBlanks_cons h
  refine ⟨rest, hrest, ?_⟩
  rw [← ite_not]
  exact if_congr (by unfold Blank; tauto) rfl rfl

/-- The second loop, and the end. -/
def dropCommas (a : List UInt8) : List UInt8 := removeLast (removeCommas a)

theorem removeCommas_ne_nil {a : List UInt8} (h : a ≠ []) : removeCommas a ≠ [] := by
  induction a with
  | nil => exact absurd rfl h
  | cons x a ih =>
    rw [removeCommas]
    split_ifs with hcomma
    · refine ih ?_
      rintro rfl
      cases hcomma.2
    · exact List.cons_ne_nil _ _

theorem removeLast_cons (x : UInt8) {a : List UInt8} (h : a ≠ []) :
    removeLast (x :: a) = x :: removeLast a := by
  rw [removeLast, removeLast, List.getLast?_cons_of_ne_nil h]
  split_ifs
  · exact List.dropLast_cons_of_ne_nil h
  · rfl

theorem dropCommas_cons (x : UInt8) (a : List UInt8) :
    dropCommas (x :: a) =
      if x = 44 ∧ (a.head? = some 125 ∨ a.head? = none) then dropCommas a
      else x :: dropCommas a := by
  cases a with
  | nil =>
    by_cases hx : x = 44
    · simp [dropCommas, removeCommas, removeLast, next, hx]
    · simp [dropCommas, removeCommas, removeLast, next, hx]
  | cons y a =>
    have hne := removeCommas_ne_nil (List.cons_ne_nil y a)
    unfold dropCommas
    rw [removeCommas]
    by_cases hx : x = 44 ∧ y = 125
    · rw [if_pos (by simpa [next] using hx), if_pos (by simpa using hx)]
    · rw [if_neg (by simpa [next] using hx), if_neg (by simpa using hx), removeLast_cons x hne]

/-- Only commas are removed, so that what is not a comma comes first if it did. -/
theorem head?_dropCommas {a : List UInt8} {c : UInt8} (h : a.head? = some c) (hc : c ≠ 44) :
    (dropCommas a).head? = some c := by
  obtain ⟨a', rfl⟩ : ∃ a', a = c :: a' := List.head?_eq_some_iff.mp h
  rw [dropCommas_cons, if_neg fun h => hc h.1]
  rfl

/-- If the first character has been removed then a closing brace comes first. -/
theorem head?_of_dropCommas {a : List UInt8} {c : UInt8} (h : (dropCommas a).head? = some c) :
    c = 125 ∨ a.head? = some c := by
  cases a with
  | nil => cases h
  | cons x a =>
    rw [dropCommas_cons] at h
    split_ifs at h with hcomma
    · rcases hcomma.2 with hbrace | hend
      · rw [head?_dropCommas hbrace (by decide)] at h
        exact .inl (Option.some.inj h).symm
      · rw [List.head?_eq_none_iff.mp hend] at h
        cases h
    · exact .inr h

theorem nextKept_cons (yin : Bool) (kuo : ℤ) (x : UInt8) (a : List UInt8) :
    nextKept yin kuo (x :: a) =
      if Blank x ∧ ¬(yin ∨ kuo ≠ 0) then nextKept yin kuo a else some x := by
  unfold nextKept
  by_cases hin : yin = true ∨ kuo ≠ 0
  · rw [if_pos hin, if_neg fun h => h.2 hin]
    rfl
  · rw [if_neg hin, if_neg hin]
    by_cases hx : Blank x
    · rw [if_pos ⟨hx, hin⟩, List.dropWhile_cons_of_pos (by simpa using hx)]
    · rw [if_neg fun h => hx h.1, List.dropWhile_cons_of_neg (by simpa using hx)]
      rfl

/-- White space that is removed does not come next. -/
theorem nextKept_ne_blank {yin : Bool} {kuo : ℤ} (hin : ¬(yin = true ∨ kuo ≠ 0)) {x : UInt8}
    (hx : Blank x) (a : List UInt8) : nextKept yin kuo a ≠ some x := by
  induction a with
  | nil => rw [nextKept, if_neg hin]; exact (Option.some_ne_none x).symm
  | cons y a ih =>
    rw [nextKept_cons]
    split_ifs with hy
    · exact ih
    · rintro ⟨⟩
      exact hy ⟨hx, hin⟩

/-- A character other than white space comes next if it comes first. -/
theorem nextKept_of_head? (yin : Bool) (kuo : ℤ) {c : UInt8} {a : List UInt8}
    (h : a.head? = some c) (hc : ¬Blank c) : nextKept yin kuo a = some c := by
  obtain ⟨a', rfl⟩ : ∃ a', a = c :: a' := List.head?_eq_some_iff.mp h
  rw [nextKept_cons, if_neg fun h => hc h.1]

/-- What the first loop keeps begins with the character that comes next. -/
theorem head?_removeBlanks {yin : Bool} {kuo : ℤ} {a r : List UInt8}
    (h : removeBlanks yin kuo a = .ok r) : r.head? = nextKept yin kuo a := by
  induction a generalizing yin kuo r with
  | nil =>
    cases h
    rw [nextKept]
    split_ifs <;> rfl
  | cons x a ih =>
    obtain ⟨rest, hrest, rfl⟩ := removeBlanks_step h
    have hhead := ih hrest
    rw [nextKept_cons]
    by_cases hx : Blank x
    · rw [toggle_of_blank hx, count_of_blank hx] at hhead ⊢
      rw [← hhead]
      split_ifs <;> rfl
    · rw [if_neg fun h => hx h.1, if_neg fun h => hx h.1]
      rfl

/-- What `removeSpace` does at a character. -/
theorem dropCommas_removeBlanks {yin : Bool} {kuo : ℤ} {x : UInt8} {a r : List UInt8}
    (h : removeBlanks yin kuo (x :: a) = .ok r) :
    ∃ rest, removeBlanks (toggle yin x) (count kuo x a) a = .ok rest ∧
      dropCommas r =
        if Goes (toggle yin x) (count kuo x a) x a then dropCommas rest
        else x :: dropCommas rest := by
  obtain ⟨rest, hrest, rfl⟩ := removeBlanks_step h
  refine ⟨rest, hrest, ?_⟩
  by_cases hblank : Blank x ∧ ¬(toggle yin x = true ∨ count kuo x a ≠ 0)
  · rw [if_pos hblank, if_pos (.inl hblank)]
  · rw [if_neg hblank, dropCommas_cons, head?_removeBlanks hrest]
    refine if_congr ?_ rfl rfl
    rw [Goes, or_iff_right hblank]

/-- When a character is removed, what is kept of the others begins with a different one. -/
theorem Goes.head?_ne {yin : Bool} {kuo : ℤ} {x : UInt8} {a rest : List UInt8}
    (h : Goes yin kuo x a) (hrest : rest.head? = nextKept yin kuo a) :
    (dropCommas rest).head? ≠ some x := by
  intro hhead
  have hcases := head?_of_dropCommas hhead
  rw [hrest] at hcases
  rcases h with ⟨hx, hin⟩ | ⟨rfl, hnext⟩
  · rcases hcases with rfl | hnext
    · exact absurd hx (by decide)
    · exact nextKept_ne_blank hin hx a hnext
  · rcases hcases with hbrace | hcomma
    · exact absurd hbrace (by decide)
    · rw [hcomma] at hnext
      exact absurd hnext (by decide)

/-! ## The two readings -/

/-- In a text that is read from here on, no character of a literal is removed, and no two opening
brackets outside of literals are moved together. The text is read as Lua does, with `q`, and as
`removeSpace` does, with `yin` and `kuo`. -/
def Safe (q : Mode) (yin : Bool) (kuo : ℤ) : List UInt8 → Prop
  | [] => True
  | x :: a =>
    (Goes (toggle yin x) (count kuo x a) x a → q = .code) ∧
      (q = .code → x = 91 → nextKept (toggle yin x) (count kuo x a) a = some 91 →
        a.head? = some 91) ∧
      Safe (q.step x a) (toggle yin x) (count kuo x a) a

instance (q : Mode) (yin : Bool) (kuo : ℤ) (a : List UInt8) : Decidable (Safe q yin kuo a) := by
  induction a generalizing q yin kuo with
  | nil => exact inferInstanceAs (Decidable True)
  | cons x a ih =>
    have := ih (q.step x a) (toggle yin x) (count kuo x a)
    exact inferInstanceAs (Decidable (_ ∧ _ ∧ _))

/-- White space and commas begin no literal. -/
theorem step_code {x : UInt8} (h : Blank x ∨ x = 44) (a : List UInt8) :
    Mode.code.step x a = .code := by
  rcases h with (rfl | rfl | rfl) | rfl <;> simp [Mode.step]

theorem Goes.blank_or_comma {yin : Bool} {kuo : ℤ} {x : UInt8} {a : List UInt8}
    (h : Goes yin kuo x a) : Blank x ∨ x = 44 := h.imp And.left And.left

theorem Idle.blank_or_comma {m : Mark} {ms : List Mark} (h : Idle m ms) :
    Blank m.char ∨ m.char = 44 := h.2.2.imp_right And.left

/-- What is removed outside of literals may go. -/
theorem Goes.idle {yin : Bool} {kuo : ℤ} {x : UInt8} {a rest : List UInt8}
    (h : Goes yin kuo x a) (hrest : rest.head? = nextKept yin kuo a) :
    Idle ⟨.code, x, .code⟩ (marks .code (dropCommas rest)) := by
  refine ⟨rfl, rfl, ?_⟩
  rw [head?_marks]
  rcases h with ⟨hx, -⟩ | ⟨rfl, hnext⟩
  · exact .inl hx
  · rw [← hrest] at hnext
    refine .inr ⟨rfl, hnext.imp (fun hbrace => head?_dropCommas hbrace (by decide)) fun hend => ?_⟩
    rw [List.head?_eq_none_iff.mp hend]
    rfl

/-- No mark needs white space or a comma after it to go. -/
theorem Idle.of_cons {m n : Mark} {ns : List Mark} (hm : Blank m.char ∨ m.char = 44)
    (h : Idle n (m :: ns)) : Idle n ns := by
  refine ⟨h.1, h.2.1, h.2.2.imp_right fun ⟨_, hnext⟩ => ?_⟩
  rcases hnext with hbrace | hend
  · have hchar : m.char = 125 := Option.some.inj hbrace
    rw [hchar] at hm
    exact absurd hm (by decide)
  · cases hend

/-- In a literal that is safe no white space is passed over. -/
theorem Safe.nextKept_eq {q : Mode} {yin : Bool} {kuo : ℤ} {a : List UInt8}
    (h : Safe q yin kuo a) (hq : q ≠ .code) : nextKept yin kuo a = a.head? := by
  cases a with
  | nil => rw [nextKept]; split_ifs <;> rfl
  | cons x a =>
    rw [nextKept_cons]
    split_ifs with hx
    · refine absurd (h.1 (.inl ?_)) hq
      rwa [toggle_of_blank hx.1, count_of_blank hx.1]
    · rfl

/-- At a character that is kept, a safe text is read after the edit as it was before. -/
theorem Safe.step_eq {q : Mode} {yin : Bool} {kuo : ℤ} {x : UInt8} {a rest : List UInt8}
    (h : Safe q yin kuo (x :: a))
    (hrest : rest.head? = nextKept (toggle yin x) (count kuo x a) a) :
    q.step x (dropCommas rest) = q.step x a := by
  -- Brackets that come first come first after the edit.
  have hstays : ∀ c, c ≠ 44 → ¬Blank c → a.head? = some c → (dropCommas rest).head? = some c :=
    fun c hc hblank ha => head?_dropCommas (hrest.trans (nextKept_of_head? _ _ ha hblank)) hc
  have hnext : ∀ c, c ≠ 125 → (dropCommas rest).head? = some c →
      nextKept (toggle yin x) (count kuo x a) a = some c :=
    fun c hc hhead => hrest.symm.trans ((head?_of_dropCommas hhead).resolve_left hc)
  apply Mode.step_congr
  · intro hq hx
    exact ⟨fun hhead => h.2.1 hq hx (hnext 91 (by decide) hhead),
      hstays 91 (by decide) (by decide)⟩
  · intro hq hx
    refine ⟨fun hhead => ?_, hstays 93 (by decide) (by decide)⟩
    by_contra hsingle
    have hstep : q.step x a = .long := by simp [Mode.step, hq, hsingle]
    have hsafe := h.2.2
    rw [hstep] at hsafe
    exact hsingle ((hsafe.nextKept_eq (by decide)).symm.trans (hnext 93 (by decide) hhead))

/-- What goes from a safe text is outside of literals. -/
theorem Safe.thinned {q : Mode} {yin : Bool} {kuo : ℤ} {a r : List UInt8}
    (hr : removeBlanks yin kuo a = .ok r) (h : Safe q yin kuo a) :
    Thinned Idle (marks q a) (marks q (dropCommas r)) := by
  induction a generalizing q yin kuo r with
  | nil =>
    cases hr
    exact .nil
  | cons x a ih =>
    obtain ⟨rest, hrest, hkept⟩ := dropCommas_removeBlanks hr
    have hnext := head?_removeBlanks hrest
    have hsafe := ih hrest h.2.2
    rw [hkept, marks_cons]
    split_ifs with hgoes
    · have hq : q = .code := h.1 hgoes
      rw [hq] at hsafe ⊢
      rw [step_code hgoes.blank_or_comma] at hsafe ⊢
      exact .drop (hgoes.idle hnext) hsafe
    · rw [marks_cons, h.step_eq hnext]
      exact .keep _ hsafe

/-- Where a character is kept, it is read after the edit as it was before. -/
theorem step_eq_of_thinned {q : Mode} {x : UInt8} {a b : List UInt8}
    (h : Thinned Idle (marks q (x :: a)) (marks q (x :: b))) :
    q.step x b = q.step x a ∧ Thinned Idle (marks (q.step x a) a) (marks (q.step x a) b) := by
  rw [marks_cons, marks_cons] at h
  by_cases hidle : Idle ⟨q, x, q.step x a⟩ (⟨q, x, q.step x b⟩ :: marks (q.step x b) b)
  · obtain rfl : q = .code := hidle.1
    have hx : Blank x ∨ x = 44 := hidle.blank_or_comma
    rw [step_code hx, step_code hx] at h ⊢
    exact ⟨rfl, h.of_cons fun n hn => hn.of_cons hx⟩
  · obtain ⟨ns, heq, hthin⟩ := h.of_not hidle
    obtain ⟨hmark, rfl⟩ := List.cons.inj heq
    have hstep : q.step x b = q.step x a := congrArg Mark.after hmark
    rw [hstep] at hthin
    exact ⟨hstep, hthin⟩

/-- If only characters outside of literals have gone then the text was safe. -/
theorem safe_of_thinned {q : Mode} {yin : Bool} {kuo : ℤ} {a r : List UInt8}
    (hr : removeBlanks yin kuo a = .ok r)
    (h : Thinned Idle (marks q a) (marks q (dropCommas r))) : Safe q yin kuo a := by
  induction a generalizing q yin kuo r with
  | nil => trivial
  | cons x a ih =>
    obtain ⟨rest, hrest, hkept⟩ := dropCommas_removeBlanks hr
    have hnext := head?_removeBlanks hrest
    rw [hkept] at h
    by_cases hgoes : Goes (toggle yin x) (count kuo x a) x a
    · have hx : Blank x ∨ x = 44 := hgoes.blank_or_comma
      -- The character cannot have been kept, as another one comes first.
      have hne : ∀ ns, marks q (dropCommas rest) ≠ ⟨q, x, q.step x a⟩ :: ns := by
        intro ns heq
        have hhead := head?_marks q (dropCommas rest)
        rw [heq] at hhead
        exact hgoes.head?_ne hnext hhead.symm
      rw [if_pos hgoes, marks_cons] at h
      obtain ⟨hidle, hthin⟩ := h.of_ne hne
      obtain rfl : q = .code := hidle.1
      refine ⟨fun _ => rfl, fun _ h91 => ?_, ?_⟩
      · rw [h91] at hx
        exact absurd hx (by decide)
      · rw [step_code hx] at hthin ⊢
        exact ih hrest hthin
    · rw [if_neg hgoes] at h
      obtain ⟨hstep, hthin⟩ := step_eq_of_thinned h
      refine ⟨fun h => absurd h hgoes, fun hq hx hopen => ?_, ih hrest hthin⟩
      have hhead := head?_dropCommas (hnext.trans hopen) (by decide)
      rw [hq, hx] at hstep
      by_contra hsingle
      simp [Mode.step, hhead, hsingle] at hstep

/-- What is in literals survives `removeSpace` in the safe texts. -/
theorem literals_survive_iff {a b : List UInt8} (h : removeSpace a = .ok b) :
    Survives a b ↔ Safe .code false 0 a := by
  unfold removeSpace at h
  obtain ⟨r, hr, h⟩ := ok_of_bind h
  cases h
  exact survives_iff.trans ⟨safe_of_thinned hr, Safe.thinned hr⟩

/-- In `k = "a, b" , l = [[c  d]] , }` there are a comma and spaces in the literals, and others
outside of them. -/
theorem literals_survive_table :
    Survives (bytes "k = \"a, b\" , l = [[c  d]] , " ++ [125])
      (bytes "k=\"a, b\",l=[[c  d]]" ++ [125]) :=
  (literals_survive_iff (by decide)).mpr (by decide)

/-- The second loop takes a comma out of a literal. -/
theorem comma_lost :
    removeSpace [34, 97, 44, 125, 34] = .ok [34, 97, 125, 34] ∧
      literals [34, 97, 44, 125, 34] = [[97, 44, 125]] ∧
      literals [34, 97, 125, 34] = [[97, 125]] ∧
      ¬Survives [34, 97, 44, 125, 34] [34, 97, 125, 34] := by
  refine ⟨by decide, by decide, by decide, fun h => ?_⟩
  exact absurd h.literals_eq (by decide)

end Catse.Myxml2
