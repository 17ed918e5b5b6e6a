import Catse.Lib.Settling
import Mathlib.Data.List.Infix
import Mathlib.Data.List.Pairwise
import Mathlib.Tactic.Common

/-!
# Entities

Text in which a mark and a name stand for a character. `decode` reads such a text once, from left to
right, and what an entity stands for is never read again. Tables of entities can be decoded one
after the other as long as what the first stands for does not occur in the spellings of the second
(`decode_append`). The entity that stands for the mark itself is where this fails: decoded before
the others, it leaves a text that is shorter than it should be whenever a name follows it
(`decode_mark_first`). `escape` writes a text so that `decode` gives it back.
-/

namespace Catse

variable {α : Type} [DecidableEq α] {m : α}

/-- An entity: what follows the mark `m`, and the character that the two stand for. -/
structure Entity (m : α) where
  name : List α
  char : α
  not_mem : m ∉ name
  ne_nil : name ≠ []

namespace Entity

/-- How the entity is written. -/
def spelling (e : Entity m) : List α := m :: e.name

/-- The entity of a table that a text starts with. -/
def next? (tab : List (Entity m)) (a : List α) : Option (Entity m) :=
  tab.find? fun e => e.spelling.isPrefixOf a

/-- A text with its entities replaced by what they stand for. -/
def decode (tab : List (Entity m)) : List α → List α
  | [] => []
  | x :: a =>
    match next? tab (x :: a) with
    | some e => e.char :: decode tab (a.drop e.name.length)
    | none => x :: decode tab a
termination_by a => a.length
decreasing_by
  · rw [List.length_drop, List.length_cons]
    omega
  · exact Nat.lt_succ_self _

section Next

variable {tab tab' : List (Entity m)} {e : Entity m}

theorem next?_append (a : List α) :
    next? (tab ++ tab') a = (next? tab a).or (next? tab' a) := List.find?_append

/-- A text starts with the entity that is found in it. -/
theorem eq_of_next? {x : α} {a : List α} (h : next? tab (x :: a) = some e) :
    e ∈ tab ∧ x = m ∧ ∃ r, a = e.name ++ r := by
  have hpre : (e.spelling.isPrefixOf (x :: a)) = true := List.find?_some (p := fun e : Entity m =>
    e.spelling.isPrefixOf (x :: a)) h
  obtain ⟨hx, r, hr⟩ := List.cons_prefix_cons.mp (List.isPrefixOf_iff_prefix.mp hpre)
  exact ⟨List.mem_of_find?_eq_some h, hx.symm, r, hr.symm⟩

theorem next?_eq_none_iff (a : List α) :
    next? tab a = none ↔ ∀ e ∈ tab, ¬e.spelling <+: a := by
  rw [next?, List.find?_eq_none]
  simp only [List.isPrefixOf_iff_prefix]

/-- No entity starts with anything but the mark. -/
theorem next?_eq_none_of_ne {x : α} (hx : x ≠ m) (a : List α) : next? tab (x :: a) = none := by
  rw [next?_eq_none_iff]
  intro e _ hpre
  exact hx (List.cons_prefix_cons.mp hpre).1.symm

/-- Which entity is found depends only on which of the names come after the first character. -/
theorem next?_congr {x : α} {a b : List α} (h : ∀ e ∈ tab, e.name <+: a ↔ e.name <+: b) :
    next? tab (x :: a) = next? tab (x :: b) := by
  induction tab with
  | nil => rfl
  | cons e tab ih =>
    have he := h e List.mem_cons_self
    have hrest := ih fun e he => h e (List.mem_cons_of_mem _ he)
    have hsame : e.spelling.isPrefixOf (x :: a) = e.spelling.isPrefixOf (x :: b) := by
      rw [Bool.eq_iff_iff, List.isPrefixOf_iff_prefix, List.isPrefixOf_iff_prefix, spelling,
        List.cons_prefix_cons, List.cons_prefix_cons, he]
    rw [next?, next?, List.find?_cons, List.find?_cons, hsame]
    rw [next?, next?] at hrest
    rw [hrest]

end Next

section Decode

variable {tab tab' : List (Entity m)} {e : Entity m}

@[simp] theorem decode_nil : decode tab [] = [] := by
  rw [decode]

theorem decode_of_next? {r : List α} (h : next? tab (m :: (e.name ++ r)) = some e) :
    decode tab (m :: (e.name ++ r)) = e.char :: decode tab r := by
  rw [decode, h]
  simp only
  rw [List.drop_left]

theorem decode_of_none {x : α} {a : List α} (h : next? tab (x :: a) = none) :
    decode tab (x :: a) = x :: decode tab a := by
  rw [decode, h]

/-- Reading on to where the next entity can start. -/
theorem decode_append_of_not_mem {w : List α} (hw : m ∉ w) (r : List α) :
    decode tab (w ++ r) = w ++ decode tab r := by
  induction w with
  | nil => rfl
  | cons x w ih =>
    rw [List.mem_cons, not_or] at hw
    rw [List.cons_append, decode_of_none (next?_eq_none_of_ne (Ne.symm hw.1) _), ih hw.2,
      List.cons_append]

/-- Decoding leaves what a text starts with, up to a mark or what an entity stands for. -/
theorem prefix_decode_iff {w : List α} (hw : m ∉ w) (hout : ∀ e ∈ tab, e.char ∉ w) (a : List α) :
    w <+: decode tab a ↔ w <+: a := by
  induction w generalizing a with
  | nil => exact iff_of_true List.nil_prefix List.nil_prefix
  | cons c w ih =>
    rw [List.mem_cons, not_or] at hw
    cases a with
    | nil => rw [decode_nil]
    | cons x a =>
      cases hnext : next? tab (x :: a) with
      | none =>
        have hrest := ih hw.2 (fun e he hc => hout e he (List.mem_cons_of_mem _ hc)) a
        rw [decode_of_none hnext, List.cons_prefix_cons, List.cons_prefix_cons, hrest]
      | some e =>
        obtain ⟨he, rfl, r, rfl⟩ := eq_of_next? hnext
        rw [decode_of_next? hnext, List.cons_prefix_cons, List.cons_prefix_cons]
        refine iff_of_false (fun h => ?_) fun h => hw.1 h.1.symm
        exact hout e he (h.1 ▸ List.mem_cons_self)

/-- A table, and then another whose spellings have nothing in them that the first stands for, is
both tables at once. -/
theorem decode_append (hout : ∀ e ∈ tab, ∀ e' ∈ tab', e.char ∉ e'.spelling) (a : List α) :
    decode tab' (decode tab a) = decode (tab ++ tab') a := by
  have hnames : ∀ a, ∀ e' ∈ tab', e'.name <+: decode tab a ↔ e'.name <+: a := fun a e' he' =>
    prefix_decode_iff e'.not_mem (fun e he hc => hout e he e' he' (List.mem_cons_of_mem _ hc)) a
  fun_induction decode (tab ++ tab') a with
  | case1 => rw [decode_nil, decode_nil]
  | case2 x a e hboth ih =>
    obtain ⟨-, rfl, r, rfl⟩ := eq_of_next? hboth
    rw [List.drop_left] at ih ⊢
    rw [next?_append] at hboth
    cases hfirst : next? tab (x :: (e.name ++ r)) with
    | some e₁ =>
      rw [hfirst, Option.some_or] at hboth
      have he := Option.some.inj hboth
      subst he
      obtain ⟨he, -⟩ := eq_of_next? hfirst
      -- What the first table has decoded is no mark of the second.
      have hnone : next? tab' (e₁.char :: decode tab r) = none := by
        rw [next?_eq_none_iff]
        intro e' he' hpre
        have hhead := (List.cons_prefix_cons.mp hpre).1
        exact hout e₁ he e' he' (hhead ▸ List.mem_cons_self)
      rw [decode_of_next? hfirst, decode_of_none hnone, ih]
    | none =>
      rw [hfirst, Option.none_or] at hboth
      have hsecond : next? tab' (x :: (e.name ++ decode tab r)) = some e := by
        rw [← decode_append_of_not_mem e.not_mem, ← hboth]
        exact next?_congr (hnames _)
      rw [decode_of_none hfirst, decode_append_of_not_mem e.not_mem, decode_of_next? hsecond, ih]
  | case3 x a hboth ih =>
    rw [next?_append, Option.or_eq_none_iff] at hboth
    obtain ⟨hfirst, hsecond⟩ := hboth
    have hnone : next? tab' (x :: decode tab a) = none := by
      rw [← hsecond]
      exact next?_congr (hnames _)
    rw [decode_of_none hfirst, decode_of_none hnone, ih]

end Decode

section MarkFirst

variable {tab : List (Entity m)} {e₀ : Entity m}

omit [DecidableEq α] in
/-- What starts with the mark does not start where there is none. -/
theorem mark_infix_append_iff {u : List α} (hu : m ∉ u) (w r : List α) :
    m :: w <:+: u ++ r ↔ m :: w <:+: r := by
  induction u with
  | nil => rfl
  | cons x u ih =>
    rw [List.mem_cons, not_or] at hu
    have hx : ¬m :: w <+: x :: (u ++ r) := fun h => hu.1 (List.cons_prefix_cons.mp h).1
    rw [List.cons_append, List.infix_cons_iff, ih hu.2]
    exact or_iff_right hx

omit [DecidableEq α] in
/-- Where an entity does not start, nothing that starts with it does. -/
theorem spelling_infix_cons_iff {x : α} {a : List α} (h : ¬e₀.spelling <+: x :: a) (w : List α) :
    e₀.spelling ++ w <:+: x :: a ↔ e₀.spelling ++ w <:+: a := by
  have hw : ¬e₀.spelling ++ w <+: x :: a := fun hpre =>
    h ((List.prefix_append _ w).trans hpre)
  rw [List.infix_cons_iff]
  exact or_iff_right hw

omit [DecidableEq α] in
/-- The text after the entity: what starts with the entity starts here, and goes on in `r`, or it
starts in `r`. -/
theorem spelling_infix_spelling_iff (w r : List α) :
    e₀.spelling ++ w <:+: m :: (e₀.name ++ r) ↔ w <+: r ∨ e₀.spelling ++ w <:+: r := by
  show m :: (e₀.name ++ w) <:+: m :: (e₀.name ++ r) ↔ w <+: r ∨ m :: (e₀.name ++ w) <:+: r
  rw [List.infix_cons_iff, mark_infix_append_iff e₀.not_mem, List.cons_prefix_cons,
    List.prefix_append_right_inj]
  simp

theorem next?_singleton {x : α} {a : List α} {e : Entity m} (h : next? [e₀] (x :: a) = some e) :
    e = e₀ := List.mem_singleton.mp (eq_of_next? h).1

theorem not_prefix_of_next? {x : α} {a : List α} (h : next? [e₀] (x :: a) = none) :
    ¬e₀.spelling <+: x :: a :=
  (next?_eq_none_iff _).mp h e₀ (List.mem_singleton_self e₀)

/-- A name after a mark that has been decoded is lost. -/
theorem length_decode_name_lt {e : Entity m} {r : List α}
    (hle : (decode tab (decode [e₀] (e.name ++ r))).length ≤
      (decode (e₀ :: tab) (e.name ++ r)).length) :
    (e.char :: decode tab (decode [e₀] r)).length <
      (m :: decode (e₀ :: tab) (e.name ++ r)).length := by
  have hpos := List.length_pos_of_ne_nil e.ne_nil
  rw [decode_append_of_not_mem e.not_mem, decode_append_of_not_mem e.not_mem,
    decode_append_of_not_mem e.not_mem, List.length_append, List.length_append] at hle
  rw [decode_append_of_not_mem e.not_mem, List.length_cons, List.length_cons, List.length_append]
  omega

omit [DecidableEq α] in
/-- One character that comes out the same. -/
theorem shortened_cons_iff {x : α} {b c : List α} {P : Prop} (h : Shortened b c ∧ (c = b ↔ P)) :
    Shortened (x :: b) (x :: c) ∧ (x :: c = x :: b ↔ P) := by
  obtain ⟨hshort, hiff⟩ := h
  refine ⟨?_, ?_⟩
  · rcases hshort with heq | hlt
    · exact .inl (by rw [heq])
    · exact .inr (by rw [List.length_cons, List.length_cons]; omega)
  · rw [List.cons.injEq, hiff]
    exact and_iff_right rfl

/-- The entity for the mark decodes to nothing that is in a name. -/
theorem name_prefix_decode_mark_iff (h₀ : e₀.char = m) (e : Entity m) (a : List α) :
    e.name <+: decode [e₀] a ↔ e.name <+: a :=
  prefix_decode_iff e.not_mem
    (fun e' he' => by rw [List.mem_singleton.mp he', h₀]; exact e.not_mem) a

/-- The text after the entity for the mark. The mark that it is decoded to either starts no other
entity, or starts one, which is decoded as well. -/
theorem decode_after_mark (h₀ : e₀.char = m) {r : List α}
    (ih : Shortened (decode (e₀ :: tab) r) (decode tab (decode [e₀] r)) ∧
      (decode tab (decode [e₀] r) = decode (e₀ :: tab) r ↔
        ∀ e ∈ tab, ¬e₀.spelling ++ e.name <:+: r)) :
    Shortened (m :: decode (e₀ :: tab) r) (decode tab (m :: decode [e₀] r)) ∧
      (decode tab (m :: decode [e₀] r) = m :: decode (e₀ :: tab) r ↔
        ∀ e ∈ tab, ¬e₀.spelling ++ e.name <:+: m :: (e₀.name ++ r)) := by
  simp only [spelling_infix_spelling_iff, not_or]
  cases hsecond : next? tab (m :: decode [e₀] r) with
  | none =>
    rw [decode_of_none hsecond]
    have hno : ∀ e ∈ tab, ¬e.name <+: r := fun e he hpre =>
      (next?_eq_none_iff _).mp hsecond e he
        (List.cons_prefix_cons.mpr ⟨rfl, (name_prefix_decode_mark_iff h₀ e r).mpr hpre⟩)
    have hsame : (∀ e ∈ tab, ¬e.name <+: r ∧ ¬e₀.spelling ++ e.name <:+: r) ↔
        ∀ e ∈ tab, ¬e₀.spelling ++ e.name <:+: r :=
      ⟨fun h e he => (h e he).2, fun h e he => ⟨hno e he, h e he⟩⟩
    rw [hsame]
    exact shortened_cons_iff ih
  | some e₂ =>
    obtain ⟨he₂, -, s, hs⟩ := eq_of_next? hsecond
    obtain ⟨r', rfl⟩ := (name_prefix_decode_mark_iff h₀ e₂ r).mp ⟨s, hs.symm⟩
    have hlt := length_decode_name_lt ih.1.length_le
    have hread : decode [e₀] (e₂.name ++ r') = e₂.name ++ decode [e₀] r' :=
      decode_append_of_not_mem e₂.not_mem r'
    rw [hread] at hsecond ⊢
    rw [decode_of_next? hsecond]
    refine ⟨.inr hlt, iff_of_false (fun heq => ?_) fun h => ?_⟩
    · rw [heq] at hlt
      exact lt_irrefl _ hlt
    · exact (h e₂ he₂).1 (List.prefix_append _ _)

/-- When the entity for the mark is decoded before the others, the text comes out too short, unless
none of the others' names follows that entity: then it comes out right. -/
theorem decode_mark_first (h₀ : e₀.char = m) (a : List α) :
    Shortened (decode (e₀ :: tab) a) (decode tab (decode [e₀] a)) ∧
      (decode tab (decode [e₀] a) = decode (e₀ :: tab) a ↔
        ∀ e ∈ tab, ¬e₀.spelling ++ e.name <:+: a) := by
  have hnames : ∀ a, ∀ e ∈ tab, e.name <+: decode [e₀] a ↔ e.name <+: a :=
    fun a e _ => name_prefix_decode_mark_iff h₀ e a
  have htab : e₀ :: tab = [e₀] ++ tab := rfl
  fun_induction decode (e₀ :: tab) a with
  | case1 =>
    rw [decode_nil, decode_nil]
    refine ⟨.refl _, iff_of_true rfl fun e _ hinf => ?_⟩
    exact absurd (List.eq_nil_of_infix_nil hinf) (List.cons_ne_nil _ _)
  | case2 x a e hboth ih =>
    obtain ⟨-, rfl, r, rfl⟩ := eq_of_next? hboth
    rw [List.drop_left] at ih ⊢
    rw [htab, next?_append] at hboth
    cases hfirst : next? [e₀] (x :: (e.name ++ r)) with
    | some e₁ =>
      have he := next?_singleton hfirst
      rw [hfirst, Option.some_or] at hboth
      have he' := Option.some.inj hboth
      subst he'
      subst he
      rw [decode_of_next? hfirst, h₀]
      exact decode_after_mark h₀ ih
    | none =>
      rw [hfirst, Option.none_or] at hboth
      have hno := not_prefix_of_next? hfirst
      have hsecond : next? tab (x :: (e.name ++ decode [e₀] r)) = some e := by
        rw [← decode_append_of_not_mem e.not_mem, ← hboth]
        exact next?_congr (hnames _)
      rw [decode_of_none hfirst, decode_append_of_not_mem e.not_mem, decode_of_next? hsecond]
      simp only [spelling_infix_cons_iff hno]
      -- Nothing that starts with the mark starts within the name.
      have hskip : ∀ w, e₀.spelling ++ w <:+: e.name ++ r ↔ e₀.spelling ++ w <:+: r := fun w =>
        mark_infix_append_iff e.not_mem _ r
      simp only [hskip]
      exact shortened_cons_iff ih
  | case3 x a hboth ih =>
    rw [htab, next?_append, Option.or_eq_none_iff] at hboth
    obtain ⟨hfirst, hsecond⟩ := hboth
    have hnone : next? tab (x :: decode [e₀] a) = none := by
      rw [← hsecond]
      exact next?_congr (hnames _)
    rw [decode_of_none hfirst, decode_of_none hnone]
    simp only [spelling_infix_cons_iff (not_prefix_of_next? hfirst)]
    exact shortened_cons_iff ih

end MarkFirst

/-- What a character is written as: the mark as its entity, and others that have one as their entity
or as they are, as `p` says. -/
def escapeChar (tab : List (Entity m)) (p : α → Bool) (c : α) : List α :=
  match tab.find? fun e => e.char = c with
  | some e => if c = m ∨ p c then e.spelling else [c]
  | none => [c]

/-- What a text is written as. -/
def escape (tab : List (Entity m)) (p : α → Bool) (u : List α) : List α :=
  u.flatMap (escapeChar tab p)

theorem escape_cons (tab : List (Entity m)) (p : α → Bool) (c : α) (u : List α) :
    escape tab p (c :: u) = escapeChar tab p c ++ escape tab p u := List.flatMap_cons

/-- A table with which texts can be written: there is an entity for the mark, none of the names
starts another, and no character that has an entity occurs in a name. -/
structure Proper (e₀ : Entity m) (tab : List (Entity m)) : Prop where
  char_eq : e₀.char = m
  apart : (e₀ :: tab).Pairwise fun e e' => ¬e.name <+: e'.name ∧ ¬e'.name <+: e.name
  not_mem : ∀ e ∈ tab, ∀ e' ∈ tab, e.char ∉ e'.name

namespace Proper

variable {tab : List (Entity m)} {e₀ e e' : Entity m} {p : α → Bool} (h : Proper e₀ tab)
include h

omit [DecidableEq α] in
/-- Only one entity of the table starts a text. -/
theorem eq_of_prefix {a : List α} (he : e ∈ e₀ :: tab) (he' : e' ∈ e₀ :: tab)
    (hpre : e.name <+: a) (hpre' : e'.name <+: a) : e = e' := by
  by_contra hne
  have hsymm : Std.Symm fun e e' : Entity m => ¬e.name <+: e'.name ∧ ¬e'.name <+: e.name :=
    ⟨fun _ _ hand => hand.symm⟩
  obtain ⟨hno, hno'⟩ := h.apart.forall he he' hne
  rcases List.prefix_or_prefix_of_prefix hpre hpre' with hle | hle
  · exact hno hle
  · exact hno' hle

theorem next?_name (he : e ∈ e₀ :: tab) (r : List α) :
    next? (e₀ :: tab) (m :: (e.name ++ r)) = some e := by
  cases hnext : next? (e₀ :: tab) (m :: (e.name ++ r)) with
  | none =>
    have hno := (next?_eq_none_iff _).mp hnext e he
    exact absurd (List.prefix_append e.spelling r) hno
  | some e' =>
    obtain ⟨he', -, s, hs⟩ := eq_of_next? hnext
    rw [h.eq_of_prefix he' he ⟨s, hs.symm⟩ (List.prefix_append _ _)]

/-- The mark is written as its entity, and any other character as an entity or as it is. -/
theorem escapeChar_cases (c : α) :
    (c = m ∧ escapeChar (e₀ :: tab) p c = e₀.spelling) ∨
      (c ≠ m ∧ ∃ e ∈ tab, e.char = c ∧ escapeChar (e₀ :: tab) p c = e.spelling) ∨
      (c ≠ m ∧ escapeChar (e₀ :: tab) p c = [c]) := by
  unfold escapeChar
  by_cases hc : c = m
  · have hfind : (e₀ :: tab).find? (fun e => e.char = c) = some e₀ :=
      List.find?_cons_of_pos (decide_eq_true (h.char_eq.trans hc.symm))
    rw [hfind]
    exact .inl ⟨hc, if_pos (.inl hc)⟩
  · right
    have hskip : (e₀ :: tab).find? (fun e => e.char = c) = tab.find? (fun e => e.char = c) :=
      List.find?_cons_of_neg fun hpos => hc ((of_decide_eq_true hpos).symm.trans h.char_eq)
    rw [hskip]
    cases hfind : tab.find? fun e => e.char = c with
    | none => exact .inr ⟨hc, rfl⟩
    | some e =>
      have hchar := List.find?_some (p := fun e : Entity m => decide (e.char = c)) hfind
      simp only
      by_cases hp : c = m ∨ p c
      · exact .inl ⟨hc, e, List.mem_of_find?_eq_some hfind, of_decide_eq_true hchar, if_pos hp⟩
      · exact .inr ⟨hc, if_neg hp⟩

/-- Decoding gives back what was written. -/
theorem decode_escape (u : List α) : decode (e₀ :: tab) (escape (e₀ :: tab) p u) = u := by
  induction u with
  | nil => exact decode_nil
  | cons c u ih =>
    rw [escape_cons]
    rcases h.escapeChar_cases c with ⟨hm, hc⟩ | ⟨-, e, he, hchar, hc⟩ | ⟨hne, hc⟩
    · rw [hc, spelling, List.cons_append, decode_of_next? (h.next?_name List.mem_cons_self _),
        h.char_eq, hm, ih]
    · rw [hc, spelling, List.cons_append,
        decode_of_next? (h.next?_name (List.mem_cons_of_mem _ he) _), hchar, ih]
    · rw [hc, List.singleton_append, decode_of_none (next?_eq_none_of_ne hne _), ih]

/-- A text without entities comes next in what is written as it comes next in the text. -/
theorem prefix_escape_iff {w : List α} (hm : m ∉ w) (hw : ∀ e ∈ tab, e.char ∉ w) (u : List α) :
    w <+: escape (e₀ :: tab) p u ↔ w <+: u := by
  induction w generalizing u with
  | nil => exact iff_of_true List.nil_prefix List.nil_prefix
  | cons x w ih =>
    rw [List.mem_cons, not_or] at hm
    cases u with
    | nil => rfl
    | cons c u =>
      rw [escape_cons]
      rcases h.escapeChar_cases c with ⟨hcm, hc⟩ | ⟨-, e, he, hchar, hc⟩ | ⟨-, hc⟩
      · rw [hc, spelling, List.cons_append, List.cons_prefix_cons, List.cons_prefix_cons]
        exact iff_of_false (fun hx => hm.1 hx.1.symm) fun hx => hm.1 (hx.1.trans hcm).symm
      · rw [hc, spelling, List.cons_append, List.cons_prefix_cons, List.cons_prefix_cons]
        refine iff_of_false (fun hx => hm.1 hx.1.symm) fun hx => ?_
        exact hw e he (by rw [hchar, hx.1]; exact List.mem_cons_self)
      · have hrest := ih hm.2 (fun e he hc => hw e he (List.mem_cons_of_mem _ hc)) u
        rw [hc, List.singleton_append, List.cons_prefix_cons, List.cons_prefix_cons, hrest]

/-- The entity for the mark is followed by a name in what is written where an entity stands in the
text itself. -/
theorem infix_escape_iff (he : e ∈ tab) (u : List α) :
    e₀.spelling ++ e.name <:+: escape (e₀ :: tab) p u ↔ e.spelling <:+: u := by
  induction u with
  | nil =>
    have hno : ∀ {x : α} {w : List α}, ¬x :: w <:+: ([] : List α) := fun hinf =>
      List.cons_ne_nil _ _ (List.eq_nil_of_infix_nil hinf)
    exact iff_of_false hno hno
  | cons c u ih =>
    have hname := h.prefix_escape_iff e.not_mem (fun e' he' => h.not_mem e' he' e he) (p := p) u
    rw [escape_cons, List.infix_cons_iff, ← ih]
    rcases h.escapeChar_cases c with ⟨hcm, hc⟩ | ⟨hne, e₁, he₁, -, hc⟩ | ⟨hne, hc⟩
    · have hpre : e.spelling <+: c :: u ↔ e.name <+: escape (e₀ :: tab) p u := by
        rw [spelling, List.cons_prefix_cons, hname, hcm]
        exact and_iff_right rfl
      rw [hc, hpre]
      exact spelling_infix_spelling_iff _ _
    · have hpre : ¬e.spelling <+: c :: u := fun hx => hne (List.cons_prefix_cons.mp hx).1.symm
      -- Another entity has been written, so what starts with the one for the mark starts later.
      have hother : ¬e₀.spelling <+: m :: (e₁.name ++ escape (e₀ :: tab) p u) := by
        intro hx
        have hsame := h.eq_of_prefix List.mem_cons_self (List.mem_cons_of_mem _ he₁)
          (List.cons_prefix_cons.mp hx).2 (List.prefix_append _ _)
        have hno := (List.pairwise_cons.mp h.apart).1 e₁ he₁
        exact hno.1 (by rw [hsame])
      rw [hc, or_iff_right hpre]
      exact (spelling_infix_cons_iff hother _).trans (mark_infix_append_iff e₁.not_mem _ _)
    · have hpre : ¬e.spelling <+: c :: u := fun hx => hne (List.cons_prefix_cons.mp hx).1.symm
      have hother : ¬e₀.spelling <+: c :: escape (e₀ :: tab) p u := fun hx =>
        hne (List.cons_prefix_cons.mp hx).1.symm
      rw [hc, or_iff_right hpre, List.singleton_append, spelling_infix_cons_iff hother]

end Proper

end Entity

end Catse
