import Catse.Common.ThreadLog

/-!
# What a log line holds, and where it is written

`table_concat` returns the length of a line that holds the texts of all arguments, or `-1`, with two
exceptions. A number is formatted into one byte less than there is room for. Where the separator in
front of it has filled the line up to `cap` the size is `-1`, which is no bound at all
(`Overruns`), and where it ends one byte before `cap` its last digit is lost (`IsTruncated`). In
both cases a line that is short by a byte would have been refused.
-/

namespace Catse

open Printf

namespace ThreadLog

/-- The text of an argument. -/
def text : LogArg → List UInt8
  | .nil => literal "(type):nil"
  | .number d => numberText d
  | .boolean b => literal (if b then "true" else "false")
  | .string s => s
  | .table => literal "(type):table"
  | .function => literal "(type):function"
  | .userdata => literal "(type):userdata"
  | .thread => literal "(type):thread"
  | .lightuserdata => literal "(type):lightuserdata"
  | .other _ => []

/-- The texts of the arguments, joined by commas and followed by a newline. -/
def joined (args : List LogArg) : List UInt8 := List.intercalate [44] (args.map text) ++ [10]

/-- The bytes that arguments take with the separators behind them. -/
def level (args : List LogArg) : ℕ := (args.map fun a => (text a).length + 1).sum

/-- An argument of a type that `table_concat` does not know. -/
def IsOther : LogArg → Prop
  | .other _ => True
  | _ => False

/-- All bytes are written inside `buf[0, cap + 1)`. -/
def InBounds (cap : ℕ) (writes : List (ℕ × ℕ)) : Prop :=
  ∀ w ∈ writes, 0 < w.2 → w.1 + w.2 ≤ cap + 1

/-- A string whose length fits only when cut to an `int`. -/
def PassesCut (cap p : ℕ) : LogArg → Prop
  | .string s => cap < p + s.length ∧ toInt32 s.length ≤ (cap : ℤ) - p
  | _ => False

/-- An argument at offset `p` that is written behind the buffer. -/
def Overruns (cap p : ℕ) (a : LogArg) : Prop := (∃ d, a = .number d ∧ p = cap) ∨ PassesCut cap p a

/-- An argument that the loop comes to, from the offset `p` on, with a property of it and of its own
offset. -/
def Reaches (cap p : ℕ) (P : ℕ → LogArg → Prop) (args : List LogArg) : Prop :=
  ∃ pre a post, args = pre ++ a :: post ∧ p + level pre ≤ cap ∧ (∀ x ∈ pre, ¬IsOther x) ∧
    P (p + level pre) a

/-- The bytes of the line. -/
def Line.contents (l : Line) : List UInt8 := prefixOf l.buf l.bufLen

/-! ## One argument -/

theorem contents_store (l : Line) {bs : List UInt8} {len : ℕ} (h : len ≤ bs.length) :
    (l.store bs len).contents = l.contents ++ bs.take len :=
  prefixOf_storeAt l.buf l.bufLen h

theorem numberText_ne_nil (d : Double) : numberText d ≠ [] := by
  rw [numberText]
  split_ifs
  · exact lld_ne_nil _
  · exact lf_ne_nil _

theorem zero_notMem_numberText (d : Double) : 0 ∉ numberText d := by
  rw [numberText]
  split_ifs
  · exact zero_notMem_lld _
  · exact zero_notMem_lf _

theorem memcpyText_eq {cap : ℕ} {l : Line} (hcap : cap < 2^31 - 2^9) (hl : l.bufLen ≤ cap)
    (str : List UInt8) :
    memcpyText cap str l =
      if l.bufLen + str.length ≤ cap then .ok (l.store str str.length)
      else .error (.returned (-1), l) := by
  rw [memcpyText, Int.emod_eq_of_lt (by omega) (by omega)]
  split_ifs <;> first | rfl | omega

/-- The number of bytes of a string that is short enough. -/
theorem toInt32_length {cap p : ℕ} {s : List UInt8} (hcap : cap < 2^31 - 2^9)
    (hfit : p + s.length ≤ cap) : toInt32 s.length = s.length :=
  toInt32_of_range (by omega)

/-- What the loop does with an argument that is none of a few constants: the types that are
unknown, texts that fit or do not fit, numbers, and strings of which only the cut length fits. -/
inductive Handled (cap : ℕ) (l : Line) (a : LogArg) : Step → Prop where
  | unknown (type : ℕ) (h : a = .other type) : Handled cap l a (.error (.raised type, l))
  | fits (ha : ¬IsOther a) (hn : ∀ d, a ≠ .number d) (h : l.bufLen + (text a).length ≤ cap) :
      Handled cap l a (.ok (l.store (text a) (text a).length))
  | full (ha : ¬IsOther a) (hn : ∀ d, a ≠ .number d) (h : cap < l.bufLen + (text a).length)
      (hcut : ¬PassesCut cap l.bufLen a) : Handled cap l a (.error (.returned (-1), l))
  | number (d : Double) (h : a = .number d) :
      Handled cap l a (.ok (l.store (snprintf (room cap l) (text a)) (text a).length))
  | cut (h : PassesCut cap l.bufLen a) :
      Handled cap l a (.error (.overrun, l.store (text a) (text a).length))

theorem handled_memcpyText {cap : ℕ} {l : Line} {a : LogArg} (hcap : cap < 2^31 - 2^9)
    (hl : l.bufLen ≤ cap) (ha : ¬IsOther a) (hn : ∀ d, a ≠ .number d)
    (hcut : ¬PassesCut cap l.bufLen a) : Handled cap l a (memcpyText cap (text a) l) := by
  rw [memcpyText_eq hcap hl]
  split_ifs with h
  · exact .fits ha hn h
  · exact .full ha hn (by omega) hcut

theorem handled_argument {cap : ℕ} {l : Line} (hcap : cap < 2^31 - 2^9) (hl : l.bufLen ≤ cap)
    (a : LogArg) : Handled cap l a (argument cap l a) := by
  cases a with
  | number d =>
    have hpos := List.length_pos_iff.mpr (numberText_ne_nil d)
    rw [argument, if_neg (by omega)]
    exact .number d rfl
  | string s =>
    have ha : ¬IsOther (.string s) := id
    have hn : ∀ d, LogArg.string s ≠ .number d := fun d h => by cases h
    rw [argument]
    split_ifs with hcut hfit
    · refine .full ha hn ?_ fun h => absurd h.2 (not_le.mpr hcut)
      show cap < l.bufLen + s.length
      by_contra hfit
      rw [toInt32_length hcap (not_lt.mp hfit)] at hcut
      omega
    · exact .fits ha hn hfit
    · exact .cut ⟨not_le.mp hfit, not_lt.mp hcut⟩
  | other type => exact .unknown type rfl
  | _ => exact handled_memcpyText hcap hl id (fun d h => by cases h) id

/-! ## Where a run writes -/

/-- The loop from an argument on, and the newline. -/
def line (cap : ℕ) (first : Bool) (args : List LogArg) (l : Line) : Step := do
  let l ← arguments cap true first args l
  addChar cap true 10 l

/-- What `table_concat` returns, and the memory. -/
def finish : Step → Outcome × Line
  | .ok l => (.returned l.bufLen, l)
  | .error e => e

theorem tableConcat_eq (buf : ℕ → UInt8) (cap start : ℕ) (stack : List LogArg) :
    tableConcat buf cap true start stack =
      finish (line cap true (stack.drop (start - 1)) ⟨buf, 0, []⟩) := rfl

theorem line_cons (cap : ℕ) (first : Bool) (a : LogArg) (args : List LogArg) (l : Line) :
    line cap first (a :: args) l = (do
      let l ← if first then .ok l else addChar cap true 44 l
      let l ← argument cap l a
      line cap false args l) := by
  cases first with
  | false => simp only [line, arguments, Bool.false_eq_true, if_false, bind_assoc]
  | true => simp only [line, arguments, if_true, bind_assoc]

theorem addChar_full {cap : ℕ} {l : Line} (h : cap ≤ l.bufLen) (c : UInt8) :
    addChar cap true c l = .error (.returned (-1), l) := by
  rw [addChar, if_pos rfl, if_pos h]

theorem addChar_room {cap : ℕ} {l : Line} (h : l.bufLen < cap) (c : UInt8) :
    addChar cap true c l = .ok (l.store [c] 1) := by
  rw [addChar, if_pos rfl, if_neg (by omega)]

/-- A line that has come to `cap` is refused, whatever comes next. -/
theorem line_full {cap : ℕ} {l : Line} (h : cap ≤ l.bufLen) (args : List LogArg) :
    line cap false args l = .error (.returned (-1), l) := by
  cases args with
  | nil => exact addChar_full h 10
  | cons a args =>
    rw [line_cons, if_neg Bool.false_ne_true, addChar_full h]
    rfl

theorem level_cons (p : ℕ) (a : LogArg) (args : List LogArg) :
    p + level (a :: args) = p + (text a).length + 1 + level args := by
  simp only [level, List.map_cons, List.sum_cons]
  omega

theorem reaches_nil {cap p : ℕ} {P : ℕ → LogArg → Prop} : ¬Reaches cap p P [] := by
  rintro ⟨pre, a, post, h, -⟩
  exact absurd h.symm (List.append_ne_nil_of_right_ne_nil _ (List.cons_ne_nil _ _))

theorem reaches_cons {cap p : ℕ} {P : ℕ → LogArg → Prop} {a : LogArg} {args : List LogArg} :
    Reaches cap p P (a :: args) ↔
      (p ≤ cap ∧ P p a) ∨ (¬IsOther a ∧ Reaches cap (p + (text a).length + 1) P args) := by
  constructor
  · rintro ⟨pre, b, post, h, hp, hpre, hP⟩
    cases pre with
    | nil =>
      cases h
      exact .inl ⟨hp, hP⟩
    | cons x pre =>
      cases h
      rw [level_cons] at hp hP
      exact .inr ⟨hpre _ List.mem_cons_self,
        pre, b, post, rfl, hp, fun y hy => hpre y (List.mem_cons_of_mem _ hy), hP⟩
  · rintro (⟨hp, hP⟩ | ⟨ha, pre, b, post, rfl, hp, hpre, hP⟩)
    · exact ⟨[], a, args, rfl, hp, fun x hx => (List.not_mem_nil hx).elim, hP⟩
    · rw [← level_cons] at hp hP
      exact ⟨a :: pre, b, post, rfl, hp, List.forall_mem_cons.mpr ⟨ha, hpre⟩, hP⟩

/-- Where an argument does not do it, what comes behind it has to. -/
theorem reaches_cons_of_not {cap p : ℕ} {P : ℕ → LogArg → Prop} {a : LogArg} {args : List LogArg}
    (h : ¬P p a) :
    Reaches cap p P (a :: args) ↔
      ¬IsOther a ∧ Reaches cap (p + (text a).length + 1) P args :=
  reaches_cons.trans (or_iff_right fun hP => h hP.2)

/-- Nothing is reached behind `cap`. -/
theorem not_reaches {cap p : ℕ} (h : cap < p) {P : ℕ → LogArg → Prop} {args : List LogArg} :
    ¬Reaches cap p P args := by
  rintro ⟨pre, a, post, -, hp, -⟩
  omega

theorem inBounds_store {cap : ℕ} {l : Line} (hl : InBounds cap l.writes) (bs : List UInt8)
    (len : ℕ) :
    InBounds cap (l.store bs len).writes ↔ (0 < bs.length → l.bufLen + bs.length ≤ cap + 1) := by
  constructor
  · exact fun h => h (l.bufLen, bs.length) (List.mem_append_right _ (List.mem_singleton.mpr rfl))
  · intro h w hw
    rcases List.mem_append.mp hw with hw | hw
    · exact hl w hw
    · rw [List.mem_singleton.mp hw]
      exact h

/-- What a number is given: what is left up to one byte before `cap`, or no bound at `cap`. -/
theorem room_eq {cap : ℕ} {l : Line} (hcap : cap < 2^31 - 2^9) (hl : l.bufLen ≤ cap) :
    room cap l = if l.bufLen = cap then 2^64 - 1 else cap - l.bufLen - 1 := by
  rw [room]
  split_ifs with h
  · rw [h, show ((cap : ℤ) - cap - 1) % 2^64 = 2^64 - 1 by omega]
    rfl
  · rw [Int.emod_eq_of_lt (by omega) (by omega)]
    omega

/-- Such a string has `2^31` bytes or more. -/
theorem le_length_of_passesCut {cap p : ℕ} {s : List UInt8} (h : PassesCut cap p (.string s)) :
    2^31 ≤ s.length := by
  obtain ⟨hlong, hcut⟩ := h
  by_contra hshort
  rw [toInt32_of_range (by omega)] at hcut
  omega

theorem not_passesCut {cap p : ℕ} {a : LogArg} (h : p + (text a).length ≤ cap) :
    ¬PassesCut cap p a := by
  cases a with
  | string s => exact fun hcut => absurd hcut.1 (not_lt.mpr h)
  | _ => exact id

theorem not_overruns {cap p : ℕ} {a : LogArg} (hn : ∀ d, a = .number d → p ≠ cap)
    (hcut : ¬PassesCut cap p a) : ¬Overruns cap p a := by
  rintro (⟨d, hd, hp⟩ | h)
  · exact hn d hd hp
  · exact hcut h

/-- One argument with what comes behind it, from where its text starts. -/
theorem inBounds_argument {cap : ℕ} {l : Line} (hcap : cap < 2^31 - 2^9) (hl : l.bufLen ≤ cap)
    (hin : InBounds cap l.writes) (a : LogArg) {args : List LogArg}
    (ih : ∀ l : Line, InBounds cap l.writes →
      (InBounds cap (finish (line cap false args l)).2.writes ↔
        ¬Reaches cap (l.bufLen + 1) (Overruns cap) args)) :
    InBounds cap (finish (argument cap l a >>= line cap false args)).2.writes ↔
      ¬Reaches cap l.bufLen (Overruns cap) (a :: args) := by
  have hnext (bs : List UInt8) : (l.store bs (text a).length).bufLen = l.bufLen + (text a).length :=
    rfl
  have hstep := handled_argument hcap hl a
  generalize argument cap l a = step at hstep ⊢
  cases hstep with
  | unknown type h =>
    subst h
    rw [reaches_cons_of_not (not_overruns (fun d h => by cases h) id)]
    exact iff_of_true hin fun hr => hr.1 trivial
  | fits ha hn h =>
    have hstore : InBounds cap (l.store (text a) (text a).length).writes :=
      (inBounds_store hin _ _).mpr fun _ => by omega
    rw [reaches_cons_of_not (not_overruns (fun d hd => absurd hd (hn d)) (not_passesCut h)),
      and_iff_right ha]
    exact ih _ hstore
  | full ha hn h hcut =>
    rw [reaches_cons_of_not (not_overruns (fun d hd => absurd hd (hn d)) hcut)]
    exact iff_of_true hin fun hr => not_reaches (by omega) hr.2
  | number d h =>
    have hlen : 0 < (text a).length := h ▸ List.length_pos_iff.mpr (numberText_ne_nil d)
    have hroom := room_eq hcap hl
    rcases eq_or_lt_of_le hl with hfull | hlt
    · -- Where the line is full nothing bounds the number, and the line is refused behind it.
      have htwo : 2 ≤ (snprintf (room cap l) (text a)).length :=
        two_le_length_snprintf (List.length_pos_iff.mp hlen) (by rw [hroom, if_pos hfull]; decide)
      refine iff_of_false (fun hbad => ?_) fun hr =>
        hr (reaches_cons.mpr (.inl ⟨hl, .inl ⟨d, h, hfull⟩⟩))
      change InBounds cap (finish (line cap false args (l.store _ _))).2.writes at hbad
      rw [line_full (by rw [hnext]; omega)] at hbad
      have := (inBounds_store hin _ _).mp hbad (by omega)
      omega
    · have hsize := length_snprintf_le (room cap l) (text a)
      rw [hroom, if_neg hlt.ne] at hsize
      have hstore :
          InBounds cap (l.store (snprintf (room cap l) (text a)) (text a).length).writes :=
        (inBounds_store hin _ _).mpr fun _ => by rw [hroom, if_neg hlt.ne]; omega
      rw [reaches_cons_of_not (not_overruns (fun _ _ => hlt.ne) (h ▸ id)),
        and_iff_right (h ▸ id)]
      exact ih _ hstore
  | cut h =>
    refine iff_of_false (fun hbad => ?_) fun hr => hr (reaches_cons.mpr (.inl ⟨hl, .inr h⟩))
    cases a with
    | string s =>
      have hlong := le_length_of_passesCut h
      have := (inBounds_store hin s s.length).mp hbad (by omega)
      omega
    | _ => exact h

/-- A run that starts inside the buffer writes inside of it unless an argument overruns it. -/
theorem inBounds_line {cap : ℕ} (hcap : cap < 2^31 - 2^9) (args : List LogArg) {l : Line}
    (hin : InBounds cap l.writes) :
    InBounds cap (finish (line cap false args l)).2.writes ↔
      ¬Reaches cap (l.bufLen + 1) (Overruns cap) args := by
  induction args generalizing l with
  | nil =>
    refine iff_of_true ?_ reaches_nil
    rcases le_or_gt cap l.bufLen with hfull | hroom
    · rw [line_full hfull]
      exact hin
    · show InBounds cap (finish (addChar cap true 10 l)).2.writes
      rw [addChar_room hroom]
      exact (inBounds_store hin [10] 1).mpr fun _ => Nat.add_le_add_right hroom.le 1
  | cons a args ih =>
    rcases le_or_gt cap l.bufLen with hfull | hroom
    · rw [line_full hfull]
      exact iff_of_true hin (not_reaches (by omega))
    · rw [line_cons, if_neg Bool.false_ne_true, addChar_room hroom]
      exact inBounds_argument (l := l.store [44] 1) hcap hroom
        ((inBounds_store hin [44] 1).mpr fun _ => Nat.add_le_add_right hroom.le 1) a fun l => ih

/-- The whole run of `table_concat`. -/
theorem inBounds_args {cap : ℕ} (hcap : cap < 2^31 - 2^9) (buf : ℕ → UInt8) (args : List LogArg) :
    InBounds cap (finish (line cap true args ⟨buf, 0, []⟩)).2.writes ↔
      ¬Reaches cap 0 (Overruns cap) args := by
  have hin : InBounds cap (⟨buf, 0, []⟩ : Line).writes := fun w hw => (List.not_mem_nil hw).elim
  cases args with
  | nil =>
    refine iff_of_true ?_ reaches_nil
    show InBounds cap (finish (addChar cap true 10 _)).2.writes
    rcases Nat.eq_zero_or_pos cap with rfl | hpos
    · exact hin
    · rw [addChar_room hpos]
      exact (inBounds_store hin [10] 1).mpr fun _ => Nat.add_le_add_right hpos.le 1
  | cons a args =>
    rw [line_cons, if_pos rfl]
    exact inBounds_argument hcap (Nat.zero_le cap) hin a fun l => inBounds_line hcap args

/-- The bytes of a call of `table_concat` are written inside `buf[0, cap + 1)` exactly where no
argument that it comes to overruns the buffer. -/
theorem inBounds_tableConcat_iff {cap : ℕ} (hcap : cap < 2^31 - 2^9) (buf : ℕ → UInt8) (start : ℕ)
    (stack : List LogArg) :
    InBounds cap (tableConcat buf cap true start stack).2.writes ↔
      ¬Reaches cap 0 (Overruns cap) (stack.drop (start - 1)) :=
  inBounds_args hcap buf _

/-- `5` as a double. -/
def five : Double := 0x4014000000000000

theorem numberText_five : numberText five = [53] := by decide +kernel

/-- No argument of a line that fits with its newline overruns the buffer. -/
theorem not_reaches_overruns {cap : ℕ} {args : List LogArg} (h : level args ≤ cap) :
    ¬Reaches cap 0 (Overruns cap) args := by
  rintro ⟨pre, a, post, rfl, -, -, hover⟩
  have hlevel : level (pre ++ a :: post) = level pre + ((text a).length + 1 + level post) := by
    simp only [level, List.map_append, List.map_cons, List.sum_append, List.sum_cons]
  refine not_overruns (fun d _ => ?_) (not_passesCut ?_) hover <;> omega

/-- The arguments of a call of `write` with strings and numbers. -/
def mixed : List LogArg := [.number five, .string [97, 98], .number five, .string [], .number five]

theorem texts_mixed : (mixed.drop (2 - 1)).map text = [[97, 98], [53], [], [53]] := by
  simp only [mixed, List.drop_succ_cons, List.drop_zero, List.map_cons, List.map_nil, text,
    numberText_five]

theorem level_mixed : level (mixed.drop (2 - 1)) = 8 := by
  have hsum := congrArg (fun texts => (texts.map fun t => t.length + 1).sum) texts_mixed
  rwa [List.map_map] at hsum

theorem inBounds_tableConcat_mixed :
    8191 < 2^31 - 2^9 ∧ InBounds 8191 (tableConcat (fun _ => 0) 8191 true 2 mixed).2.writes := by
  have hcap : 8191 < 2^31 - 2^9 := by decide
  have hfits : level (mixed.drop (2 - 1)) ≤ 8191 := level_mixed.trans_le (by decide)
  exact ⟨hcap, (inBounds_tableConcat_iff hcap _ 2 mixed).mpr (not_reaches_overruns hfits)⟩

/-! ## What a line holds -/

/-- A call comes to the whole line, or to `-1`. -/
def IsComplete (expected : List UInt8) : Outcome × Line → Prop
  | (.returned n, l) => (0 ≤ n → prefixOf l.buf n.toNat = expected) ∧ (n < 0 → n = -1)
  | (.raised _, _) => True
  | (.overrun, _) => False

/-- The line would end with a number, and with its newline it would have exactly the bytes from the
offset `p` up to `cap`. -/
def Truncates (cap p : ℕ) (args : List LogArg) : Prop :=
  (∀ a ∈ args, ¬IsOther a) ∧ (∃ d, args.getLast? = some (.number d)) ∧ p + level args = cap

/-- What comes behind an argument. -/
def tail : List LogArg → List UInt8
  | [] => [10]
  | a :: args => 44 :: (text a ++ tail args)

theorem joined_cons (a : LogArg) (args : List LogArg) :
    joined (a :: args) = text a ++ tail args := by
  induction args generalizing a with
  | nil => simp [joined, tail]
  | cons b args ih =>
    rw [tail, ← ih b]
    simp [joined, List.intercalate]

theorem truncates_singleton {cap p : ℕ} {a : LogArg} :
    Truncates cap p [a] ↔ (∃ d, a = .number d) ∧ p + (text a).length + 1 = cap := by
  rw [Truncates, level_cons, List.getLast?_singleton]
  simp only [Option.some.injEq]
  refine ⟨fun h => h.2, fun h => ⟨fun x hx => ?_, h⟩⟩
  obtain ⟨⟨d, rfl⟩, -⟩ := h
  rw [List.mem_singleton.mp hx]
  exact id

theorem truncates_cons_cons {cap p : ℕ} {a b : LogArg} {args : List LogArg} :
    Truncates cap p (a :: b :: args) ↔
      ¬IsOther a ∧ Truncates cap (p + (text a).length + 1) (b :: args) := by
  rw [Truncates, Truncates, level_cons, List.getLast?_cons_cons, List.forall_mem_cons, and_assoc]

theorem not_truncates {cap p : ℕ} (h : cap < p) {args : List LogArg} : ¬Truncates cap p args := by
  rintro ⟨-, -, hp⟩
  omega

theorem isComplete_contents {expected : List UInt8} {l : Line} :
    IsComplete expected (.returned l.bufLen, l) ↔ l.contents = expected := by
  refine ⟨fun h => h.1 (Int.natCast_nonneg _), fun h => ⟨fun _ => h, fun hneg => ?_⟩⟩
  omega

theorem isComplete_refused (expected : List UInt8) (l : Line) :
    IsComplete expected (.returned (-1), l) :=
  ⟨fun h => absurd h (by decide), fun _ => rfl⟩

/-- Behind the last argument a newline is missing, and the text of this argument unless it is a
number that was given one byte too little. -/
theorem isComplete_newline {cap : ℕ} {l : Line} {t : List UInt8} {cut : Prop}
    (hcontents : l.bufLen + 1 < cap → l.contents = t)
    (hlast : l.bufLen + 1 = cap → (l.contents = t ↔ ¬cut)) :
    IsComplete (t ++ [10]) (finish (line cap false [] l)) ↔ ¬(cut ∧ l.bufLen + 1 = cap) := by
  rcases le_or_gt cap l.bufLen with hfull | hroom
  · rw [line_full hfull]
    exact iff_of_true (isComplete_refused ..) fun h => by omega
  · show IsComplete _ (finish (addChar cap true 10 l)) ↔ _
    rw [addChar_room hroom]
    refine isComplete_contents.trans ?_
    rw [contents_store _ (Nat.le_refl 1), List.take_of_length_le (Nat.le_refl 1),
      List.append_left_inj]
    rcases Nat.lt_or_ge (l.bufLen + 1) cap with hlt | hge
    · exact iff_of_true (hcontents hlt) fun h => by omega
    · have heq : l.bufLen + 1 = cap := by omega
      rw [hlast heq]
      exact not_congr ⟨fun h => ⟨h, heq⟩, fun h => h.1⟩

/-- The run behind an argument whose text takes the line to a new end. -/
theorem isComplete_next {cap : ℕ} {l : Line} {t : List UInt8} {a : LogArg} {args : List LogArg}
    {p : ℕ} (hp : p + (text a).length = l.bufLen) (ha : ¬IsOther a)
    (hcut : ¬PassesCut cap p a) (hcontents : l.bufLen + 1 < cap → l.contents = t)
    (hlast : l.bufLen + 1 = cap → (l.contents = t ↔ ¬∃ d, a = .number d))
    (ih : args ≠ [] → (IsComplete (t ++ tail args) (finish (line cap false args l)) ↔
      ¬(Reaches cap (l.bufLen + 1) (PassesCut cap) args ∨ Truncates cap (l.bufLen + 1) args))) :
    IsComplete (t ++ tail args) (finish (line cap false args l)) ↔
      ¬(Reaches cap p (PassesCut cap) (a :: args) ∨ Truncates cap p (a :: args)) := by
  have hreach : Reaches cap p (PassesCut cap) (a :: args) ↔
      Reaches cap (l.bufLen + 1) (PassesCut cap) args := by
    rw [reaches_cons_of_not hcut, hp, and_iff_right ha]
  rw [hreach]
  cases args with
  | nil =>
    rw [truncates_singleton, hp, or_iff_right reaches_nil]
    exact isComplete_newline hcontents hlast
  | cons b args =>
    rw [truncates_cons_cons, hp, and_iff_right ha]
    exact ih (List.cons_ne_nil _ _)

/-- One argument with what comes behind it, from where its text starts. What the line holds matters
as long as it is not full. -/
theorem isComplete_argument {cap : ℕ} {l : Line} {t : List UInt8} (hcap : cap < 2^31 - 2^9)
    (hl : l.bufLen ≤ cap) (ht : l.bufLen < cap → l.contents = t) (a : LogArg) {args : List LogArg}
    (ih : args ≠ [] → ∀ (l : Line) (t : List UInt8), (l.bufLen + 1 < cap → l.contents = t) →
      (IsComplete (t ++ tail args) (finish (line cap false args l)) ↔
        ¬(Reaches cap (l.bufLen + 1) (PassesCut cap) args ∨
          Truncates cap (l.bufLen + 1) args))) :
    IsComplete (t ++ (text a ++ tail args)) (finish (argument cap l a >>= line cap false args)) ↔
      ¬(Reaches cap l.bufLen (PassesCut cap) (a :: args) ∨
        Truncates cap l.bufLen (a :: args)) := by
  rw [← List.append_assoc]
  have hstep := handled_argument hcap hl a
  generalize argument cap l a = step at hstep ⊢
  cases hstep with
  | unknown type h =>
    -- An error is raised, so nothing is claimed.
    subst h
    refine iff_of_true trivial ?_
    rintro (hr | ⟨hother, -⟩)
    · exact ((reaches_cons_of_not id).mp hr).1 trivial
    · exact hother _ List.mem_cons_self trivial
  | fits ha hn h =>
    -- The text is stored whole, and the rest of the line decides.
    have hnumber : ¬∃ d, a = .number d := fun ⟨d, hd⟩ => hn d hd
    have hcontents (hlt : l.bufLen < cap) :
        (l.store (text a) (text a).length).contents = t ++ text a := by
      rw [contents_store _ (Nat.le_refl _), List.take_length, ht hlt]
    refine isComplete_next rfl ha (not_passesCut h) (fun hlt => hcontents ?_) (fun heq => ?_)
      fun hne => ih hne _ _ fun hlt => hcontents ?_
    · exact lt_of_le_of_lt (Nat.le_add_right _ _) (Nat.lt_of_succ_lt hlt)
    · exact iff_of_true (hcontents (heq ▸ Nat.lt_succ_of_le (Nat.le_add_right _ _))) hnumber
    · exact lt_of_le_of_lt (Nat.le_add_right _ _) (Nat.lt_of_succ_lt hlt)
  | full ha hn h hcut =>
    -- The line is refused here.
    refine iff_of_true (isComplete_refused ..) ?_
    rintro (hr | ⟨-, -, hlevel⟩)
    · exact not_reaches (by omega) ((reaches_cons_of_not hcut).mp hr).2
    · rw [level_cons] at hlevel
      omega
  | number d h =>
    have htext : text a = numberText d := h ▸ rfl
    have hcut : ¬PassesCut cap l.bufLen a := h ▸ id
    have hroom (hlt : l.bufLen < cap) : room cap l = cap - l.bufLen - 1 := by
      rw [room_eq hcap hl, if_neg hlt.ne]
    -- There is a byte to spare for the NUL, so that the digits are all there.
    have hcontents (hlt : l.bufLen + (text a).length + 1 < cap) :
        (l.store (snprintf (room cap l) (text a)) (text a).length).contents = t ++ text a := by
      rw [snprintf_of_lt (by rw [hroom (by omega)]; omega),
        contents_store _ (by rw [List.length_append]; omega), List.take_left, ht (by omega)]
    -- The NUL takes the place of the last digit, and no digit is a NUL.
    have hlost (heq : l.bufLen + (text a).length + 1 = cap) :
        (l.store (snprintf (room cap l) (text a)) (text a).length).contents ≠ t ++ text a := by
      have hne : text a ≠ [] := htext ▸ numberText_ne_nil d
      have hsize : room cap l = (text a).length := by rw [hroom (by omega)]; omega
      have hlen : ((text a).dropLast ++ [0]).length = (text a).length := by
        have hpos := List.length_pos_iff.mpr hne
        rw [List.length_append, List.length_dropLast, List.length_singleton]
        omega
      rw [hsize, snprintf_length hne, contents_store _ hlen.ge, List.take_of_length_le hlen.le,
        ht (by omega)]
      intro h
      have hzero : 0 ∈ text a :=
        List.append_cancel_left h ▸ List.mem_append_right _ List.mem_cons_self
      exact zero_notMem_numberText d (htext ▸ hzero)
    exact isComplete_next rfl (h ▸ id) hcut hcontents
      (fun heq => iff_of_false (hlost heq) fun hn => hn ⟨d, h⟩) fun hne => ih hne _ _ hcontents
  | cut h => exact iff_of_false id fun hr => hr (.inl (reaches_cons.mpr (.inl ⟨hl, h⟩)))

/-- A run from behind an argument. -/
theorem isComplete_line {cap : ℕ} (hcap : cap < 2^31 - 2^9) {args : List LogArg} (hne : args ≠ [])
    {l : Line} {t : List UInt8} (ht : l.bufLen + 1 < cap → l.contents = t) :
    IsComplete (t ++ tail args) (finish (line cap false args l)) ↔
      ¬(Reaches cap (l.bufLen + 1) (PassesCut cap) args ∨
        Truncates cap (l.bufLen + 1) args) := by
  induction args generalizing l t with
  | nil => exact absurd rfl hne
  | cons a args ih =>
    rcases le_or_gt cap l.bufLen with hfull | hroom
    · rw [line_full hfull]
      refine iff_of_true (isComplete_refused ..) ?_
      rintro (hr | hr)
      · exact not_reaches (by omega) hr
      · exact not_truncates (by omega) hr
    · have hcontents (hlt : l.bufLen + 1 < cap) : (l.store [44] 1).contents = t ++ [44] := by
        rw [contents_store _ (Nat.le_refl 1), ht hlt, List.take_of_length_le (Nat.le_refl 1)]
      have harg := isComplete_argument (l := l.store [44] 1) hcap hroom hcontents a
        fun hne l t ht => ih hne ht
      rw [List.append_assoc] at harg
      rw [line_cons, if_neg Bool.false_ne_true, addChar_room hroom]
      exact harg

theorem length_joined {args : List LogArg} (hne : args ≠ []) :
    (joined args).length = level args := by
  induction args with
  | nil => exact absurd rfl hne
  | cons a args ih =>
    have hlevel := level_cons 0 a args
    rw [Nat.zero_add, Nat.zero_add] at hlevel
    rw [joined_cons, List.length_append, hlevel]
    cases args with
    | nil => rfl
    | cons b args =>
      rw [← ih (List.cons_ne_nil _ _), tail, ← joined_cons, List.length_cons]
      omega

/-- The last argument is a number, and the line with its newline has `cap` bytes. -/
def IsTruncated (cap : ℕ) (args : List LogArg) : Prop :=
  (∀ a ∈ args, ¬IsOther a) ∧ (∃ d, args.getLast? = some (.number d)) ∧ (joined args).length = cap

theorem truncates_zero_iff {cap : ℕ} {args : List LogArg} :
    Truncates cap 0 args ↔ IsTruncated cap args := by
  refine and_congr_right fun _ => and_congr_right fun ⟨d, hd⟩ => ?_
  have hne : args ≠ [] := fun h => by rw [h] at hd; cases hd
  rw [length_joined hne, Nat.zero_add]

/-- The whole run of `table_concat`. -/
theorem isComplete_args {cap : ℕ} (hcap : cap < 2^31 - 2^9) (buf : ℕ → UInt8) (args : List LogArg) :
    IsComplete (joined args) (finish (line cap true args ⟨buf, 0, []⟩)) ↔
      ¬(Reaches cap 0 (PassesCut cap) args ∨ Truncates cap 0 args) := by
  cases args with
  | nil =>
    have hright : ¬(Reaches cap 0 (PassesCut cap) [] ∨ Truncates cap 0 []) := by
      rintro (hr | ⟨-, ⟨d, hd⟩, -⟩)
      · exact reaches_nil hr
      · cases hd
    refine iff_of_true ?_ hright
    rcases Nat.eq_zero_or_pos cap with rfl | hpos
    · exact isComplete_refused ..
    · show IsComplete _ (finish (addChar cap true 10 _))
      rw [addChar_room hpos]
      exact isComplete_contents.mpr rfl
  | cons a args =>
    rw [joined_cons, line_cons, if_pos rfl]
    exact isComplete_argument (t := []) hcap (Nat.zero_le cap) (fun _ => rfl) a
      fun hne l t ht => isComplete_line hcap hne ht

/-- `write` queues nothing but a line that `table_concat` has accepted. -/
theorem write_queues {tonumber : List UInt8 → Option Double} {q q' : LogQueue} {buf : ℕ → UInt8}
    {stack : List LogArg} {u : Option Urgent} (h : write tonumber q buf stack = some (q', u)) :
    q' = q ∨ ∃ id n l, 0 ≤ n ∧ tableConcat buf 8191 true 2 stack = (.returned n, l) ∧
      q' = { q with nodes := q.nodes ++ [⟨id, l.buf, n⟩] } := by
  have hsame {w : Option (LogQueue × Option Urgent)} {u' : Option Urgent} (hw : w = some (q, u'))
      (hq : w = some (q', u)) : q' = q := by
    rw [hw] at hq
    exact (congrArg Prod.fst (Option.some.inj hq)).symm
  rw [write] at h
  split at h
  · exact .inl (hsame rfl h)
  next id _ =>
  split_ifs at h with hfull
  · split at h
    · exact .inl (hsame rfl h)
    · exact .inl (hsame rfl h)
    · cases h
  split at h
  next n l heq =>
    split_ifs at h with hneg
    · exact .inl (hsame rfl h)
    · cases h
      exact .inr ⟨id, n, l, by omega, heq, rfl⟩
  · exact .inl (hsame rfl h)
  · cases h

/-- A call of `table_concat` comes to the whole line or to `-1`, unless a string passes that is cut
to an `int`, or a number ends the line where it has `cap` bytes with its newline. Nothing is queued
but what it has accepted. -/
theorem tableConcat_complete_iff {cap : ℕ} (hcap : cap < 2^31 - 2^9) (buf : ℕ → UInt8) (start : ℕ)
    (stack : List LogArg) :
    (IsComplete (joined (stack.drop (start - 1))) (tableConcat buf cap true start stack) ↔
      ¬(Reaches cap 0 (PassesCut cap) (stack.drop (start - 1)) ∨
        IsTruncated cap (stack.drop (start - 1)))) ∧
      ∀ tonumber q q' u, write tonumber q buf stack = some (q', u) →
        q' = q ∨ ∃ id n l, 0 ≤ n ∧ tableConcat buf 8191 true 2 stack = (.returned n, l) ∧
          q' = { q with nodes := q.nodes ++ [⟨id, l.buf, n⟩] } := by
  rw [tableConcat_eq, ← truncates_zero_iff]
  exact ⟨isComplete_args hcap buf _, fun tonumber q q' u h => write_queues h⟩

/-- The line is `ab,5,,5`. -/
theorem tableConcat_complete_mixed : 8191 < 2^31 - 2^9 ∧
    IsComplete [97, 98, 44, 53, 44, 44, 53, 10] (tableConcat (fun _ => 0) 8191 true 2 mixed) := by
  have hcap : 8191 < 2^31 - 2^9 := by decide
  have hjoined : joined (mixed.drop (2 - 1)) = [97, 98, 44, 53, 44, 44, 53, 10] := by
    rw [joined, texts_mixed]
    rfl
  have hfits : level (mixed.drop (2 - 1)) ≤ 8191 := level_mixed.trans_le (by decide)
  have hcomplete := (tableConcat_complete_iff hcap (fun _ => 0) 2 mixed).1
  rw [hjoined] at hcomplete
  refine ⟨hcap, ?_⟩
  rw [hcomplete]
  rintro (⟨pre, a, post, hr, hp, hpre, hcut⟩ | ⟨-, -, hlength⟩)
  · exact not_reaches_overruns hfits ⟨pre, a, post, hr, hp, hpre, .inr hcut⟩
  · rw [hjoined] at hlength
    exact absurd hlength (by decide)

/-- The arguments of a call of `write` with a string and a number. -/
def lineOf (n : ℕ) : List LogArg := [.number five, .string (List.replicate n 97), .number five]

theorem drop_lineOf (n : ℕ) :
    (lineOf n).drop (2 - 1) = [.string (List.replicate n 97), .number five] := rfl

theorem level_string (s : List UInt8) : level [.string s] = s.length + 1 := by
  simp only [level, List.map_cons, List.map_nil, List.sum_cons, List.sum_nil, text, add_zero]

/-- Behind a string that leaves room for its comma only, a number is written outside. -/
theorem writes_outside {cap : ℕ} (hcap : cap < 2^31 - 2^9) (buf : ℕ → UInt8) {s : List UInt8}
    (hs : s.length + 1 = cap) (d : Double) :
    ¬InBounds cap (finish (line cap true [.string s, .number d] ⟨buf, 0, []⟩)).2.writes := by
  rw [inBounds_args hcap, not_not]
  refine ⟨[.string s], .number d, [], rfl, ?_, fun x hx => ?_, .inl ⟨d, rfl, ?_⟩⟩
  · rw [level_string]
    omega
  · rw [List.mem_singleton.mp hx]
    exact id
  · rw [level_string]
    omega

/-- 8190 bytes, a comma and a number: the number and its NUL go to the offsets 8191 and 8192. -/
theorem writes_outside_8190 :
    ¬InBounds 8191 (tableConcat (fun _ => 0) 8191 true 2 (lineOf 8190)).2.writes := by
  rw [tableConcat_eq, drop_lineOf]
  generalize hs : List.replicate 8190 (97 : UInt8) = s
  have hlen : s.length = 8190 := by rw [← hs, List.length_replicate]
  exact writes_outside (by decide) _ (by omega) five

/-- The number at the end of a line of `cap` bytes loses its last digit. -/
theorem loses_digit {cap : ℕ} (hcap : cap < 2^31 - 2^9) (buf : ℕ → UInt8) {s : List UInt8}
    {d : Double} (hs : s.length + 1 + (numberText d).length + 1 = cap) :
    ¬IsComplete (joined [.string s, .number d])
      (finish (line cap true [.string s, .number d] ⟨buf, 0, []⟩)) := by
  rw [isComplete_args hcap, not_not]
  refine .inr (truncates_cons_cons.mpr ⟨id, truncates_singleton.mpr ⟨⟨d, rfl⟩, ?_⟩⟩)
  show 0 + s.length + 1 + (numberText d).length + 1 = cap
  omega

/-- 8188 bytes, a comma, a digit and a newline: the digit is a NUL in the line that is queued. -/
theorem loses_digit_8188 :
    ¬IsComplete (joined ((lineOf 8188).drop (2 - 1)))
      (tableConcat (fun _ => 0) 8191 true 2 (lineOf 8188)) := by
  rw [tableConcat_eq, drop_lineOf]
  generalize hs : List.replicate 8188 (97 : UInt8) = s
  have hlen : s.length = 8188 := by rw [← hs, List.length_replicate]
  have hdigit : (numberText five).length = 1 := by rw [numberText_five, List.length_singleton]
  exact loses_digit (by decide) _ (by omega)

end ThreadLog

end Catse
