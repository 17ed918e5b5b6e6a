import Mathlib.Algebra.Order.Ring.Int
import Mathlib.Data.List.DropRight
import Mathlib.Tactic.Common
import Mathlib.Tactic.SplitIfs

/-!
# Keys in Lua table constructors

A field of a table constructor has a key before its `=`: an expression in brackets, or a name. What
the manual says of three kinds of keys is collected in `LuaReads`: differences of numerals, strings
in quotes, and names. `lua` is how Lua reads a key, and gives none where the key is no key, or has a
value that cannot be one. Expressions of any other kind are left open, and so are escapes that the
manual does not have.

Numbers are doubles. Differences of integers are integers, so that only rounding and overflow are
needed here.
-/

namespace Catse

/-! ## Numbers -/

/-- An integer, an infinity, or not a number. The zero with a sign is the same key as zero. -/
inductive LuaNumber where
  | finite (n : ℤ)
  | infinite (neg : Bool)
  | nan
  deriving DecidableEq

namespace LuaNumber

/-- A magnitude with the 53 most significant bits, rounded to even. -/
def significant (m : ℕ) : ℕ :=
  let s := Nat.log2 m - 52
  let q := m / 2^s
  let r := m % 2^s
  (if 2^s < 2 * r ∨ (2 * r = 2^s ∧ q % 2 = 1) then q + 1 else q) * 2^s

/-- The double nearest to an integer. -/
def round (n : ℤ) : LuaNumber :=
  let m := significant n.natAbs
  if 2^1024 ≤ m then infinite (n < 0) else finite (if n < 0 then -m else m)

/-- Unary minus. -/
def neg : LuaNumber → LuaNumber
  | finite n => finite (-n)
  | infinite b => infinite !b
  | nan => nan

/-- Binary minus. -/
def sub : LuaNumber → LuaNumber → LuaNumber
  | finite a, finite b => round (a - b)
  | finite _, infinite b => infinite !b
  | infinite a, finite _ => infinite a
  | infinite a, infinite b => if a = b then nan else infinite a
  | _, _ => nan

/-- A numeral of decimal digits. -/
def numeral (digits : List UInt8) : LuaNumber :=
  round (digits.foldl (fun n b => 10 * n + (b.toNat - 48)) 0 : ℕ)

end LuaNumber

/-! ## Keys -/

/-- The values that a key can have. -/
inductive KeyValue where
  | number (n : ℤ)
  | infinite (neg : Bool)
  | string (s : List UInt8)
  /-- Any other value, by a number for it. -/
  | other (k : ℕ)
  deriving DecidableEq

/-- A number as a key. -/
def LuaNumber.key : LuaNumber → Option KeyValue
  | finite n => some (.number n)
  | infinite b => some (.infinite b)
  | nan => none

/-- Digits and hyphens. -/
def IsDifference (s : List UInt8) : Prop := s ≠ [] ∧ ∀ b ∈ s, (47 < b ∧ b < 58) ∨ b = 45

/-- What digits and hyphens are as an expression: numerals with a minus between them, and perhaps
one in front. Two hyphens next to each other begin a comment, and one at the end has nothing to
subtract. -/
def difference (s : List UInt8) : Option KeyValue :=
  match s.splitOn 45 with
  | [] :: d :: ds =>
    if (d :: ds).all fun d => !d.isEmpty then
      ((ds.map LuaNumber.numeral).foldl LuaNumber.sub (LuaNumber.numeral d).neg).key
    else none
  | d :: ds =>
    if (d :: ds).all fun d => !d.isEmpty then
      ((ds.map LuaNumber.numeral).foldl LuaNumber.sub (LuaNumber.numeral d)).key
    else none
  | [] => none

/-- The words that are no names. -/
def reserved : List (List UInt8) :=
  ["and", "break", "do", "else", "elseif", "end", "false", "for", "function", "if", "in", "local",
    "nil", "not", "or", "repeat", "return", "then", "true", "until", "while"].map fun s =>
    s.toUTF8.data.toList

/-- A letter or an underscore. -/
def isLetter (b : UInt8) : Bool := (65 ≤ b && b ≤ 90) || (97 ≤ b && b ≤ 122) || b == 95

/-- Letters, digits and underscores that do not begin with a digit, and are no reserved word. -/
def isName : List UInt8 → Bool
  | [] => false
  | b :: s => isLetter b && s.all (fun b => isLetter b || (48 ≤ b && b ≤ 57)) &&
      !reserved.contains (b :: s)

/-- White space. -/
def isSpace (b : UInt8) : Bool := b == 32 || (9 ≤ b && b ≤ 13)

/-- A text without its comments, where the flag is for the inside of one. Two hyphens begin a
comment, and a line break ends it; one that does not end goes on over what follows the text. -/
def uncomment : Bool → List UInt8 → Option (List UInt8)
  | true, [] => none
  | false, [] => some []
  | true, b :: s =>
    if b = 10 ∨ b = 13 then (uncomment false s).map (b :: ·) else uncomment true s
  | false, 45 :: 45 :: s => uncomment true s
  | false, b :: s => (uncomment false s).map (b :: ·)

/-- The name in a text, which can have white space and comments around it. -/
def keyName (s : List UInt8) : Option (List UInt8) :=
  (uncomment false s).bind fun t =>
    let name := (t.dropWhile isSpace).rdropWhile isSpace
    if isName name then some name else none

/-! ## Strings in quotes -/

/-- What the text between two quotes is: a string, or none as Lua refuses it, or what only Lua can
tell, where a quote ends the string within the text or an escape is not in the manual. -/
inductive Quoted where
  | string (s : List UInt8)
  | invalid
  | other
  deriving DecidableEq

/-- A character in front of what the rest is. -/
def Quoted.cons (c : UInt8) : Quoted → Quoted
  | string s => string (c :: s)
  | q => q

/-- The character with this code in front of what the rest is. -/
def Quoted.code (v : ℕ) (q : Quoted) : Quoted := if v < 256 then q.cons (.ofNat v) else invalid

/-- How far an escape has been read: none is open, the backslash, `n` digits of a code with their
value, or a line break that can have a second half. -/
inductive Escape where
  | none
  | backslash
  | digits (n v : ℕ)
  | newline (b : UInt8)

/-- The escapes of one character, and what they stand for. -/
def escapes : List (UInt8 × UInt8) :=
  [(97, 7), (98, 8), (102, 12), (110, 10), (114, 13), (116, 9), (118, 11), (92, 92), (34, 34),
    (39, 39)]

/-- A character outside of escapes, where `rest` is how the text goes on. -/
def unescaped (b : UInt8) (rest : Escape → Quoted) : Quoted :=
  if b = 34 then .other
  else if b = 10 ∨ b = 13 then .invalid
  else if b = 92 then rest .backslash
  else (rest .none).cons b

/-- The text between two quotes. Three digits at most are a code, and the two characters of a line
break are one character. -/
def quoted : Escape → List UInt8 → Quoted
  | .backslash, [] => .other
  | .digits _ v, [] => Quoted.code v (.string [])
  | _, [] => .string []
  | .none, b :: s => unescaped b fun e => quoted e s
  | .backslash, b :: s =>
    if 48 ≤ b ∧ b ≤ 57 then quoted (.digits 1 (b.toNat - 48)) s
    else if b = 10 ∨ b = 13 then (quoted (.newline b) s).cons 10
    else
      match escapes.lookup b with
      | some c => (quoted .none s).cons c
      | none => .other
  | .digits n v, b :: s =>
    if n < 3 ∧ 48 ≤ b ∧ b ≤ 57 then quoted (.digits (n + 1) (10 * v + (b.toNat - 48))) s
    else Quoted.code v (unescaped b fun e => quoted e s)
  | .newline b', b :: s =>
    if (b = 10 ∨ b = 13) ∧ b ≠ b' then quoted .none s else unescaped b fun e => quoted e s

example :
    quoted .none [92, 110, 92, 54, 53, 66, 92, 13, 10, 67] = .string [10, 65, 66, 10, 67] := by
  decide

/-- A string as a key. -/
def Quoted.key : Quoted → Option KeyValue
  | string s => some (.string s)
  | _ => none

theorem Quoted.key_eq_some {q : Quoted} {v : KeyValue} (h : q.key = some v) :
    ∃ s, q = .string s ∧ v = .string s := by
  cases q with
  | string s => exact ⟨s, rfl, (Option.some.inj h).symm⟩
  | invalid => cases h
  | other => cases h

theorem Quoted.isSome_key {q : Quoted} (h : q ≠ .other) : q.key.isSome ↔ q ≠ .invalid := by
  cases q with
  | string s => exact iff_of_true rfl (by simp)
  | invalid => exact iff_of_false (by simp [Quoted.key]) fun h => h rfl
  | other => exact absurd rfl h

theorem Quoted.cons_eq_string {c : UInt8} {q : Quoted} {t : List UInt8}
    (h : q.cons c = .string t) : ∃ s, q = .string s ∧ t = c :: s := by
  cases q with
  | string s => exact ⟨s, rfl, (Quoted.string.inj h).symm⟩
  | invalid => cases h
  | other => cases h

theorem Quoted.code_eq_string {v : ℕ} {q : Quoted} {t : List UInt8} (h : q.code v = .string t) :
    ∃ c s, q = .string s ∧ t = c :: s := by
  unfold Quoted.code at h
  split_ifs at h
  obtain ⟨s, hs, ht⟩ := Quoted.cons_eq_string h
  exact ⟨_, s, hs, ht⟩

theorem ascii_of_escapes {b c : UInt8} (h : escapes.lookup b = some c) : b < 128 := by
  obtain ⟨before, behind, hsplit, -⟩ := List.lookup_eq_some_iff.mp h
  have hall : ∀ p ∈ escapes, p.1 < 128 := by simp [escapes]
  exact hall (b, c) (hsplit ▸ List.mem_append_right _ List.mem_cons_self)

/-- What is not ASCII is behind a first character that is. -/
theorem mem_behind {b x : UInt8} {s : List UInt8} (hx : 128 ≤ x) (hb : b < 128)
    (hmem : x ∈ b :: s) : x ∈ s := by
  refine (List.mem_cons.mp hmem).resolve_left fun hxb => ?_
  exact absurd hb (UInt8.not_lt.mpr (hxb ▸ hx))

/-- A character that is not ASCII is in the string, if those of the rest are. -/
theorem mem_of_unescaped {b x : UInt8} {s t : List UInt8} (hx : 128 ≤ x) (hmem : x ∈ b :: s)
    (ih : ∀ e t, quoted e s = .string t → x ∈ s → x ∈ t)
    (h : unescaped b (fun e => quoted e s) = .string t) : x ∈ t := by
  unfold unescaped at h
  split_ifs at h with hquote hline hescape
  · have hb : b < 128 := by
      rw [hescape]
      decide
    exact ih _ _ h (mem_behind hx hb hmem)
  · obtain ⟨u, hu, rfl⟩ := Quoted.cons_eq_string h
    rcases List.mem_cons.mp hmem with rfl | hmem
    · exact List.mem_cons_self
    · exact List.mem_cons_of_mem _ (ih _ _ hu hmem)

/-- A character of the text that is not ASCII is in the string, as no escape has one. -/
theorem mem_of_quoted {x : UInt8} (hx : 128 ≤ x) {e : Escape} {s t : List UInt8}
    (h : quoted e s = .string t) (hmem : x ∈ s) : x ∈ t := by
  induction s generalizing e t with
  | nil => exact absurd hmem List.not_mem_nil
  | cons b s ih =>
    have hrest : ∀ e t, quoted e s = .string t → x ∈ s → x ∈ t := fun e t h hmem => ih h hmem
    -- Where `b` belongs to an escape it is ASCII, so that `x` comes behind it.
    have hbehind (hb : b < 128) : x ∈ s := mem_behind hx hb hmem
    have hdigit (hb : 48 ≤ b ∧ b ≤ 57) : b < 128 := UInt8.lt_of_le_of_lt hb.2 (by decide)
    have hline (hb : b = 10 ∨ b = 13) : b < 128 := by
      rcases hb with rfl | rfl <;> decide
    cases e with
    | none => exact mem_of_unescaped hx hmem hrest h
    | backslash =>
      unfold quoted at h
      split_ifs at h with hcode hbreak
      · exact ih h (hbehind (hdigit hcode))
      · obtain ⟨u, hu, rfl⟩ := Quoted.cons_eq_string h
        exact List.mem_cons_of_mem _ (ih hu (hbehind (hline hbreak)))
      · split at h
        · rename_i c hc
          obtain ⟨u, hu, rfl⟩ := Quoted.cons_eq_string h
          refine List.mem_cons_of_mem _ (ih hu (hbehind ?_))
          exact ascii_of_escapes hc
        · cases h
    | digits n v =>
      unfold quoted at h
      split_ifs at h with hcode
      · exact ih h (hbehind (hdigit hcode.2))
      · obtain ⟨c, u, hu, rfl⟩ := Quoted.code_eq_string h
        exact List.mem_cons_of_mem _ (mem_of_unescaped hx hmem hrest hu)
    | newline b' =>
      unfold quoted at h
      split_ifs at h with hbreak
      · exact ih h (hbehind (hline hbreak.1))
      · exact mem_of_unescaped hx hmem hrest h

/-! ## What Lua reads -/

/-- How Lua reads keys: digits and hyphens in brackets, a text in quotes, and a text of ASCII
characters without a bracket. -/
structure LuaReads (lua : List UInt8 → Option KeyValue) : Prop where
  difference : ∀ s, IsDifference s → lua (91 :: (s ++ [93])) = difference s
  string : ∀ s, quoted .none s ≠ .other →
    lua (91 :: 34 :: (s ++ [34, 93])) = (quoted .none s).key
  name : ∀ s, (∀ b ∈ s, b < 128) → 91 ∉ s → lua s = (keyName s).map .string

/-- A difference is a number. -/
theorem number_of_difference {s : List UInt8} {v : KeyValue} (h : difference s = some v) :
    (∃ n, v = .number n) ∨ ∃ b, v = .infinite b := by
  have hkey : ∀ x : LuaNumber, x.key = some v → (∃ n, v = .number n) ∨ ∃ b, v = .infinite b := by
    intro x hx
    cases x with
    | finite n =>
      cases hx
      exact .inl ⟨n, rfl⟩
    | infinite b =>
      cases hx
      exact .inr ⟨b, rfl⟩
    | nan => cases hx
  unfold difference at h
  split at h
  · split_ifs at h
    exact hkey _ h
  · split_ifs at h
    exact hkey _ h
  · cases h

theorem isName_of_keyName {s n : List UInt8} (h : keyName s = some n) : isName n = true := by
  obtain ⟨t, -, ht⟩ := Option.bind_eq_some_iff.mp h
  dsimp only at ht
  split_ifs at ht with hname
  cases ht
  exact hname

/-- Names are ASCII. -/
theorem ascii_of_isName {n : List UInt8} (h : isName n = true) : ∀ b ∈ n, b < 128 := by
  have hletter : ∀ b, isLetter b = true → b < 128 := by
    intro b hb
    simp only [isLetter, Bool.or_eq_true, Bool.and_eq_true, decide_eq_true_eq, beq_iff_eq] at hb
    rcases hb with (⟨-, hb⟩ | ⟨-, hb⟩) | rfl
    · exact UInt8.lt_of_le_of_lt hb (by decide)
    · exact UInt8.lt_of_le_of_lt hb (by decide)
    · decide
  have hdigit : ∀ b : UInt8, (48 ≤ b && b ≤ 57) = true → b < 128 := by
    intro b hb
    rw [Bool.and_eq_true, decide_eq_true_eq, decide_eq_true_eq] at hb
    exact UInt8.lt_of_le_of_lt hb.2 (by decide)
  cases n with
  | nil => cases h
  | cons b s =>
    rw [isName, Bool.and_eq_true, Bool.and_eq_true, List.all_eq_true] at h
    intro x hx
    rcases List.mem_cons.mp hx with rfl | hx
    · exact hletter x h.1.1
    · exact ((Bool.or_eq_true _ _).mp (h.1.2 x hx)).elim (hletter x) (hdigit x)

/-- A reading of the three kinds of keys, and of no others. -/
def plainKeys (k : List UInt8) : Option KeyValue :=
  match k with
  | 91 :: 34 :: s => (quoted .none s.dropLast.dropLast).key
  | 91 :: s => difference s.dropLast
  | s => (keyName s).map .string

theorem plainKeys_reads : LuaReads plainKeys where
  difference s hs := by
    obtain ⟨hne, hall⟩ := hs
    cases s with
    | nil => exact absurd rfl hne
    | cons b s =>
      have hb : b ≠ 34 := by
        rintro rfl
        exact absurd (hall 34 List.mem_cons_self) (by decide)
      have hread : plainKeys (91 :: (b :: s ++ [93])) = difference (b :: s ++ [93]).dropLast := by
        unfold plainKeys
        split
        · rename_i heq
          exact absurd (List.cons.inj (List.cons.inj heq).2).1 hb
        · rename_i heq
          rw [(List.cons.inj heq).2]
        · rename_i hno
          exact absurd rfl (hno _)
      rw [hread, List.dropLast_concat]
  string s _ := by
    have hsplit : s ++ [34, 93] = s ++ [34] ++ [93] := by rw [List.append_assoc]; rfl
    have hdrop : (s ++ [34, 93]).dropLast.dropLast = s := by
      rw [hsplit, List.dropLast_concat, List.dropLast_concat]
    show (quoted .none (s ++ [34, 93]).dropLast.dropLast).key = _
    rw [hdrop]
  name s _ hs := by
    unfold plainKeys
    split
    · exact absurd List.mem_cons_self hs
    · exact absurd List.mem_cons_self hs
    · rfl

end Catse
