import Catse.Myxml2.Strings

/-!
# Conversion of cells

The functions that rewrite a cell's text: `strReplace`, `removeSpace` and `getStrAddQuote`, and what
`getVvs` does with them for a column of a given type. The first two write over the text that they
read, from left to right and never ahead of it, so each is a function of the text.
-/

namespace Catse.Myxml2

/-- `strReplace`: occurrences of `b` are replaced by `c`, which is no longer, from left to right. -/
def strReplace (b c : List UInt8) : List UInt8 → List UInt8
  | [] => []
  | x :: a =>
    if b.isPrefixOf (x :: a) then c ++ strReplace b c (a.drop (b.length - 1))
    else x :: strReplace b c a
termination_by a => a.length
decreasing_by
  · rw [List.length_drop, List.length_cons]
    omega
  · exact Nat.lt_succ_self _

/-- Does `c` come next? -/
def next (c : UInt8) (a : List UInt8) : Bool := a.head? = some c

/-- `cntYin` after a character. -/
def toggle (yin : Bool) (x : UInt8) : Bool := if x = 34 then !yin else yin

/-- `cntKuo` after a character, given what follows it. -/
def count (kuo : ℤ) (x : UInt8) (a : List UInt8) : ℤ :=
  if x = 34 then kuo
  else if x = 91 ∧ next 91 a then kuo + 1
  else if x = 93 ∧ next 93 a then kuo - 1
  else kuo

/-- The first loop of `removeSpace`: white space goes outside of quotes and double brackets. -/
def removeBlanks (yin : Bool) (kuo : ℤ) : List UInt8 → Except Fail (List UInt8)
  | [] => .ok []
  | x :: a =>
    if 1 < count kuo x a then .error .nestedBracket
    else if count kuo x a < 0 then .error .strayBracket
    else do
      let rest ← removeBlanks (toggle yin x) (count kuo x a) a
      if toggle yin x ∨ count kuo x a ≠ 0 ∨ x ≠ 10 ∧ x ≠ 13 ∧ x ≠ 32 then .ok (x :: rest)
      else .ok rest

/-- The second loop: a comma before a closing brace goes. -/
def removeCommas : List UInt8 → List UInt8
  | [] => []
  | x :: a => if x = 44 ∧ next 125 a then removeCommas a else x :: removeCommas a

/-- The end of `removeSpace`: a comma at the end goes. -/
def removeLast (a : List UInt8) : List UInt8 := if a.getLast? = some 44 then a.dropLast else a

/-- `removeSpace`. -/
def removeSpace (a : List UInt8) : Except Fail (List UInt8) := do
  let b ← removeBlanks false 0 a
  .ok (removeLast (removeCommas b))

/-- The variables of `getStrAddQuote`: the output, the text from `last` up to `start` or to the
current character, the text from `start` on, `hasLetter` and `cntKuo`. -/
structure Quoting where
  out : List UInt8
  before : List UInt8
  item : Option (List UInt8)
  hasLetter : Bool
  cntKuo : ℤ

namespace Quoting

/-- The current character is passed. -/
def pass (q : Quoting) (x : UInt8) : Quoting :=
  match q.item with
  | none => { q with before := q.before ++ [x] }
  | some i => { q with item := some (i ++ [x]) }

/-- What happens at the end of an item: with a letter and outside of parentheses it is quoted. -/
def close (q : Quoting) : Quoting :=
  match q.item with
  | none => q
  | some i =>
    if q.hasLetter then
      if q.cntKuo = 0 then
        { q with out := q.out ++ q.before ++ [34] ++ i ++ [34], before := [], item := none }
      else q
    else { q with before := q.before ++ i, item := none }

/-- A character that is part of an item. -/
def letter (q : Quoting) (x : UInt8) : Quoting :=
  let q' := if q.item = none then { q with item := some [], cntKuo := 0, hasLetter := false } else q
  if x = 45 ∨ x = 46 ∨ 47 < x ∧ x < 58 then q' else { q' with hasLetter := true }

/-- What happens at a character. -/
def step (q : Quoting) (x : UInt8) : Quoting :=
  if x = 40 then { q with cntKuo := q.cntKuo + 1 }
  else if x = 41 then { q with cntKuo := q.cntKuo - 1 }
  else if x = 44 ∨ x = 125 then q.close
  else if x = 10 ∨ x = 13 ∨ x = 32 ∨ x = 123 then q
  else q.letter x

end Quoting

/-- `getStrAddQuote`: nothing is written where nothing is quoted. -/
def getStrAddQuote (outCap : ℕ) (a : List UInt8) : Except Fail (List UInt8) :=
  let q := Quoting.close
    (a.foldl (fun q x => Quoting.pass (q.step x) x) (Quoting.mk [] [] none false 0))
  let out := if q.out = [] then [] else q.out ++ q.before ++ q.item.getD []
  if outCap ≤ out.length then .error .cellLength else .ok out

/-- The replacements for all of the converted types. -/
def unescape (cell : List UInt8) : List UInt8 :=
  strReplace (bytes "&lt;") (bytes "<")
    (strReplace (bytes "&apos;") (bytes "'")
      (strReplace (bytes "&quot;") (bytes "\"")
        (strReplace (bytes "&gt;") (bytes ">")
          (strReplace (bytes "&amp;") (bytes "&") (strReplace (bytes "\r") [] cell)))))

/-- The conversion of a cell in a column of a type that is converted: the text that the cell's
memory is left with, and the text that is interned. -/
def convert (t : VarType) (cell : List UInt8) : Except Fail (List UInt8 × List UInt8) :=
  match t with
  | .table => do
    let a ← removeSpace (strReplace (bytes "&#10;") (bytes "\n") (unescape cell))
    .ok (a, a)
  | .string => .ok (strReplace (bytes "&#10;") (bytes "\n") (unescape cell),
      strReplace (bytes "&#10;") (bytes "\n") (unescape cell))
  | .tbstr => do
    let quoted ← getStrAddQuote 4096 (unescape cell)
    -- What is quoted is a copy, so that the spaces are removed from the copy.
    let a ← removeSpace (if quoted = [] then unescape cell else quoted)
    .ok (if quoted = [] then a else unescape cell, a)
  | _ => .ok (unescape cell, unescape cell)

/-- Is a cell in a column of this type converted? -/
def converted (t : StrPtr) : Option VarType :=
  match t with
  | .fix .number => none
  | .fix t => some t
  | .buf _ => none

end Catse.Myxml2
