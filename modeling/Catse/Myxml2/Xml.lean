import Catse.Lib.Scanning
import Catse.Myxml2.Sheets

/-!
# Reading XML

`getXml` reads a document in its buffer, with one pointer that only goes forward. It ends the
strings that it returns in place: the character data of each start tag at the `<` of the next tag,
and the values of attributes at their quotes. The names of elements and attributes are ended only
while they are compared, and the byte is put back. What is returned are pointers into the buffer, so
what they point at is read in the final buffer (`XmlState.nodes`).
-/

namespace Catse.Myxml2

/-- The errors of `getXml`. -/
inductive XmlFail where
  | unexpectedEnd
  | tooManyNodes
  | tooManyInTag
  | tooManyAttributes
  | tagEnd
  deriving DecidableEq

/-- The names of attributes that `getXml` records. -/
inductive XmlKey where
  | name
  | r
  | t
  deriving DecidableEq

/-- `pname`. -/
def pname : List (DotName × List UInt8) :=
  [(.si, bytes "si"), (.t, bytes "t"), (.sheet, bytes "sheet"), (.c, bytes "c"), (.v, bytes "v")]

/-- `pk`. -/
def pk : List (XmlKey × List UInt8) := [(.name, bytes "name"), (.r, bytes "r"), (.t, bytes "t")]

/-- `struct kv`, with the offset of the value. -/
structure XmlKv where
  k : XmlKey
  v : ℕ

/-- `struct dot`, with the offset of the text, which for an empty tag is a string of its own. -/
structure XmlDot where
  name : DotName
  text : Option ℕ
  vkv : List XmlKv

/-- The variables of `getXml`. -/
structure XmlState where
  buf : ℕ → UInt8
  begin : ℕ
  vd : List XmlDot
  bufVkvLen : ℕ

/-- The variables of `getXml` while it reads a tag. -/
structure XmlTag where
  buf : ℕ → UInt8
  begin : ℕ
  vkv : List XmlKv
  bufVkvLen : ℕ

/-! ## Looking ahead -/

/-- `checkEnd`, with the pointer at `i`. -/
def checkEnd (stop i : ℕ) : Except XmlFail ℕ := if stop ≤ i then .error .unexpectedEnd else .ok i

/-- The loops `while (...) { ++begin; checkEnd; }`, from an offset before the end. -/
def scanTo (p : ℕ → Bool) (stop i : ℕ) : Except XmlFail ℕ :=
  match scan p (stop - i) i with
  | some j => .ok j
  | none => .error .unexpectedEnd

/-- The end of a tag, `>` or `/>`. -/
def atTagEnd (buf : ℕ → UInt8) (i : ℕ) : Bool := buf i == 62 || (buf i == 47 && buf (i + 1) == 62)

/-- The word of a table that is equal to the name from `key` to `i`, where the name is ended while
it is compared. -/
def findWord {α : Type} (words : List (α × List UInt8)) (buf : ℕ → UInt8) (key i : ℕ) : Option α :=
  (words.find? fun w => strEq (Function.update buf i 0) key w.2).map Prod.fst

/-! ## Tags -/

/-- The checks before an attribute is recorded. -/
def checkKey (ppp : Option XmlKey) (s : XmlTag) : Except XmlFail Unit :=
  if ppp = none then .ok ()
  else if 2 ≤ s.vkv.length then .error .tooManyInTag
  else if 2^19 ≤ s.bufVkvLen then .error .tooManyAttributes
  else .ok ()

/-- An attribute with the value from `old` to `i` is recorded. -/
def XmlTag.record (s : XmlTag) (old i : ℕ) : Option XmlKey → XmlTag
  | none => s
  | some k => ⟨Function.update s.buf i 0, s.begin, s.vkv ++ [⟨k, old⟩], s.bufVkvLen + 1⟩

/-- One turn of the loop over the attributes of a tag, whose element is recorded if `pp` holds. -/
def xmlAttribute (stop : ℕ) (pp : Bool) (s : XmlTag) : Except XmlFail XmlTag := do
  let key ← checkEnd stop (s.begin + 1)
  let i ← scanTo (fun i => s.buf i == 61) stop key
  let ppp := if pp then findWord pk s.buf key i else none
  checkKey ppp s
  let old ← checkEnd stop (i + 2)
  let i ← scanTo (fun i => s.buf i == 34) stop old
  let begin ← checkEnd stop (i + 1)
  .ok { s.record old i ppp with begin := begin }

/-- The loop over the attributes of a tag. -/
def xmlAttributes (stop : ℕ) (pp : Bool) : ℕ → XmlTag → Except XmlFail XmlTag
  | 0, _ => .error .unexpectedEnd
  | n + 1, s =>
    if atTagEnd s.buf s.begin then .ok s
    else do
      let s ← xmlAttribute stop pp s
      xmlAttributes stop pp n s

/-- The end of a tag, and the text behind a start tag: the offset of the text, and the pointer and
the buffer. -/
def xmlText (stop : ℕ) (buf : ℕ → UInt8) (i : ℕ) :
    Except XmlFail (Option ℕ × ℕ × (ℕ → UInt8)) :=
  if buf i = 62 then do
    let text ← checkEnd stop (i + 1)
    let j ← scanTo (fun i => buf i == 60) stop text
    .ok (some text, j, Function.update buf j 0)
  else if buf i = 47 ∧ buf (i + 1) = 62 then do
    let j ← checkEnd stop (i + 2)
    .ok (none, j, buf)
  else .error .tagEnd

/-- A start tag or an empty tag, from its name on. -/
def xmlTag (stop : ℕ) (s : XmlState) (key : ℕ) : Except XmlFail XmlState := do
  let i ← scanTo (fun i => s.buf i == 32 || atTagEnd s.buf i) stop key
  let pp := findWord pname s.buf key i
  if pp ≠ none ∧ 2^20 < s.vd.length + 2 then .error .tooManyNodes
  else
    let a ← xmlAttributes stop pp.isSome (stop - i) ⟨s.buf, i, [], s.bufVkvLen⟩
    let (text, begin, buf) ← xmlText stop a.buf a.begin
    .ok ⟨buf, begin, s.vd ++ (pp.map fun name => ⟨name, text, a.vkv⟩).toList, a.bufVkvLen⟩

/-! ## Documents -/

/-- The loop of `getXml`. -/
def getXmlLoop (stop : ℕ) : ℕ → XmlState → Except XmlFail XmlState
  | 0, _ => .error .unexpectedEnd
  | n + 1, s => do
    let begin ← checkEnd stop (s.begin + 1)
    if s.buf begin = 63 then
      let j ← scanTo (fun i => s.buf i == 60) stop begin
      getXmlLoop stop n { s with begin := j }
    else if s.buf begin = 47 then
      let j ← scanTo (fun i => s.buf i == 62) stop begin
      if stop ≤ j + 1 then .ok { s with begin := j + 1 }
      else getXmlLoop stop n { s with begin := j + 1 }
    else
      let s ← xmlTag stop s begin
      getXmlLoop stop n s

/-- `strlen`. -/
def strlen (src : List UInt8) : ℕ := (src.takeWhile (· ≠ 0)).length

/-- `getXml`: the records, with the buffer that they point into. Each turn of the loops moves the
pointer, so there are no more turns than bytes. -/
def getXml (src : List UInt8) : Except XmlFail XmlState :=
  getXmlLoop (strlen src) (strlen src) ⟨fun i => src.getD i 0, 0, [], 0⟩

/-! ## What is returned -/

/-- A record with the strings that it points at. -/
structure XmlNode where
  name : DotName
  text : List UInt8
  vkv : List (XmlKey × List UInt8)
  deriving DecidableEq

/-- The strings of a record in a buffer. -/
def XmlDot.node (buf : ℕ → UInt8) (stop : ℕ) (d : XmlDot) : XmlNode where
  name := d.name
  text := d.text.elim [] (cstr buf stop)
  vkv := d.vkv.map fun kv => (kv.k, cstr buf stop kv.v)

/-- The list that `getXml` returns, with its strings. -/
def getXmlNodes (src : List UInt8) : Except XmlFail (List XmlNode) := do
  let s ← getXml src
  .ok (s.vd.map (XmlDot.node s.buf (strlen src)))

end Catse.Myxml2
