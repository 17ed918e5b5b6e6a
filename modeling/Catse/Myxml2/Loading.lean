import Catse.Myxml2.Archive
import Catse.Myxml2.Books
import Catse.Myxml2.Duplicates
import Catse.Myxml2.XmlDocuments

/-!
# From the file to the sheets

`loadBook` is `main` from the table of the archive to the sheets: each part of the workbook is got
out by `fileStr`, read by `getXml`, and gone through before the next one is got out, all in the one
buffer `out`. Where the parts are compact documents, it returns what `readBook` makes of their
elements (`loadBook_archive`).
-/

namespace Catse.Myxml2

open Xml (Document)
open Zip (Entry Archive)

/-- Where `main` ends with a message before it has read the sheets. -/
inductive LoadFail where
  | zip (e : ZipFail)
  | xml (e : XmlFail)
  | book (e : Fail)

/-- `sizeof(out)` -/
def outSize : ℕ := 2^26

/-- A record of `getXml`, as the functions behind it use it. -/
def XmlNode.dot (x : XmlNode) : Dot := ⟨x.name, x.text, x.vkv.map Prod.snd⟩

/-- `fileStr` and `getXml` for a part. -/
def readXml (file : List UInt8) (files : List Tri) (filename : List UInt8) (junk : TinfTree) :
    Except LoadFail (List Dot) := do
  let out ← (fileStr outSize filename file junk files).mapError .zip
  let vd ← (getXmlNodes out).mapError .xml
  .ok (vd.map XmlNode.dot)

/-! ## The names of the parts -/

/-- The loop of `writeInt`, which writes the lowest digit first, for a number of turns. -/
def writeIntDigits : ℕ → ℕ → List UInt8
  | 0, _ => []
  | n + 1, a => UInt8.ofNat (a - a / 10 * 10 + 48) ::
      if a / 10 = 0 then [] else writeIntDigits n (a / 10)

/-- `writeInt` on a number that is not negative: the digits, turned round. -/
def writeInt (a : ℕ) : List UInt8 := (writeIntDigits (a + 1) a).reverse

/-- `"xl/workbook.xml"` -/
def workbookPath : List UInt8 := bytes "xl/workbook.xml"

/-- `"xl/sharedStrings.xml"` -/
def sharedStringsPath : List UInt8 := bytes "xl/sharedStrings.xml"

/-- `buf` for the sheet `i`. -/
def sheetPath (i : ℕ) : List UInt8 := bytes "xl/worksheets/sheet" ++ writeInt (i + 1) ++ dotXml

/-! ## The loop over the sheets -/

/-- A round of the loop over the sheets. `junk` is what is on the stack in the calls of `fileStr`,
one after the other. -/
def loadSheet (a : Addresses) (file : List UInt8) (files : List Tri) (junk : ℕ → TinfTree)
    (vs : List StrPtr) (x : StrPtr × ℕ) (s : Memory) : Except LoadFail (Option Sheet × Memory) :=
  if hasChinese (s.intern.textOf x.1) then .ok (none, s)
  else do
    let vd ← readXml file files (sheetPath x.2) (junk (x.2 + 2))
    let r ← (getVvs a vs vd s).mapError .book
    .ok (some r.1, r.2)

/-- `main` from the table of the archive to the sheets: the sheets that are not skipped, with their
names, and the strings. -/
def loadBook (a : Addresses) (file : List UInt8) (files : List Tri) (junk : ℕ → TinfTree) :
    Except LoadFail (List (List UInt8 × Sheet) × Intern) := do
  let workbook ← readXml file files workbookPath (junk 0)
  let names ← (getWorkbook 0 Intern.init workbook).mapError .book
  let shared ← readXml file files sharedStringsPath (junk 1)
  let vs ← (getSharedStrings 0 none names.2 shared).mapError .book
  let rs ← mapState (loadSheet a file files junk vs.1) names.1.zipIdx ⟨vs.2, 0⟩
  .ok ((names.1.zip rs.1).filterMap fun x =>
      x.2.map fun sheet => (rs.2.intern.textOf x.1, sheet),
    rs.2.intern)

/-! ## Parts that are documents -/

/-- The elements of a document that are recorded. -/
def dots (d : Document) : List Dot := (d.root.openings.filterMap recordOf).map XmlNode.dot

/-- The first file that is in the table under a name holds a compact document, within the limits of
`fileStr` and `getXml`. -/
structure Part (es : List Entry) (filename : List UInt8) (d : Document) : Prop where
  found : ∃ e, (es.find? fun e => isListed e.name && decide (cName e.name = filename)) = some e ∧
    e.content = d.bytes ∧ (e.deflated = true → e.data.length ≤ bufCompressSize)
  size : d.bytes.length < outSize
  limits : WithinLimits (d.root.openings.filterMap recordOf)

theorem document_ne_nil (d : Document) : d.bytes ≠ [] := by
  intro h
  have htags := (List.append_eq_nil_iff.mp h).2
  rw [Document.root, Xml.Element.tags, List.flatMap_cons] at htags
  exact List.cons_ne_nil _ _ (List.append_eq_nil_iff.mp (List.append_eq_nil_iff.mp htags).1).1

/-- `fileStr` and `getXml` on such a part. -/
theorem Part.readXml {file filename : List UInt8} {es : List Entry} {d : Document}
    (h : Part es filename d) {directory : List UInt8} (hes : ∀ e ∈ es, Accepted e)
    (hfile : file = es.flatMap Entry.image ++ directory) (junk : TinfTree) :
    readXml file (tableFrom 0 es) filename junk = .ok (dots d) := by
  obtain ⟨e, he, hcontent, hdata⟩ := h.found
  have hsize := h.size
  have hextract : extract outSize filename e = .ok d.bytes := by
    rw [extract, hcontent, if_neg (by omega)]
    cases hd : e.deflated with
    | true => rw [if_pos rfl, if_neg (Nat.not_lt.mpr (hdata hd))]
    | false => rw [if_neg Bool.false_ne_true, if_neg (document_ne_nil d)]
  have hnodes : getXmlNodes d.bytes = .ok (d.root.openings.filterMap recordOf) := by
    rw [getXmlNodes_tags h.limits, filterMap_node]
  have hdrop : file.drop 0 = es.flatMap Entry.image ++ directory := hfile
  rw [Myxml2.readXml, fileStr_tableFrom hes hdrop, he]
  dsimp only
  rw [hextract]
  show ((getXmlNodes d.bytes).mapError LoadFail.xml >>= fun vd => .ok (vd.map XmlNode.dot)) = _
  rw [hnodes]
  rfl

/-- There is a name for each element of a sheet. -/
theorem length_names {vd : List Dot} {n : ℕ} {s s' : Intern} {names : List StrPtr}
    (h : getWorkbook n s vd = .ok (names, s')) :
    names.length = (vd.filter fun d => decide (d.name = .sheet)).length := by
  induction vd generalizing n s names with
  | nil =>
    cases h
    rfl
  | cons d vd ih =>
    rw [getWorkbook] at h
    split_ifs at h with hd hcap
    · split at h
      · cases h
      · obtain ⟨⟨p, s₁⟩, -, h⟩ := ok_of_bind h
        obtain ⟨⟨ps, s₂⟩, hrest, h⟩ := ok_of_bind h
        cases h
        rw [List.filter_cons_of_pos (by simpa using hd), List.length_cons, List.length_cons,
          ih hrest]
    · rw [List.filter_cons_of_neg (by simpa using hd), ih h]

/-- The workbook that documents describe. -/
def workbookOf (workbook sharedStrings : Document) (worksheet : ℕ → Document) : Workbook where
  workbook := dots workbook
  sharedStrings := dots sharedStrings
  worksheet := fun i => dots (worksheet i)

/-- A round of the loop over the sheets, where the part is a document. -/
theorem loadSheet_eq {a : Addresses} {file : List UInt8} {files : List Tri} {junk : ℕ → TinfTree}
    {vs : List StrPtr} {x : StrPtr × ℕ} {w : Workbook}
    (h : readXml file files (sheetPath x.2) (junk (x.2 + 2)) = .ok (w.worksheet x.2))
    (s : Memory) :
    loadSheet a file files junk vs x s = (readSheet a w vs x s).mapError .book := by
  rw [loadSheet, readSheet]
  split_ifs with hname
  · rfl
  · rw [h, mapError_bind]
    rfl

/-- `main` on an archive whose parts are compact documents: it reads what the elements of the
documents say, with the same sheets, names and strings, or the same message. -/
theorem loadBook_archive (a : Addresses) (archive : Archive)
    (haccepted : ∀ e ∈ archive.entries, Accepted e) (hroom : Room 0 archive.entries)
    (hsize : archive.bytes.length < 2^31) {workbook sharedStrings : Document}
    {worksheet : ℕ → Document} (hworkbook : Part archive.entries workbookPath workbook)
    (hstrings : Part archive.entries sharedStringsPath sharedStrings)
    (hsheets : ∀ i < ((dots workbook).filter fun d => decide (d.name = .sheet)).length,
      Part archive.entries (sheetPath i) (worksheet i))
    (stale : ℕ → ℕ → UInt8) :
    ∃ files, WalkEnds archive.bytes stale (.ok files) ∧ ∀ junk,
      loadBook a archive.bytes files junk =
        (readBook a (workbookOf workbook sharedStrings worksheet)).mapError .book := by
  refine ⟨_, walkEnds_archive archive haccepted hroom hsize stale, fun junk => ?_⟩
  have hread : ∀ {filename d}, Part archive.entries filename d → ∀ junk,
      readXml archive.bytes (tableFrom 0 archive.entries) filename junk = .ok (dots d) :=
    fun h junk => h.readXml haccepted rfl junk
  unfold loadBook readBook start
  rw [hread hworkbook, hread hstrings]
  show ((getWorkbook 0 Intern.init (dots workbook)).mapError LoadFail.book >>= fun names => _) =
    Except.mapError LoadFail.book
      (((getWorkbook 0 Intern.init (dots workbook)) >>= fun names => _) >>= _)
  -- An error of a part ends both in the same way.
  cases hnames : getWorkbook 0 Intern.init (dots workbook) with
  | error e => rfl
  | ok names =>
    show ((getSharedStrings 0 none names.2 (dots sharedStrings)).mapError LoadFail.book >>=
      fun vs => _) = Except.mapError LoadFail.book
        (((getSharedStrings 0 none names.2 (dots sharedStrings)) >>= fun vs => _) >>= _)
    cases hvs : getSharedStrings 0 none names.2 (dots sharedStrings) with
    | error e => rfl
    | ok vs =>
      have hlen := length_names hnames
      -- The rounds over the sheets read the same elements.
      have hrounds : ∀ x ∈ names.1.zipIdx, ∀ s,
          loadSheet a archive.bytes (tableFrom 0 archive.entries) junk vs.1 x s =
            (readSheet a (workbookOf workbook sharedStrings worksheet) vs.1 x s).mapError
              .book := by
        intro x hx s
        have hlt := List.snd_lt_of_mem_zipIdx hx
        exact loadSheet_eq (hread (hsheets x.2 (hlen ▸ by simpa using hlt)) _) s
      show (mapState (loadSheet a archive.bytes _ junk vs.1) names.1.zipIdx ⟨vs.2, 0⟩ >>= _) =
        Except.mapError LoadFail.book
          (mapState (readSheet a _ vs.1) (names.1.zipIdx.take names.1.length) ⟨vs.2, 0⟩ >>= _)
      rw [List.take_of_length_le (by rw [List.length_zipIdx]), mapState_mapError _ hrounds,
        mapError_bind]
      rfl

/-! ## A small workbook -/

/-- A file as it is. -/
def storedFile (name : List UInt8) (d : Document) : Entry where
  version := 20
  flag := 0
  deflated := false
  time := 0
  date := 0
  crc := 0
  name := name
  extra := []
  data := d.bytes
  content := d.bytes
  holds := rfl

/-- A document without attributes and text in its root. -/
def rootOnly (children : List Xml.Element) : Document where
  prolog := none
  name := ⟨bytes "x", by decide +kernel, by decide +kernel⟩
  attrs := []
  text := noText
  children := children

/-- `<sheet name="a"/>` -/
def oneName : Document :=
  rootOnly [.empty ⟨bytes "sheet", by decide +kernel, by decide +kernel⟩
    [⟨⟨bytes "name", by decide +kernel, by decide +kernel⟩, bytes "a", by decide +kernel⟩]]

/-- A cell with a text of its own. -/
def textCell (r v : String) (h : ∀ b ∈ bytes r ++ bytes v, b ∉ Xml.markup) : Xml.Element :=
  .node cellName
    [address r fun b hb => have hb := h b (List.mem_append_left _ hb)
      ⟨fun hzero => hb (hzero ▸ by decide), fun hquote => hb (hquote ▸ by decide)⟩]
    noText
    [.node valueName []
      ⟨bytes v, fun b hb => have hb := h b (List.mem_append_right _ hb)
        ⟨fun hzero => hb (hzero ▸ by decide), fun hopen => hb (hopen ▸ by decide)⟩⟩
      []]

/-- A number in a column `x`, with the id 1. -/
def oneNumber : Document :=
  rootOnly
    [textCell "A1" "id" (by decide +kernel),
      textCell "B1" "number" (by decide +kernel),
      textCell "A2" "id" (by decide +kernel),
      textCell "B2" "x" (by decide +kernel),
      textCell "A3" "id" (by decide +kernel),
      textCell "A4" "1" (by decide +kernel),
      textCell "B4" "5" (by decide +kernel)]

def smallArchive : Archive where
  entries := [storedFile workbookPath oneName, storedFile (sheetPath 0) oneNumber,
    storedFile sharedStringsPath (rootOnly [])]
  directory := []
  ends := ends_nil

theorem loadBook_archive_small :
    ∃ files, WalkEnds smallArchive.bytes (fun _ _ => 0) (.ok files) ∧ ∀ junk, ∃ sheets s,
      loadBook Addresses.below smallArchive.bytes files junk = .ok (sheets, s) ∧
      sheets.map (fun x => (x.1, x.2.n, x.2.m)) = [(bytes "a", 3, 2)] := by
  have haccepted : ∀ e ∈ smallArchive.entries, Accepted e := by
    intro e he
    simp only [smallArchive, List.mem_cons, List.not_mem_nil, or_false] at he
    rcases he with rfl | rfl | rfl <;>
      exact ⟨by decide, by decide, by decide +kernel, by decide, by decide +kernel,
        by decide +kernel⟩
  have hroom : Room 0 smallArchive.entries := by
    intro pre e post heq
    have hlen := congrArg List.length heq
    rw [List.length_append] at hlen
    have hfilter := List.length_filter_le (isListed ·.name) pre
    have hthree : smallArchive.entries.length = 3 := rfl
    omega
  have hworkbook : Part smallArchive.entries workbookPath oneName :=
    ⟨⟨_, List.find?_cons_of_pos (by decide +kernel), rfl, fun h => absurd h Bool.false_ne_true⟩,
      by decide +kernel, by decide +kernel, by decide +kernel, by decide +kernel⟩
  have hsheet : Part smallArchive.entries (sheetPath 0) oneNumber := by
    refine ⟨⟨storedFile (sheetPath 0) oneNumber, ?_, rfl, fun h => absurd h Bool.false_ne_true⟩,
      by decide +kernel, by decide +kernel, by decide +kernel, by decide +kernel⟩
    rw [smallArchive, List.find?_cons_of_neg (by decide +kernel),
      List.find?_cons_of_pos (by decide +kernel)]
  have hstrings : Part smallArchive.entries sharedStringsPath (rootOnly []) := by
    refine ⟨⟨storedFile sharedStringsPath (rootOnly []), ?_, rfl,
      fun h => absurd h Bool.false_ne_true⟩, by decide +kernel, by decide +kernel,
      by decide +kernel, by decide +kernel⟩
    rw [smallArchive, List.find?_cons_of_neg (by decide +kernel),
      List.find?_cons_of_neg (by decide +kernel), List.find?_cons_of_pos (by decide +kernel)]
  have hone : ((dots oneName).filter fun d => decide (d.name = .sheet)).length = 1 := by
    decide +kernel
  have hsheets : ∀ i < ((dots oneName).filter fun d => decide (d.name = .sheet)).length,
      Part smallArchive.entries (sheetPath i) ((fun _ => oneNumber) i) := by
    intro i hi
    obtain rfl : i = 0 := by omega
    exact hsheet
  obtain ⟨files, hends, hload⟩ := loadBook_archive Addresses.below smallArchive haccepted hroom
    (by decide +kernel) hworkbook hstrings hsheets fun _ _ => 0
  refine ⟨files, hends, fun junk => ?_⟩
  rw [hload]
  have hread : (match readBook Addresses.below (workbookOf oneName (rootOnly [])
      fun _ => oneNumber) with
    | .ok (sheets, _) => decide (sheets.map (fun x => (x.1, x.2.n, x.2.m)) = [(bytes "a", 3, 2)])
    | .error _ => false) = true := by
    decide +kernel
  cases hbook : readBook Addresses.below (workbookOf oneName (rootOnly []) fun _ => oneNumber) with
  | error e =>
    rw [hbook] at hread
    cases hread
  | ok r =>
    rw [hbook] at hread
    exact ⟨r.1, r.2, rfl, of_decide_eq_true hread⟩

end Catse.Myxml2
