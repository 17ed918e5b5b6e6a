import Catse.Lib.Transition
import Catse.Lib.Zip
import Catse.Myxml2.InflateStreams

/-!
# The archive: the first loop of `main`, and `fileStr`

`main` goes from local header to local header and keeps a table of the files that it needs, and
`fileStr` reads one of them. The file is a byte string with a position, a short `fread` reads what
there is, and a seek in front of the start fails. Numbers in a header have the signs that their
types give them. Where the program ends with a message, the model has a `ZipFail`.
-/

namespace Catse.Myxml2

/-- Where the archive makes the program end. -/
inductive ZipFail where
  | version (versionNeededToExtract : ℤ)
  | flag (generalPurposeBitFlag : ℤ)
  | method (compressionMethod : ℤ)
  | sizes
  | tooMany
  | nameTooLong (fileNameLength : ℤ)
  | directory
  | content
  | seek (filename : List UInt8)
  | tooBig (filename : List UInt8) (outCap : ℕ)
  | compressedTooBig (filename : List UInt8)
  | read (filename : List UInt8)
  | inflate (fault : TinfFault)
  | length (filename : List UInt8)
  | unsupported (filename : List UInt8) (compressionMethod : ℤ)
  | missing (filename : List UInt8)

/-! ## Files -/

/-- `fseek` by an offset, with `none` for a failure. -/
def seekCur (pos : ℕ) (off : ℤ) : Option ℕ :=
  if (pos : ℤ) + off < 0 then none else some ((pos : ℤ) + off).toNat

/-- The bytes that `fread` gets of `n`. -/
def freadAt (file : List UInt8) (pos n : ℕ) : List UInt8 := (file.drop pos).take n

/-! ## Local headers -/

/-- The packed `struct` of the first loop. -/
structure LocalHeader where
  localFileHeaderSignature : ℤ
  versionNeededToExtract : ℤ
  generalPurposeBitFlag : ℤ
  compressionMethod : ℤ
  lastModFileTime : ℤ
  lastModFileDate : ℤ
  crc : ℤ
  compressedSize : ℤ
  uncompressedSize : ℤ
  fileNameLength : ℤ
  extraFieldLength : ℤ

/-- The `short` at an offset. -/
def shortAt (h : List UInt8) (i : ℕ) : ℤ := toShort (ofLE ((h.drop i).take 2))

/-- The `int` at an offset. -/
def intAt (h : List UInt8) (i : ℕ) : ℤ := toInt32 (ofLE ((h.drop i).take 4))

/-- The `struct` that lies in memory as these bytes. -/
def LocalHeader.ofBytes (h : List UInt8) : LocalHeader where
  localFileHeaderSignature := intAt h 0
  versionNeededToExtract := shortAt h 4
  generalPurposeBitFlag := shortAt h 6
  compressionMethod := shortAt h 8
  lastModFileTime := shortAt h 10
  lastModFileDate := shortAt h 12
  crc := intAt h 14
  compressedSize := intAt h 18
  uncompressedSize := intAt h 22
  fileNameLength := shortAt h 26
  extraFieldLength := shortAt h 28

/-- `fread(&h, sizeof(h), 1, fileIn)` after the signature has been set to 0, where `stale` is what
lies on the stack. -/
def readHeader (file : List UInt8) (pos : ℕ) (stale : ℕ → UInt8) : LocalHeader :=
  let got := freadAt file pos 30
  .ofBytes ((List.range 30).map fun i => got.getD i (if i < 4 then 0 else stale i))

/-! ## The table -/

/-- `struct tri`, with the bytes of the name before its terminator. -/
structure Tri where
  filename : List UInt8
  compressionMethod : ℤ
  compressedSize : ℤ
  uncompressedSize : ℤ
  offset : ℤ

/-- `rules`: `"xl/sharedStrings.xml"`, `"xl/worksheets/sheet"` and `"xl/workbook.xml"`. -/
def rules : List (List UInt8) :=
  ["xl/sharedStrings.xml".toUTF8.toList, "xl/worksheets/sheet".toUTF8.toList,
    "xl/workbook.xml".toUTF8.toList]

/-- `".xml"` -/
def dotXml : List UInt8 := [46, 120, 109, 108]

/-- Whether a file goes into the table. -/
def isListed (filename : List UInt8) : Bool :=
  decide (4 ≤ filename.length) && decide (filename.drop (filename.length - 4) = dotXml) &&
    rules.any fun rule =>
      !(decide (filename.length < rule.length) || decide (filename.take rule.length ≠ rule))

/-- The position, the table, and how many turns there have been. -/
structure Walk where
  pos : ℕ
  xmlFiles : List Tri
  turn : ℕ

/-- The rest of a turn after a local header, which is followed by a name at `pos`. -/
def afterHeader (file : List UInt8) (w : Walk) (h : LocalHeader) (pos : ℕ) :
    Except ZipFail Walk :=
  if ¬ (h.versionNeededToExtract = 0x14 ∨ h.versionNeededToExtract = 0xa) then
    .error (.version h.versionNeededToExtract)
  else if ¬ (h.generalPurposeBitFlag = 0x6 ∨ h.generalPurposeBitFlag = 0x0) then
    .error (.flag h.generalPurposeBitFlag)
  else if ¬ (h.compressionMethod = 0x8 ∨ h.compressionMethod = 0x0) then
    .error (.method h.compressionMethod)
  else if ¬ (h.compressionMethod ≠ 0 ∨ h.compressedSize = h.uncompressedSize) then .error .sizes
  else if 512 ≤ w.xmlFiles.length then .error .tooMany
  else if sizeLe 64 h.fileNameLength then .error (.nameTooLong h.fileNameLength)
  else
    let filename := freadAt file pos h.fileNameLength.toNat
    let pos := pos + filename.length
    if filename.length ≠ h.fileNameLength.toNat then .error .directory
    else
      match seekCur pos h.extraFieldLength with
      | none => .error .directory
      | some pos =>
        let xmlFiles :=
          if isListed filename then
            w.xmlFiles ++ [⟨filename, h.compressionMethod, h.compressedSize, h.uncompressedSize,
              toInt32 pos⟩]
          else w.xmlFiles
        match seekCur pos h.compressedSize with
        | none => .error .content
        | some pos => .ok ⟨pos, xmlFiles, w.turn + 1⟩

/-- What a turn does after the `fread` of `h`, with `none` where it ends the loop. -/
def afterRead (file : List UInt8) (w : Walk) (h : LocalHeader) : Except ZipFail (Option Walk) :=
  if h.localFileHeaderSignature ≠ 0x04034b50 then .ok none
  else (afterHeader file w h (w.pos + (freadAt file w.pos 30).length)).map some

/-- A turn of the first loop. `stale` is what lies where `h` is, turn by turn. -/
def zipTurn (file : List UInt8) (stale : ℕ → ℕ → UInt8) (w : Walk) :
    Except ZipFail (Option Walk) :=
  afterRead file w (readHeader file w.pos (stale w.turn))

/-- What follows a turn: the end, or `next`. -/
def afterTurn (next : Walk → Option (Except ZipFail (List Tri))) (w : Walk) :
    Except ZipFail (Option Walk) → Option (Except ZipFail (List Tri))
  | .error e => some (.error e)
  | .ok none => some (.ok w.xmlFiles)
  | .ok (some w') => next w'

/-- The first loop, for a number of turns: `none` where it has not ended by then. -/
def zipWalk (file : List UInt8) (stale : ℕ → ℕ → UInt8) :
    ℕ → Walk → Option (Except ZipFail (List Tri))
  | 0, _ => none
  | n + 1, w => afterTurn (zipWalk file stale n) w (zipTurn file stale w)

/-- The first loop ends with that. -/
def WalkEnds (file : List UInt8) (stale : ℕ → ℕ → UInt8) (r : Except ZipFail (List Tri)) : Prop :=
  ∃ n, zipWalk file stale n ⟨0, [], 0⟩ = some r

/-! ## `fileStr` -/

/-- The C string at the front of bytes that a terminator follows. -/
def cName (filename : List UInt8) : List UInt8 := filename.takeWhile (· ≠ 0)

/-- `sizeof(bufCompress)` -/
def bufCompressSize : ℕ := 2^22

/-- The body of `fileStr` for the file that has the name: what `out` then holds before the
terminator. `junk` is what is on the stack where `tinfUncompress` has its trees. -/
def readTri (outCap : ℕ) (filename file : List UInt8) (junk : TinfTree) (t : Tri) :
    Except ZipFail (List UInt8) :=
  if t.offset < 0 then .error (.seek filename)
  else if (outCap : ℤ) ≤ t.uncompressedSize then .error (.tooBig filename outCap)
  else if t.compressionMethod = 0x8 then
    if sizeLt bufCompressSize t.compressedSize then .error (.compressedTooBig filename)
    else
      let bufCompress := freadAt file t.offset.toNat t.compressedSize.toNat
      if t.compressedSize = 0 ∨ bufCompress.length ≠ t.compressedSize.toNat then
        .error (.read filename)
      else
        match tinfUncompress bufCompress junk with
        | .error fault => .error (.inflate fault)
        | .ok (out, bufUncompressLen) =>
          if toInt32 bufUncompressLen ≠ t.uncompressedSize then .error (.length filename)
          else .ok out
  else if t.compressionMethod = 0x0 then
    let n := (t.uncompressedSize % 2^64).toNat
    let out := freadAt file t.offset.toNat n
    if n = 0 ∨ out.length ≠ n then .error (.read filename) else .ok out
  else .error (.unsupported filename t.compressionMethod)

/-- `fileStr`. -/
def fileStr (outCap : ℕ) (filename file : List UInt8) (junk : TinfTree) (files : List Tri) :
    Except ZipFail (List UInt8) :=
  match files.find? fun t => cName t.filename = filename with
  | none => .error (.missing filename)
  | some t => readTri outCap filename file junk t

/-! ## A turn -/

open Zip (Entry Archive signature)

/-- What `main` takes: the versions and flags, and numbers that keep their signs. -/
structure Accepted (e : Entry) : Prop where
  version : e.version = 0x14 ∨ e.version = 0xa
  flag : e.flag = 0x6 ∨ e.flag = 0x0
  name : e.name.length < 64
  extra : e.extra.length < 2^15
  data : e.data.length < 2^31
  content : e.content.length < 2^31

/-- The fields of a local header as `main` sees them. -/
theorem ofBytes_header (e : Entry) :
    LocalHeader.ofBytes e.header =
      { localFileHeaderSignature := 0x04034b50
        versionNeededToExtract := toShort (e.version % 2^16 : ℕ)
        generalPurposeBitFlag := toShort (e.flag % 2^16 : ℕ)
        compressionMethod := if e.deflated then 8 else 0
        lastModFileTime := toShort (e.time % 2^16 : ℕ)
        lastModFileDate := toShort (e.date % 2^16 : ℕ)
        crc := toInt32 (e.crc % 2^32 : ℕ)
        compressedSize := toInt32 (e.data.length % 2^32 : ℕ)
        uncompressedSize := toInt32 (e.content.length % 2^32 : ℕ)
        fileNameLength := toShort (e.name.length % 2^16 : ℕ)
        extraFieldLength := toShort (e.extra.length % 2^16 : ℕ) } := by
  -- A field of the header stands behind the ones before it.
  have hint : ∀ {i n : ℕ}, e.fields[i]? = some (4, n) →
      intAt e.header ((e.fields.take i).map (·.1)).sum = toInt32 (n % 2^32 : ℕ) := by
    intro i n h
    rw [intAt, Entry.header, Zip.ofLE_record_getElem h]
  have hshort : ∀ {i n : ℕ}, e.fields[i]? = some (2, n) →
      shortAt e.header ((e.fields.take i).map (·.1)).sum = toShort (n % 2^16 : ℕ) := by
    intro i n h
    rw [shortAt, Entry.header, Zip.ofLE_record_getElem h]
  have hmethod : toShort ((if e.deflated then 8 else 0) % 2^16 : ℕ) =
      if e.deflated then 8 else 0 := by
    cases e.deflated with
    | true => rfl
    | false => rfl
  have h0 := hint (i := 0) rfl
  have h1 := hshort (i := 1) rfl
  have h2 := hshort (i := 2) rfl
  have h3 := hshort (i := 3) rfl
  have h4 := hshort (i := 4) rfl
  have h5 := hshort (i := 5) rfl
  have h6 := hint (i := 6) rfl
  have h7 := hint (i := 7) rfl
  have h8 := hint (i := 8) rfl
  have h9 := hshort (i := 9) rfl
  have h10 := hshort (i := 10) rfl
  rw [hmethod] at h3
  simp only [LocalHeader.ofBytes, LocalHeader.mk.injEq]
  exact ⟨h0, h1, h2, h3, h4, h5, h6, h7, h8, h9, h10⟩

/-- The same for a file that is taken. -/
theorem ofBytes_header_of_accepted {e : Entry} (h : Accepted e) :
    LocalHeader.ofBytes e.header =
      { localFileHeaderSignature := 0x04034b50
        versionNeededToExtract := e.version
        generalPurposeBitFlag := e.flag
        compressionMethod := if e.deflated then 8 else 0
        lastModFileTime := toShort (e.time % 2^16 : ℕ)
        lastModFileDate := toShort (e.date % 2^16 : ℕ)
        crc := toInt32 (e.crc % 2^32 : ℕ)
        compressedSize := e.data.length
        uncompressedSize := e.content.length
        fileNameLength := e.name.length
        extraFieldLength := e.extra.length } := by
  have hshort : ∀ n : ℕ, n < 2^15 → toShort (n % 2^16 : ℕ) = n := by
    intro n hn
    rw [Nat.mod_eq_of_lt (by omega)]
    exact toShort_of_range (by omega)
  have hint : ∀ n : ℕ, n < 2^31 → toInt32 (n % 2^32 : ℕ) = n := by
    intro n hn
    rw [Nat.mod_eq_of_lt (by omega)]
    exact toInt32_of_range (by omega)
  have hversion : e.version < 2^15 := by rcases h.version with hv | hv <;> rw [hv] <;> decide
  have hflag : e.flag < 2^15 := by rcases h.flag with hf | hf <;> rw [hf] <;> decide
  have hname := h.name
  rw [ofBytes_header, hshort _ hversion, hshort _ hflag, hint _ h.data, hint _ h.content,
    hshort e.name.length (by omega), hshort _ h.extra]

/-- What goes into the table for a file whose data begin at an offset. -/
def triOf (e : Entry) (offset : ℕ) : Tri where
  filename := e.name
  compressionMethod := if e.deflated then 8 else 0
  compressedSize := e.data.length
  uncompressedSize := e.content.length
  offset := offset

/-- Where the data of a file begin. -/
def dataOffset (e : Entry) (pos : ℕ) : ℕ := pos + 30 + e.name.length + e.extra.length

section Turn

variable {file rest : List UInt8} {stale : ℕ → ℕ → UInt8} {e : Entry} {w : Walk}

/-- What is read from the front of what stands at a position. -/
theorem freadAt_of_drop {pos : ℕ} {bs rest : List UInt8} (h : file.drop pos = bs ++ rest) :
    freadAt file pos bs.length = bs := by
  rw [freadAt, h, List.take_left' rfl]

theorem drop_add {pos : ℕ} {bs rest : List UInt8} (h : file.drop pos = bs ++ rest) :
    file.drop (pos + bs.length) = rest := by
  rw [← List.drop_drop, h, List.drop_left' rfl]

theorem seekCur_ofNat (pos n : ℕ) : seekCur pos n = some (pos + n) := by
  rw [seekCur, if_neg (by omega)]
  rfl

/-- A header that is there as a whole. -/
theorem readHeader_of_freadAt {pos : ℕ} {b : List UInt8} {h : ℕ → UInt8}
    (hgot : freadAt file pos 30 = b) (hlen : b.length = 30) :
    readHeader file pos h = .ofBytes b := by
  have hall : ((List.range 30).map fun i => b.getD i (if i < 4 then 0 else h i)) = b := by
    refine List.ext_getElem (by rw [List.length_map, List.length_range, hlen]) ?_
    intro i _ hi
    rw [List.getElem_map, List.getElem_range, List.getD_eq_getElem _ _ hi]
  rw [readHeader, hgot, hall]

/-- A turn at a file. -/
theorem zipTurn_entry (hfile : file.drop w.pos = e.image ++ rest) (he : Accepted e)
    (hroom : w.xmlFiles.length < 512) (hpos : dataOffset e w.pos < 2^31) :
    zipTurn file stale w = .ok (some ⟨w.pos + e.image.length,
      w.xmlFiles ++ (if isListed e.name then [triOf e (dataOffset e w.pos)] else []),
      w.turn + 1⟩) := by
  rw [Entry.image_append] at hfile
  -- What the two reads of the turn get: the header, and the name behind it.
  have hgot := freadAt_of_drop hfile
  rw [e.length_header] at hgot
  have hheader : readHeader file w.pos (stale w.turn) = .ofBytes e.header :=
    readHeader_of_freadAt hgot e.length_header
  have hname := freadAt_of_drop (drop_add hfile)
  rw [e.length_header] at hname
  have hsize := he.name
  -- The checks of the header, which an accepted entry passes one by one.
  have hversion : (e.version : ℤ) = 0x14 ∨ (e.version : ℤ) = 0xa := by
    have h := he.version
    omega
  have hflag : (e.flag : ℤ) = 0x6 ∨ (e.flag : ℤ) = 0x0 := by
    have h := he.flag
    omega
  have hsizes : (if e.deflated then (8 : ℤ) else 0) ≠ 0 ∨
      (e.data.length : ℤ) = e.content.length := by
    have hholds := e.holds
    cases hd : e.deflated with
    | true => exact Or.inl (by simp)
    | false =>
      rw [hd, if_neg Bool.false_ne_true] at hholds
      rw [hholds]
      exact Or.inr rfl
  have hmethod : (if e.deflated then (8 : ℤ) else 0) = 0x8 ∨
      (if e.deflated then (8 : ℤ) else 0) = 0x0 := by
    cases e.deflated with
    | true => exact Or.inl rfl
    | false => exact Or.inr rfl
  have hshort : sizeLe 64 (e.name.length : ℤ) = false := by
    rw [sizeLe]
    exact decide_eq_false (by omega)
  have hoffset : toInt32 ((w.pos + 30 + e.name.length + e.extra.length : ℕ) : ℤ) =
      (w.pos + 30 + e.name.length + e.extra.length : ℕ) := by
    rw [dataOffset] at hpos
    exact toInt32_of_range (by omega)
  -- The turn itself, check by check.
  rw [zipTurn, hheader, ofBytes_header_of_accepted he, afterRead, if_neg (not_not.mpr rfl), hgot,
    e.length_header]
  unfold afterHeader
  dsimp only
  rw [if_neg (not_not.mpr hversion), if_neg (not_not.mpr hflag),
    if_neg (not_not.mpr hmethod), if_neg (not_not.mpr hsizes), if_neg (by omega), hshort,
    if_neg Bool.false_ne_true, Int.toNat_natCast, hname, if_neg (not_not.mpr rfl), seekCur_ofNat]
  dsimp only
  rw [seekCur_ofNat, hoffset, e.length_image]
  dsimp only
  have hpos' : w.pos + 30 + e.name.length + e.extra.length + e.data.length =
      w.pos + (30 + e.name.length + e.extra.length + e.data.length) := by
    omega
  rw [hpos']
  cases isListed e.name with
  | true => rfl
  | false =>
    rw [if_neg Bool.false_ne_true, if_neg Bool.false_ne_true, List.append_nil]
    rfl

theorem cast_signature : (signature : ℤ) = 0x04034b50 := by decide

/-- The bytes of a signature. -/
theorem take_of_signature {b : List UInt8} (hlen : 4 ≤ b.length)
    (h : intAt b 0 = (signature : ℤ)) : b.take 4 = leBytes 4 signature := by
  rw [intAt, List.drop_zero, toInt32] at h
  have htake : (b.take 4).length = 4 := by rw [List.length_take, Nat.min_eq_left hlen]
  have hlt := ofLE_lt (b.take 4)
  rw [htake] at hlt
  have hmod : ((ofLE (b.take 4) : ℕ) : ℤ) % 2^32 = (signature : ℤ) % 2^32 := by
    rw [← h]
    exact (Int.bmod_emod ..).symm
  have hsig : signature < 2^32 := by decide
  have heq : ofLE (b.take 4) = signature := by omega
  have hback := leBytes_ofLE (b.take 4)
  rw [htake, heq] at hback
  exact hback.symm

theorem readHeader_signature (pos : ℕ) (h : ℕ → UInt8) :
    (readHeader file pos h).localFileHeaderSignature = intAt ((List.range 30).map fun i =>
      (freadAt file pos 30).getD i (if i < 4 then 0 else h i)) 0 := by
  unfold readHeader
  dsimp only [LocalHeader.ofBytes]

/-- What is no local header. -/
theorem readHeader_directory {pos : ℕ} {h : ℕ → UInt8} (hfile : file.drop pos = rest)
    (hrest : rest.take 4 ≠ leBytes 4 signature) :
    (readHeader file pos h).localFileHeaderSignature ≠ 0x04034b50 := by
  intro hsig
  apply hrest
  rw [readHeader_signature, ← cast_signature] at hsig
  have htake := take_of_signature (by rw [List.length_map, List.length_range]; decide) hsig
  have hbyte : ∀ i < 4, rest.getD i 0 = (leBytes 4 signature).getD i 0 := by
    intro i hi
    rw [← htake, freadAt, hfile]
    simp [List.getD_eq_getElem?_getD, List.getElem?_take, hi, show i < 30 by omega]
  have hlast := hbyte 3 (by decide)
  -- The last byte is not 0, so all four are there.
  have hlen : 4 ≤ rest.length := by
    by_contra hshort
    rw [List.getD_eq_default _ _ (by omega)] at hlast
    exact absurd hlast (by decide)
  refine List.ext_getElem (by rw [List.length_take, length_leBytes, Nat.min_eq_left hlen]) ?_
  intro i hi hi'
  have hi4 : i < 4 := by rwa [length_leBytes] at hi'
  have h := hbyte i hi4
  rw [List.getD_eq_getElem _ _ (by omega), List.getD_eq_getElem _ _ hi'] at h
  rw [List.getElem_take, h]

/-- A turn at what is no local header. -/
theorem zipTurn_directory (hfile : file.drop w.pos = rest)
    (hrest : rest.take 4 ≠ leBytes 4 signature) : zipTurn file stale w = .ok none := by
  rw [zipTurn, afterRead, if_pos (readHeader_directory hfile hrest)]

end Turn

/-! ## The table of an archive -/

/-- The table for files that stand one behind the other. -/
def tableFrom (pos : ℕ) : List Entry → List Tri
  | [] => []
  | e :: es => (if isListed e.name then [triOf e (dataOffset e pos)] else []) ++
      tableFrom (pos + e.image.length) es

/-- There is room in the table whenever a file comes. -/
def Room (k : ℕ) (es : List Entry) : Prop :=
  ∀ pre e post, es = pre ++ e :: post → k + (pre.filter (isListed ·.name)).length < 512

/-- The first loop takes one file after the other and ends at the directory. -/
theorem zipWalk_entries {file directory : List UInt8} {stale : ℕ → ℕ → UInt8} {es : List Entry}
    {w : Walk} (hes : ∀ e ∈ es, Accepted e) (hroom : Room w.xmlFiles.length es)
    (hdirectory : directory.take 4 ≠ leBytes 4 signature) (hsize : file.length < 2^31)
    (hfile : file.drop w.pos = es.flatMap Entry.image ++ directory) :
    zipWalk file stale (es.length + 1) w = some (.ok (w.xmlFiles ++ tableFrom w.pos es)) := by
  induction es generalizing w with
  | nil =>
    rw [zipWalk, zipTurn_directory hfile hdirectory, afterTurn, tableFrom, List.append_nil]
  | cons e es ih =>
    rw [List.flatMap_cons, List.append_assoc] at hfile
    have hlen := congrArg List.length hfile
    rw [List.length_drop, List.length_append, e.length_image] at hlen
    have hturn : zipTurn file stale w = _ := zipTurn_entry hfile (hes e List.mem_cons_self)
      (by simpa using hroom [] e es rfl) (by rw [dataOffset]; omega)
    have hnext : Room (w.xmlFiles ++ (if isListed e.name then
        [triOf e (dataOffset e w.pos)] else [])).length es := by
      intro pre e' post heq
      have h := hroom (e :: pre) e' post (by rw [heq, List.cons_append])
      rw [List.filter_cons] at h
      rw [List.length_append]
      cases hlisted : isListed e.name with
      | true =>
        rw [hlisted, if_pos rfl, List.length_cons] at h
        rw [if_pos rfl, List.length_singleton]
        omega
      | false =>
        rw [hlisted, if_neg Bool.false_ne_true] at h
        rw [if_neg Bool.false_ne_true, List.length_nil]
        omega
    rw [List.length_cons, zipWalk, hturn, afterTurn]
    rw [ih (w := ⟨_, _, w.turn + 1⟩) (fun e' he' => hes e' (List.mem_cons_of_mem e he')) hnext
      (drop_add hfile), tableFrom, List.append_assoc]

/-! ## A file of an archive -/

/-- What `fileStr` makes of a file in the archive. A file that is not deflated and has nothing in it
counts as one that cannot be read. -/
def extract (outCap : ℕ) (filename : List UInt8) (e : Entry) : Except ZipFail (List UInt8) :=
  if outCap ≤ e.content.length then .error (.tooBig filename outCap)
  else if e.deflated = true then
    if bufCompressSize < e.data.length then .error (.compressedTooBig filename) else .ok e.content
  else if e.content = [] then .error (.read filename)
  else .ok e.content

theorem tinfUncompress_of_stream {src out : List UInt8} (h : Deflate.Stream src out)
    (junk : TinfTree) : tinfUncompress src junk = .ok (out, out.length) := by
  obtain ⟨p, hblocks, -, -⟩ := h
  obtain ⟨d, hd⟩ := tinfBlocks_eq hblocks (n := 8 * src.length + 1) (by omega) junk (.init junk)
  rw [tinfUncompress]
  exact congrArg (· >>= _) hd

/-- A stream has a byte at least. -/
theorem pos_of_stream {src out : List UInt8} (h : Deflate.Stream src out) : 0 < src.length := by
  obtain ⟨p, hblocks, -, -⟩ := h
  cases hblocks with
  | last _ hblock =>
    have hlt := hblock.lt
    omega
  | more _ hblock _ =>
    have hlt := hblock.lt
    omega

/-- The body of `fileStr`, for a file where it stands in the archive. -/
theorem readTri_triOf {file rest filename : List UInt8} {pos outCap : ℕ} {e : Entry}
    (he : Accepted e) (hfile : file.drop pos = e.image ++ rest) (junk : TinfTree) :
    readTri outCap filename file junk (triOf e (dataOffset e pos)) = extract outCap filename e := by
  have hdata := he.data
  have hcontent := he.content
  have hholds := e.holds
  have hread : freadAt file (dataOffset e pos) e.data.length = e.data := by
    rw [Entry.image_append] at hfile
    have h := freadAt_of_drop (drop_add (drop_add (drop_add hfile)))
    rw [e.length_header] at h
    exact h
  have hlen : toInt32 (e.content.length : ℤ) = e.content.length := toInt32_of_range (by omega)
  unfold readTri extract triOf
  dsimp only
  rw [if_neg (by omega : ¬ ((dataOffset e pos : ℕ) : ℤ) < 0)]
  -- The size is checked before anything is read.
  by_cases hbig : outCap ≤ e.content.length
  · rw [if_pos (by omega), if_pos hbig]
  rw [if_neg (by omega), if_neg hbig]
  cases hd : e.deflated with
  | true =>
    rw [hd, if_pos rfl] at hholds
    -- A stream has a byte at least, so that the read of it does not fail.
    have hpos := pos_of_stream hholds
    rw [if_pos rfl, if_pos rfl, if_pos rfl, sizeLt_of_nonneg (by omega) (by omega)]
    by_cases hbuf : bufCompressSize < e.data.length
    · rw [if_pos hbuf, if_pos (by simpa using hbuf)]
    · rw [if_neg hbuf, if_neg (by simpa using hbuf), Int.toNat_natCast, Int.toNat_natCast, hread,
        if_neg (by omega), tinfUncompress_of_stream hholds]
      dsimp only
      rw [hlen, if_neg (not_not.mpr rfl)]
  | false =>
    rw [hd, if_neg Bool.false_ne_true] at hholds
    have hsize : ((e.content.length : ℤ) % 2^64).toNat = e.data.length := by
      rw [hholds]
      omega
    rw [if_neg Bool.false_ne_true, if_neg (by decide), if_pos rfl, if_neg Bool.false_ne_true,
      Int.toNat_natCast, hsize, hread, hholds]
    -- Of an empty file `fread` returns zero, which is taken for a failure.
    by_cases hnil : e.content = []
    · rw [if_pos hnil, if_pos (Or.inl (by rw [hnil, List.length_nil]))]
    · rw [if_neg hnil, if_neg]
      rintro (h | h)
      · exact hnil (List.eq_nil_of_length_eq_zero h)
      · exact h rfl

/-- `fileStr` with the table of an archive finds the first file that is in the table under the
name. -/
theorem fileStr_tableFrom {file directory filename : List UInt8} {pos outCap : ℕ}
    {es : List Entry} (hes : ∀ e ∈ es, Accepted e)
    (hfile : file.drop pos = es.flatMap Entry.image ++ directory) (junk : TinfTree) :
    fileStr outCap filename file junk (tableFrom pos es) =
      match es.find? fun e => isListed e.name && decide (cName e.name = filename) with
      | none => .error (.missing filename)
      | some e => extract outCap filename e := by
  induction es generalizing pos with
  | nil => rfl
  | cons e es ih =>
    rw [List.flatMap_cons, List.append_assoc] at hfile
    have hrest := ih (fun e' he' => hes e' (List.mem_cons_of_mem e he')) (drop_add hfile)
    rw [tableFrom]
    cases hlisted : isListed e.name with
    | false =>
      rw [if_neg Bool.false_ne_true, List.nil_append, hrest, List.find?_cons_of_neg]
      rw [hlisted, Bool.false_and]
      exact Bool.false_ne_true
    | true =>
      rw [if_pos rfl, List.singleton_append]
      have htri : (triOf e (dataOffset e pos)).filename = e.name := rfl
      by_cases hname : cName e.name = filename
      · simp only [fileStr, List.find?_cons, htri, hlisted, hname, decide_true, Bool.true_and]
        exact readTri_triOf (hes e List.mem_cons_self) hfile junk
      · simp only [fileStr, List.find?_cons, htri, hlisted, hname, decide_false, Bool.true_and]
        exact hrest

/-- The table that the first loop makes of an archive. -/
theorem walkEnds_archive (a : Archive) (ha : ∀ e ∈ a.entries, Accepted e) (hroom : Room 0 a.entries)
    (hsize : a.bytes.length < 2^31) (stale : ℕ → ℕ → UInt8) :
    WalkEnds a.bytes stale (.ok (tableFrom 0 a.entries)) := by
  refine ⟨a.entries.length + 1, ?_⟩
  have hwalk : zipWalk a.bytes stale _ ⟨0, [], 0⟩ = _ :=
    zipWalk_entries ha hroom a.ends hsize rfl
  rwa [List.nil_append] at hwalk

/-- The first loop on an archive ends, and `fileStr` gives with its table the content of the first
file that the table has under a name, unless that is too large, or empty and not deflated, or there
is none; a file may be deflated in any way. -/
theorem fileStr_archive (a : Archive) (ha : ∀ e ∈ a.entries, Accepted e) (hroom : Room 0 a.entries)
    (hsize : a.bytes.length < 2^31) (stale : ℕ → ℕ → UInt8) :
    ∃ files, WalkEnds a.bytes stale (.ok files) ∧ ∀ outCap filename junk,
      fileStr outCap filename a.bytes junk files =
        match a.entries.find? fun e => isListed e.name && decide (cName e.name = filename) with
        | none => .error (.missing filename)
        | some e => extract outCap filename e :=
  ⟨tableFrom 0 a.entries, walkEnds_archive a ha hroom hsize stale,
    fun _ _ junk => fileStr_tableFrom ha rfl junk⟩

/-- The letter as a stream of one block without codes. -/
theorem letter_stored : Deflate.Stream [0x01, 0x01, 0x00, 0xfe, 0xff, 0x61] [0x61] :=
  ⟨48, .last (by decide) (@Deflate.Block.stored _ 1 1 1 [] (by decide) rfl (by decide) (by decide)
    (by decide)), by decide, by decide⟩

/-- Without a directory. -/
theorem ends_nil : ([] : List UInt8).take 4 ≠ leBytes 4 signature := by decide

/-- A deflated file of one letter, and an empty one that is not deflated. -/
def letterArchive : Archive where
  entries :=
    [{ version := 0x14, flag := 0, deflated := true, time := 0, date := 0x21, crc := 0
       name := "xl/workbook.xml".toUTF8.toList, extra := [0]
       data := [0x01, 0x01, 0x00, 0xfe, 0xff, 0x61], content := [0x61], holds := letter_stored },
     { version := 0xa, flag := 6, deflated := false, time := 0, date := 0x21, crc := 0
       name := "xl/sharedStrings.xml".toUTF8.toList, extra := [], data := [], content := []
       holds := rfl }]
  directory := []
  ends := ends_nil

theorem fileStr_archive_letter :
    ∃ files, WalkEnds letterArchive.bytes (fun _ _ => 0) (.ok files) ∧ ∀ junk,
      fileStr 2 "xl/workbook.xml".toUTF8.toList letterArchive.bytes junk files = .ok [0x61] ∧
      fileStr 2 "xl/sharedStrings.xml".toUTF8.toList letterArchive.bytes junk files =
        .error (.read "xl/sharedStrings.xml".toUTF8.toList) := by
  have haccepted : ∀ e ∈ letterArchive.entries, Accepted e := by
    intro e he
    rcases List.mem_cons.mp he with rfl | he
    · exact ⟨by decide, by decide, by decide +kernel, by decide, by decide, by decide⟩
    · obtain rfl := List.mem_singleton.mp he
      exact ⟨by decide, by decide, by decide +kernel, by decide, by decide, by decide⟩
  have hroom : Room 0 letterArchive.entries := by
    intro pre e post heq
    have hlen := congrArg List.length heq
    rw [List.length_append] at hlen
    have hfilter := List.length_filter_le (isListed ·.name) pre
    have htwo : letterArchive.entries.length = 2 := rfl
    omega
  obtain ⟨files, hends, hfiles⟩ := fileStr_archive letterArchive haccepted hroom
    (by decide +kernel) fun _ _ => 0
  refine ⟨files, hends, fun junk => ⟨?_, ?_⟩⟩
  · rw [hfiles, letterArchive, List.find?_cons_of_pos (by decide +kernel)]
    rfl
  · rw [hfiles, letterArchive, List.find?_cons_of_neg (by decide +kernel),
      List.find?_cons_of_pos (by decide +kernel)]
    rfl

/-! ## Any file -/

/-- The turn that a turn leads to. -/
def turnAfter : Except ZipFail (Option Walk) → Option Walk
  | .ok w' => w'
  | .error _ => none

/-- The turns that there are. -/
def nextTurn (file : List UInt8) (stale : ℕ → ℕ → UInt8) (w : Walk) (_ : Unit) : Option Walk :=
  turnAfter (zipTurn file stale w)

theorem zipTurn_of_nextTurn {file : List UInt8} {stale : ℕ → ℕ → UInt8} {w w' : Walk}
    (h : nextTurn file stale w () = some w') : zipTurn file stale w = .ok (some w') := by
  unfold nextTurn at h
  cases hturn : zipTurn file stale w with
  | error e =>
    rw [hturn] at h
    cases h
  | ok next =>
    rw [hturn] at h
    exact congrArg Except.ok h

/-- Where a turn begins. -/
abbrev Visited (file : List UInt8) (stale : ℕ → ℕ → UInt8) : Walk → Prop :=
  Reach (nextTurn file stale) ⟨0, [], 0⟩ anyStep

/-- Neither the extra field nor the data behind a local header have a negative length. -/
def Forward (h : LocalHeader) : Prop :=
  h.localFileHeaderSignature = 0x04034b50 → 0 ≤ h.extraFieldLength ∧ 0 ≤ h.compressedSize

theorem length_freadAt (file : List UInt8) (pos n : ℕ) :
    (freadAt file pos n).length = min n (file.length - pos) := by
  rw [freadAt, List.length_take, List.length_drop]

theorem seekCur_forward {pos pos' : ℕ} {off : ℤ} (hoff : 0 ≤ off)
    (h : seekCur pos off = some pos') : pos ≤ pos' := by
  unfold seekCur at h
  split at h
  case isTrue hneg => cases h
  case isFalse _ =>
    cases h
    omega

/-- At the end of the file a turn ends the loop. -/
theorem zipTurn_at_end {file : List UInt8} {stale : ℕ → ℕ → UInt8} {w : Walk}
    (hpos : file.length ≤ w.pos) : zipTurn file stale w = .ok none :=
  zipTurn_directory (List.drop_eq_nil_of_le hpos) (by decide)

theorem afterHeader_forward {file : List UInt8} {w w' : Walk} {h : LocalHeader} {pos : ℕ}
    (hextra : 0 ≤ h.extraFieldLength) (hsize : 0 ≤ h.compressedSize)
    (hnext : afterHeader file w h pos = .ok w') : pos ≤ w'.pos := by
  unfold afterHeader at hnext
  dsimp only at hnext
  -- None of the failures is a turn.
  iterate 7
    split at hnext
    · cases hnext
  split at hnext
  · cases hnext
  case h_2 _ pos' hseek =>
    split at hnext
    · cases hnext
    case h_2 _ pos'' hseek' =>
      cases hnext
      have hpos := seekCur_forward hextra hseek
      have hpos' := seekCur_forward hsize hseek'
      dsimp only
      omega

/-- A turn from a header that does not point back: it passes a whole header or comes to the end of
the file. -/
theorem zipTurn_forward {file : List UInt8} {stale : ℕ → ℕ → UInt8} {w w' : Walk}
    (hforward : Forward (readHeader file w.pos (stale w.turn)))
    (h : zipTurn file stale w = .ok (some w')) :
    w.pos + 30 ≤ w'.pos ∨ file.length ≤ w'.pos := by
  have hread := length_freadAt file w.pos 30
  unfold zipTurn afterRead at h
  generalize readHeader file w.pos (stale w.turn) = header at hforward h
  split at h
  · cases h
  case isFalse hsig =>
    obtain ⟨hextra, hsize⟩ := hforward (not_not.mp hsig)
    cases hafter : afterHeader file w header (w.pos + (freadAt file w.pos 30).length) with
    | error e =>
      rw [hafter] at h
      cases h
    | ok next =>
      rw [hafter] at h
      cases h
      have hpos := afterHeader_forward hextra hsize hafter
      omega

/-- The turns that are left at a position. -/
theorem zipWalk_of_pos {file : List UInt8} {stale : ℕ → ℕ → UInt8}
    (hforward : ∀ w, Visited file stale w → Forward (readHeader file w.pos (stale w.turn)))
    {n : ℕ} {w : Walk}
    (hw : Visited file stale w) (hn : (file.length - w.pos) / 30 + 2 ≤ n) :
    ∃ r, zipWalk file stale n w = some r := by
  induction n generalizing w with
  | zero => omega
  | succ n ih =>
    cases hturn : zipTurn file stale w with
    | error e => exact ⟨.error e, by rw [zipWalk, hturn, afterTurn]⟩
    | ok next =>
      cases next with
      | none => exact ⟨.ok w.xmlFiles, by rw [zipWalk, hturn, afterTurn]⟩
      | some w' =>
        rw [zipWalk, hturn, afterTurn]
        have hw' : Visited file stale w' :=
          .next (a := ()) hw trivial (by rw [nextTurn, hturn, turnAfter])
        have hlt : w.pos < file.length := by
          by_contra hge
          rw [zipTurn_at_end (not_lt.mp hge)] at hturn
          cases hturn
        have hpass := zipTurn_forward (hforward w hw) hturn
        by_cases hin : w'.pos < file.length
        · exact ih hw' (by omega)
        · obtain ⟨m, rfl⟩ : ∃ m, n = m + 1 := ⟨n - 1, by omega⟩
          rw [zipWalk, zipTurn_at_end (not_lt.mp hin), afterTurn]
          exact ⟨_, rfl⟩

/-- A header whose data end where the header begins. -/
def headerBack : List UInt8 :=
  (leBytes 4 Zip.signature) ++ [20, 0] ++ [0, 0] ++ [8, 0] ++ List.replicate 8 0 ++
    [0xe2, 0xff, 0xff, 0xff] ++ List.replicate 8 0

/-- The first loop goes on for ever with it. -/
theorem zipWalk_headerBack (stale : ℕ → ℕ → UInt8) (n : ℕ) :
    zipWalk headerBack stale n ⟨0, [], 0⟩ = none := by
  have hturn : ∀ k, zipTurn headerBack stale ⟨0, [], k⟩ = .ok (some ⟨0, [], k + 1⟩) := by
    intro k
    have hfull : freadAt headerBack 0 30 = headerBack := by decide +kernel
    rw [zipTurn, readHeader_of_freadAt hfull rfl]
    rfl
  have hall : ∀ k, zipWalk headerBack stale n ⟨0, [], k⟩ = none := by
    induction n with
    | zero => exact fun _ => rfl
    | succ n ih =>
      intro k
      rw [zipWalk, hturn, afterTurn, ih]
  exact hall 0

/-- The first loop ends, with the table or with a message, after as many turns as there can be
headers in the file and two more, when no header that it comes to points back. With a header that
does it may go on for ever. -/
theorem zipWalk_ends :
    (∀ (file : List UInt8) (stale : ℕ → ℕ → UInt8),
      (∀ w, Visited file stale w → Forward (readHeader file w.pos (stale w.turn))) →
        ∃ r, zipWalk file stale (file.length / 30 + 2) ⟨0, [], 0⟩ = some r) ∧
      ∀ stale n, zipWalk headerBack stale n ⟨0, [], 0⟩ = none :=
  ⟨fun _ _ hforward => zipWalk_of_pos hforward .start (by rw [Nat.sub_zero]), zipWalk_headerBack⟩

/-- A header with nothing behind it. -/
def headerOnly : List UInt8 :=
  (leBytes 4 Zip.signature) ++ [20, 0] ++ [0, 0] ++ [8, 0] ++ List.replicate 20 0

theorem zipWalk_ends_headerOnly :
    ∃ r, zipWalk headerOnly (fun _ _ => 0) (headerOnly.length / 30 + 2) ⟨0, [], 0⟩ = some r := by
  refine zipWalk_ends.1 headerOnly (fun _ _ => 0) fun w hw => ?_
  have hstart : Forward (readHeader headerOnly 0 fun _ => 0) := fun _ => by decide +kernel
  have hpos : w = ⟨0, [], 0⟩ ∨ headerOnly.length ≤ w.pos := by
    refine hw.invariant (I := fun w => w = ⟨0, [], 0⟩ ∨ headerOnly.length ≤ w.pos) (Or.inl rfl)
      fun w _ w' _ hpos _ hstep => Or.inr ?_
    have hlen : headerOnly.length = 30 := rfl
    rcases hpos with rfl | hend
    · have hpass := zipTurn_forward (by exact hstart) (zipTurn_of_nextTurn hstep)
      omega
    · have hturn := zipTurn_of_nextTurn hstep
      rw [zipTurn_at_end hend] at hturn
      cases hturn
  rcases hpos with rfl | hend
  · exact hstart
  · exact fun hsig => absurd hsig
      (readHeader_directory (List.drop_eq_nil_of_le hend) (by decide))

end Catse.Myxml2
