import Catse.Lib.Bytes
import Catse.Lib.Deflate

/-!
# ZIP archives

An archive as one finds it from its front: for each file a local header, the name, an extra field
and the data, and behind the last of them the directory. The data of a file are its content as it
is, or a DEFLATE stream that holds the content.
-/

namespace Catse.Zip

/-- Numbers one behind the other, each with its number of bytes. -/
def record (fs : List (ℕ × ℕ)) : List UInt8 := fs.flatMap fun f => leBytes f.1 f.2

theorem length_record (fs : List (ℕ × ℕ)) : (record fs).length = (fs.map (·.1)).sum := by
  rw [record, List.length_flatMap]
  congr 1
  exact List.map_congr_left fun f _ => length_leBytes f.1 f.2

/-- A number is read where those before it end. -/
theorem ofLE_record (fs gs : List (ℕ × ℕ)) (k n : ℕ) :
    ofLE (((record (fs ++ (k, n) :: gs)).drop (fs.map (·.1)).sum).take k) = n % 2^(8 * k) := by
  have hsplit : record (fs ++ (k, n) :: gs) = record fs ++ (leBytes k n ++ record gs) := by
    rw [record, List.flatMap_append, List.flatMap_cons]
    rfl
  rw [hsplit, List.drop_left' (length_record fs), List.take_left' (length_leBytes k n),
    ofLE_leBytes]

/-- The number at an index. -/
theorem ofLE_record_getElem {fs : List (ℕ × ℕ)} {i k n : ℕ} (h : fs[i]? = some (k, n)) :
    ofLE (((record fs).drop ((fs.take i).map (·.1)).sum).take k) = n % 2^(8 * k) := by
  obtain ⟨hlt, hget⟩ := List.getElem?_eq_some_iff.mp h
  have hread := ofLE_record (fs.take i) (fs.drop (i + 1)) k n
  rwa [← hget, ← List.drop_eq_getElem_cons hlt, List.take_append_drop] at hread

/-- A file in an archive. -/
structure Entry where
  version : ℕ
  flag : ℕ
  deflated : Bool
  time : ℕ
  date : ℕ
  crc : ℕ
  name : List UInt8
  extra : List UInt8
  data : List UInt8
  content : List UInt8
  holds : if deflated = true then Deflate.Stream data content else data = content

/-- The signature of a local header. -/
def signature : ℕ := 0x04034b50

namespace Entry

/-- The fields of a local header, each with its number of bytes. -/
def fields (e : Entry) : List (ℕ × ℕ) :=
  [(4, signature), (2, e.version), (2, e.flag), (2, if e.deflated then 8 else 0), (2, e.time),
    (2, e.date), (4, e.crc), (4, e.data.length), (4, e.content.length), (2, e.name.length),
    (2, e.extra.length)]

/-- The local header. -/
def header (e : Entry) : List UInt8 := record e.fields

/-- What stands in the archive. -/
def image (e : Entry) : List UInt8 := e.header ++ e.name ++ e.extra ++ e.data

theorem length_header (e : Entry) : e.header.length = 30 := by
  rw [header, length_record]
  rfl

theorem image_append (e : Entry) (rest : List UInt8) :
    e.image ++ rest = e.header ++ (e.name ++ (e.extra ++ (e.data ++ rest))) := by
  simp only [image, List.append_assoc]

theorem length_image (e : Entry) :
    e.image.length = 30 + e.name.length + e.extra.length + e.data.length := by
  simp only [image, List.length_append, length_header]

end Entry

/-- An archive. -/
structure Archive where
  entries : List Entry
  directory : List UInt8
  ends : directory.take 4 ≠ leBytes 4 signature

/-- The bytes of an archive. -/
def Archive.bytes (a : Archive) : List UInt8 := a.entries.flatMap Entry.image ++ a.directory

end Catse.Zip
