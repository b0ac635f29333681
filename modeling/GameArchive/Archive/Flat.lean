import GameArchive.Archive.Flat.Directory
import GameArchive.Codec.Lzs
import GameArchive.Codec.Ykcmp
/-! Archives of the flat formats: opening them, reading their entries and replacing a payload. -/
namespace GameArchive

/-- An archive of a flat format. -/
structure FlatArchive (f : FlatFormat) where
  directory : Table f.layout
  /-- The entries in the order in which the format lists them. -/
  entries : List Entry

namespace FlatArchive

variable {f : FlatFormat}

/-- The bytes of the archive. -/
def data (a : FlatArchive f) : Bytes :=
  a.directory.data

/-- The archive that `data` holds. -/
def ofBytes (f : FlatFormat) (data : Bytes) : Except Error (FlatArchive f) := do
  let directory ← f.readDirectory data
  let entries ← f.readEntries directory
  checkExtents data.size f.isDisjoint entries
  .ok ⟨directory, entries⟩

/-- The first entry called `name`. -/
def find (a : FlatArchive f) (name : String) : Except Error Entry :=
  Entry.find a.entries name

/-- Whether `name` ends in `.lzs`, in letters of either case. -/
def hasLzsExtension (name : String) : Bool :=
  ".lzs".toList.isSuffixOf (name.toList.map Char.toLower)

/-- The payload of an entry with its compression undone. PSPFS payloads show by their first bytes
whether they are compressed, NISPACK payloads by their names. -/
def decompress (a : FlatArchive f) (e : Entry) : Except Error Bytes := do
  let payload ← e.read a.data
  match f with
  | .pspfs _ => if Codec.Ykcmp.isYkcmp payload then Codec.Ykcmp.decompress payload else .ok payload
  | .startDat _ => .ok payload
  | .nispack => if hasLzsExtension e.name then Codec.Lzs.decompress payload else .ok payload

/-- Write the records of entries that are placed anew into `out`. -/
def updateRecords (a : FlatArchive f) (target decompressedSize : Nat) : (i : Nat) →
    List (Entry × Placement) → (out : Bytes) → Except Error Bytes
  | _, [], out => .ok out
  | i, (e, p) :: rest, out => do
    let old ← a.directory.get e.index
    let stated := if i = target then some decompressedSize else none
    let new ← f.updateRecord a.directory.endOffset p stated old
    a.updateRecords target decompressedSize (i + 1) rest
      (out.overwrite (a.directory.recordOffset e.index) new.raw)

/-- The archive in which `bytes` is the payload of the first entry called `name`, and
`decompressedSize` its size after decompression where the format states one. -/
def replace (a : FlatArchive f) (name : String) (bytes : Bytes) (decompressedSize : Nat) :
    Except Error (FlatArchive f) := do
  let r ← Relayout.ofReplacement a.entries name bytes.size
  let out ← a.updateRecords r.target decompressedSize 0 (a.entries.zip r.placements)
    (r.assemble a.data a.directory.endOffset a.entries bytes)
  ofBytes f out

/-- The payload of the entry called `name` as a table of records. -/
def table (a : FlatArchive f) (name : String) (l : Layout) : Except Error (Table l) := do
  let e ← a.find name
  let payload ← e.read a.data
  Table.parse l payload 0 .double

/-- The START.DAT archive that stands in an archive without compression. -/
def openStartDat (a : FlatArchive f) : Except Error (FlatArchive (.startDat .endOffset)) := do
  let e ← a.find StartDatVariant.endOffset.standardName
  let payload ← e.read a.data
  ofBytes (.startDat .endOffset) payload

/-- The bytes of the START.DAT archive that stands in an archive with compression. -/
def decompressStartDat (a : FlatArchive f) : Except Error Bytes := do
  let e ← a.find StartDatVariant.offsetOnly.standardName
  a.decompress e

end FlatArchive
end GameArchive
