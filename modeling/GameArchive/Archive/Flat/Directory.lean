import GameArchive.Archive.Extents
import GameArchive.Archive.Flat.Format
import GameArchive.Archive.Relayout
import GameArchive.Record.Table
/-! Directories of flat formats: the header, the records and the entries they list. -/
namespace GameArchive
namespace FlatFormat

/-- The bytes that PSPFS archives start with: `PSPFS_V1`. -/
def pspfsMagic : List UInt8 := [0x50, 0x53, 0x50, 0x46, 0x53, 0x5F, 0x56, 0x31]

/-- The bytes that some START.DAT archives start with: `DSARC FL`. -/
def dsarcMagic : List UInt8 := [0x44, 0x53, 0x41, 0x52, 0x43, 0x20, 0x46, 0x4C]

/-- The bytes that NISPACK archives start with: `NISPACK` and a zero byte. -/
def nispackMagic : List UInt8 := [0x4E, 0x49, 0x53, 0x50, 0x41, 0x43, 0x4B, 0x00]

/-- The number of bytes in the header, which the directory follows. -/
def headerSize : FlatFormat → Nat
  | .startDat .offsetOnly => 4
  | _ => 0x10

/-- The number of records that the header states. -/
def readCount : FlatFormat → Bytes → Except Error Nat
  | .pspfs .makaiKingdom, data => do
    data.expectMagic 0 pspfsMagic
    data.word 8 4
  | .pspfs _, data => do
    data.expectMagic 0 pspfsMagic
    data.word 8 8
  | .startDat .endOffset, data => do
    let header ← data.slice 0 0x10
    if dsarcMagic.isPrefixOf header.toList then data.word 8 8 else data.word 0 4
  | .startDat .dsarc, data => do
    data.expectMagic 0 dsarcMagic
    data.word 8 8
  | .startDat .offsetOnly, data => data.word 0 4
  | .nispack, data => do
    data.expectMagic 0 nispackMagic
    let flag ← data.word 8 4
    if flag = 0 then data.word 0x0C 4 else .error (.unsupported (.bigEndian flag))

/-- The directory of an archive. -/
def readDirectory (f : FlatFormat) (data : Bytes) : Except Error (Table f.layout) := do
  let count ← f.readCount data
  Table.ofCount f.layout data f.headerSize count

/-- The entry that a record lists when its payload lies at `offset`. -/
def entryAt (f : FlatFormat) (r : Record f.layout) (index offset size : Nat) : Entry where
  name := r.string f.nameField
  offset
  size
  decompressedSize := size
  flags := .none
  index

/-- The entry that a record lists by offset and size. -/
def explicitEntry (f : FlatFormat) (offset size : Field) (decompressed : Option Field)
    (r : Record f.layout) (index : Nat) : Entry :=
  let e := f.entryAt r index (r.number offset) (r.number size)
  match decompressed with
  | none => e
  | some field => { e with decompressedSize := r.number field }

/-- The entries of records in the order of their ends, which are counted from `base`. The first
payload starts at `start`. -/
def consecutiveEntries (f : FlatFormat) (field : Field) (base : Nat) : (start : Nat) →
    List (Record f.layout × Nat) → List Entry
  | _, [] => []
  | start, (r, index) :: rest =>
    let stop := base + r.number field
    f.entryAt r index start (stop - start) :: f.consecutiveEntries field base stop rest

/-- The entries of records in order, each ending where the next one starts and the last at
`size`. -/
def adjoiningEntries (f : FlatFormat) (field : Field) (size : Nat) :
    List (Record f.layout × Nat) → Except Error (List Entry)
  | [] => .ok []
  | (r, index) :: rest =>
    let offset := r.number field
    let next := match rest with
      | [] => size
      | (other, _) :: _ => other.number field
    if next < offset then .error (.malformed (.descendingOffsets index offset next))
    else (f.adjoiningEntries field size rest).map (f.entryAt r index offset (next - offset) :: ·)

/-- Records with their numbers, by the end that they state. Equal ends keep their order. -/
def byEnd {l : Layout} (field : Field) (records : List (Record l × Nat)) :
    List (Record l × Nat) :=
  records.mergeSort fun a b => decide (a.1.number field ≤ b.1.number field)

/-- The entries that a directory lists. -/
def readEntries (f : FlatFormat) (t : Table f.layout) : Except Error (List Entry) :=
  let records := t.records.zipIdx
  match f.placing with
  | .explicit offset size decompressed =>
    .ok (records.map fun (r, index) => f.explicitEntry offset size decompressed r index)
  | .ends field => .ok (f.consecutiveEntries field t.endOffset t.endOffset (byEnd field records))
  | .starts field => f.adjoiningEntries field t.data.size records

/-- The record of an entry whose payload is placed anew. The decompressed size is given for the
entry that is replaced. -/
def updateRecord (f : FlatFormat) (directoryEnd : Nat) (p : Placement) (decompressedSize : Option Nat)
    (r : Record f.layout) : Except Error (Record f.layout) :=
  match f.placing with
  | .explicit offset size decompressed => do
    let r ← r.putNumber offset p.offset
    let r ← r.putNumber size p.size
    match decompressed, decompressedSize with
    | some field, some n => r.putNumber field n
    | _, _ => .ok r
  | .ends field => r.putNumber field (p.endOffset - directoryEnd)
  | .starts field => r.putNumber field p.offset

end FlatFormat
end GameArchive
