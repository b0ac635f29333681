import GameArchive.Archive.Extents
import GameArchive.Archive.Vfs3.Files
import GameArchive.Archive.Vfs3.Folders
import GameArchive.Zstd.Decode
import Std.Data.HashMap
/-! VFS3 archives: folder records, file records and a subheader that points to the name table and
the chunk table. Payloads are stored behind the subheader; a compressed one is a zstd frame whose
headers are left out. -/
namespace GameArchive.Vfs3

/-- The bytes that an archive starts with: `VFS3`. -/
def magic : List UInt8 := [0x56, 0x46, 0x53, 0x33]

/-- Where the folder records start. -/
def folderTableOffset : Nat := 0x08

/-- The number of bytes in the subheader. -/
def subheaderSize : Nat := 0x18

/-- Payloads start at a multiple of this. -/
def dataAlignment : Nat := 0x10

/-- The first multiple of `alignment` from `position` on. -/
def alignUp (position alignment : Nat) : Nat :=
  (position + alignment - 1) / alignment * alignment

/-- The records of an archive and where the other tables stand. -/
structure Directory where
  version : Nat
  folders : List Folder
  files : List File
  chunkOffset : Nat
  nameOffset : Nat
  /-- Where the data start, from which the offsets of files are counted. -/
  dataOrigin : Nat

/-- How many files the folders state together. -/
def statedFiles (folders : List Folder) : Nat :=
  folders.foldr (fun folder total => folder.fileCount + total) 0

/-- The directory at the start of `data`. The folders have to state as many files as are listed. -/
def readDirectory (data : Bytes) : Except Error Directory := do
  data.expectMagic 0 magic
  let version ← data.word 4 4
  let folderTable ← Table.parse Folder.layout data folderTableOffset .single
  let fileTable ← Table.parse File.layout data folderTable.endOffset .single
  let folders := folderTable.records.map Folder.ofRecord
  let stated := statedFiles folders
  if stated ≠ fileTable.count then
    .error (.sizeMismatch "vfs3 folder file counts" stated fileTable.count)
  else
    let subheader := fileTable.endOffset
    let chunkOffset ← data.word subheader 8
    let _dictionaryOffset ← data.word (subheader + 0x08) 8
    let nameOffset ← data.word (subheader + 0x10) 8
    .ok {
      version, folders, chunkOffset, nameOffset
      files := fileTable.records.map File.ofRecord
      dataOrigin := alignUp (subheader + subheaderSize) dataAlignment }

/-- The names of an archive. There has to be one for each file and each folder. -/
def readNames (data : Bytes) (d : Directory) : Except Error NameTable := do
  let names ← NameTable.parse data d.nameOffset
  if names.files.length ≠ d.files.length then
    .error (.malformed (.fileNameCount names.files.length d.files.length))
  else if names.folders.length ≠ d.folders.length then
    .error (.malformed (.folderNameCount names.folders.length d.folders.length))
  else .ok names

/-- How many chunk lists there have to be for the greatest file id. -/
def neededLists (files : List File) : Nat :=
  match (files.map File.id).max? with
  | some id => (id + 1).toNat
  | none => 0

/-- The chunks of an archive. There has to be a list for each file id. -/
def readChunks (data : Bytes) (d : Directory) : Except Error ChunkTable := do
  let chunks ← ChunkTable.parse data d.chunkOffset
  if chunks.lists.length < neededLists d.files then
    .error (.sizeMismatch "vfs3 chunk lists" (neededLists d.files) chunks.lists.length)
  else .ok chunks

/-- The tables of an archive. -/
structure Tables where
  directory : Directory
  names : NameTable
  chunks : ChunkTable
  /-- The path of each folder. -/
  paths : List String

namespace Tables

/-- The tables of the archive that `data` holds. -/
def read (data : Bytes) : Except Error Tables := do
  let directory ← readDirectory data
  let names ← readNames data directory
  let chunks ← readChunks data directory
  let paths ← folderPaths directory.folders names
  .ok ⟨directory, names, chunks, paths⟩

/-- The path of a file that agrees with its chunks and lies in a known folder. -/
def filePath (t : Tables) (file : File) : Except Error String := do
  let name ← t.names.fileName file.id
  let chunks ← t.chunks.ofFile file.id
  file.check name chunks
  match (lastWithId? t.directory.folders file.folder).bind fun (_, i) => t.paths[i]? with
  | none => .error (.malformed (.unknownFolder name file.folder))
  | some path => .ok (joinPath path name)

/-- The entries of some files, the first of them number `index`, and the number of each path.
Paths that are known already are given. -/
def entriesFrom (t : Tables) : (index : Nat) → List File → Std.HashMap String Nat →
    Except Error (List Entry × Std.HashMap String Nat)
  | _, [], known => .ok ([], known)
  | index, file :: rest, known => do
    let path ← t.filePath file
    if known.contains path then .error (.malformed (.duplicatePath path))
    else
      let offset := t.directory.dataOrigin + file.dataOffset
      if wordLimit ≤ offset then .error (.malformed (.offsetOverflow path))
      else
        let (entries, known) ← t.entriesFrom (index + 1) rest (known.insert path index)
        let entry : Entry := {
          name := path
          offset
          size := file.compressedSize
          decompressedSize := file.decompressedSize
          flags := file.flags
          index }
        .ok (entry :: entries, known)

end Tables

/-- A VFS3 archive. -/
structure Archive where
  data : Bytes
  tables : Tables
  /-- The entries, in the order of the file records. -/
  entries : List Entry
  /-- The number of the entry with each path. -/
  numbers : Std.HashMap String Nat

namespace Archive

/-- The archive that `data` holds. -/
def ofBytes (data : Bytes) : Except Error Archive := do
  let tables ← Tables.read data
  let (entries, numbers) ← tables.entriesFrom 0 tables.directory.files ∅
  checkExtents data.size true entries
  .ok ⟨data, tables, entries, numbers⟩

/-- The entry with the path `name`. -/
def find (a : Archive) (name : String) : Except Error Entry :=
  match a.numbers[name]?.bind fun i => a.entries[i]? with
  | some e => .ok e
  | none => .error (.notFound name)

/-- The record of an entry. -/
def file (a : Archive) (e : Entry) : Except Error File :=
  match a.tables.directory.files[e.index]? with
  | some file => .ok file
  | none => .error (.notFound e.name)

/-- The path of the first folder with an id. -/
def folderPath (a : Archive) (id : Int) : Except Error String :=
  let i := a.tables.directory.folders.findIdx fun folder => folder.id == id
  match a.tables.paths[i]? with
  | some path => .ok path
  | none => .error (.notFound s!"folder id {id}")

/-- The payload of an entry with its compression undone. -/
def decompress (a : Archive) (e : Entry) : Except Error Bytes := do
  let payload ← e.read a.data
  if e.flags.isCompressed then
    let file ← a.file e
    let chunks ← a.tables.chunks.ofFile file.id
    Zstd.decompressChunked e.decompressedSize payload chunks
  else .ok payload

/-- The path of the START.DAT archive. -/
def startDatPath : String := "PSP_GAME/USRDIR/start_en.dat"

/-- The bytes of the START.DAT archive. -/
def decompressStartDat (a : Archive) : Except Error Bytes := do
  let e ← a.find startDatPath
  a.decompress e

end Archive
end GameArchive.Vfs3
