import GameArchive.Proofs.Vfs3.Chunks
import GameArchive.Proofs.Vfs3.Names
import GameArchive.Proofs.Vfs3.Opening
import Mathlib.Algebra.GroupWithZero.Nat
import Mathlib.Data.List.Nodup
/-!
# What a VFS3 archive is made from, and its bytes

Folder records, file records and a subheader, then the payloads back to back from a multiple of 16
on, and behind them the names and the chunks by id. The records stand in an order of their own.
-/
namespace GameArchive.Vfs3

open Archive (numbersToBytes)

/-- A folder to be stored. -/
structure StoredFolder where
  id : Nat
  /-- The id of the folder that it lies in, if it lies in one. -/
  parent : Option Nat
  name : String
  fileCount : UInt32
  crc : UInt32
  firstSubfolder : UInt32
  subfolderCount : UInt32
  reserved : UInt32

namespace StoredFolder

variable (s : StoredFolder)

def parentId : Int :=
  match s.parent with
  | none => rootParent
  | some id => id

def numbers : List (Nat × Nat) :=
  [(4, s.crc.toNat), (4, ofSigned 4 s.id), (4, ofSigned 4 s.parentId), (4, s.firstSubfolder.toNat),
    (4, s.subfolderCount.toNat), (4, s.reserved.toNat), (4, s.fileCount.toNat)]

def record : Record Folder.layout :=
  ⟨(numbersToBytes s.numbers).toArray, by simp [numbersToBytes, numbers, Folder.layout]⟩

/-- The folder as it is read. -/
def toFolder : Folder where
  crc := s.crc.toNat
  id := s.id
  parent := s.parentId
  firstSubfolder := toSigned 4 s.firstSubfolder.toNat
  subfolderCount := s.subfolderCount.toNat
  fileCount := s.fileCount.toNat

end StoredFolder

/-- A file to be stored. It needs no dictionary. -/
structure StoredFile where
  id : Nat
  /-- The id of the folder that it lies in. -/
  folder : Nat
  name : String
  payload : Bytes
  decompressedSize : UInt64
  flags : UInt16
  chunks : List Int
  crc : UInt32

namespace StoredFile

variable (s : StoredFile) (dataOffset : Nat)

def numbers : List (Nat × Nat) :=
  [(8, dataOffset), (8, s.payload.size), (8, s.decompressedSize.toNat), (4, s.crc.toNat),
    (4, ofSigned 4 s.id), (4, ofSigned 4 s.folder), (2, s.flags.toNat),
    (2, ofSigned 2 noDictionary)]

def record : Record File.layout :=
  ⟨(numbersToBytes (s.numbers dataOffset)).toArray, by simp [numbersToBytes, numbers, File.layout]⟩

/-- The file as it is read. -/
def toFile : File where
  dataOffset
  compressedSize := s.payload.size
  decompressedSize := s.decompressedSize.toNat
  crc := s.crc.toNat
  id := s.id
  folder := s.folder
  flags := ⟨s.flags.toNat⟩
  dictionary := noDictionary

end StoredFile

theorem holdsAt_numbersToBytes_cons {data : Bytes} {offset width n : Nat}
    {numbers : List (Nat × Nat)} :
    data.HoldsAt offset (numbersToBytes ((width, n) :: numbers)) ↔
      data.HoldsAt offset (toLittleEndian width n) ∧
        data.HoldsAt (offset + width) (numbersToBytes numbers) := by
  have hcons : numbersToBytes ((width, n) :: numbers) =
      toLittleEndian width n ++ numbersToBytes numbers := List.flatMap_cons
  rw [hcons, Bytes.holdsAt_append, length_toLittleEndian]

theorem integer_of_holdsAt {l : Layout} {r : Record l} {f : Field} {v : Int}
    (h : r.raw.HoldsAt f.offset (toLittleEndian f.kind.width (ofSigned f.kind.width v)))
    (hv : IsSigned f.kind.width v) : r.integer f = v := by
  rw [Record.integer, Record.number_of_holdsAt h (ofSigned_lt v), toSigned_ofSigned hv]

theorem StoredFolder.ofRecord_record (s : StoredFolder) (hid : IsSigned 4 s.id)
    (hparent : IsSigned 4 s.parentId) : Folder.ofRecord s.record = s.toFolder := by
  have h := Bytes.holdsAt_toArray (numbersToBytes s.numbers)
  simp only [StoredFolder.numbers, holdsAt_numbersToBytes_cons, Nat.reduceAdd] at h
  obtain ⟨hcrc, hidBytes, hparentBytes, hfirst, hcount, -, hfiles, -⟩ := h
  simp only [Folder.ofRecord, StoredFolder.toFolder, Folder.mk.injEq]
  exact ⟨Record.number_of_holdsAt hcrc s.crc.toNat_lt, integer_of_holdsAt hidBytes hid,
    integer_of_holdsAt hparentBytes hparent,
    congrArg (toSigned 4) (Record.number_of_holdsAt hfirst s.firstSubfolder.toNat_lt),
    Record.number_of_holdsAt hcount s.subfolderCount.toNat_lt,
    Record.number_of_holdsAt hfiles s.fileCount.toNat_lt⟩

theorem StoredFile.ofRecord_record (s : StoredFile) {dataOffset : Nat}
    (hoffset : dataOffset < numberBound 8) (hsize : s.payload.size < numberBound 8)
    (hid : IsSigned 4 s.id) (hfolder : IsSigned 4 s.folder) :
    File.ofRecord (s.record dataOffset) = s.toFile dataOffset := by
  have h := Bytes.holdsAt_toArray (numbersToBytes (s.numbers dataOffset))
  simp only [StoredFile.numbers, holdsAt_numbersToBytes_cons, Nat.reduceAdd] at h
  obtain ⟨hstart, hlength, hdecompressed, hcrc, hidBytes, hfolderBytes, hflags, hdictionary, -⟩ := h
  simp only [File.ofRecord, StoredFile.toFile, File.mk.injEq]
  exact ⟨Record.number_of_holdsAt hstart hoffset, Record.number_of_holdsAt hlength hsize,
    Record.number_of_holdsAt hdecompressed s.decompressedSize.toNat_lt,
    Record.number_of_holdsAt hcrc s.crc.toNat_lt, integer_of_holdsAt hidBytes hid,
    integer_of_holdsAt hfolderBytes hfolder,
    congrArg CompressionFlags.mk (Record.number_of_holdsAt hflags s.flags.toNat_lt),
    integer_of_holdsAt hdictionary (by decide)⟩

section ById

variable {α : Type} {id : α → Nat} {l : List α} {x : α}

/-- The elements of a list by their ids, from zero on. -/
def byId (id : α → Nat) (l : List α) : List α :=
  (List.range l.length).filterMap fun i => l.find? fun x => id x == i

theorem mem_of_mem_byId (h : x ∈ byId id l) : x ∈ l := by
  obtain ⟨i, -, hi⟩ := List.mem_filterMap.mp h
  exact List.mem_of_find?_eq_some hi

theorem map_byId (h : (l.map id).Perm (List.range l.length)) :
    (byId id l).map id = List.range l.length := by
  have hfound : ∀ i ∈ List.range l.length,
      (l.find? fun x => id x == i).map id = some i := by
    intro i hi
    obtain ⟨x, hx, rfl⟩ := List.mem_map.mp (h.mem_iff.mpr hi)
    have hsome : (l.find? fun y => id y == id x).isSome :=
      List.find?_isSome.mpr ⟨x, hx, beq_self_eq_true _⟩
    obtain ⟨y, hy⟩ := Option.isSome_iff_exists.mp hsome
    have hid := List.find?_some hy
    rw [hy, Option.map_some, beq_iff_eq.mp hid]
  rw [byId, List.map_filterMap]
  generalize List.range l.length = ids at hfound
  induction ids with
  | nil => rfl
  | cons i ids ih =>
    obtain ⟨hi, hrest⟩ := List.forall_mem_cons.mp hfound
    simp only [List.filterMap_cons, hi, ih hrest]

theorem length_byId (h : (l.map id).Perm (List.range l.length)) :
    (byId id l).length = l.length := by
  rw [← List.length_map id, map_byId h, List.length_range]

/-- An element stands at its id. -/
theorem getElem?_byId (h : (l.map id).Perm (List.range l.length)) (hx : x ∈ l) :
    (byId id l)[id x]? = some x := by
  have hlt : id x < l.length := List.mem_range.mp (h.subset (List.mem_map_of_mem hx))
  have hnodup : (l.map id).Nodup := h.nodup_iff.mpr List.nodup_range
  obtain ⟨y, hy⟩ : ∃ y, (byId id l)[id x]? = some y :=
    ⟨_, List.getElem?_eq_getElem (by rwa [length_byId h])⟩
  have hid : ((byId id l).map id)[id x]? = some (id y) := by rw [List.getElem?_map, hy]; rfl
  rw [map_byId h, List.getElem?_range hlt, Option.some.injEq] at hid
  rw [hy, List.inj_on_of_nodup_map hnodup hx (mem_of_mem_byId (List.mem_of_getElem? hy)) hid]

end ById

/-- What an archive is made from. -/
structure Contents where
  version : UInt32
  dictionaryOffset : UInt64
  folders : List StoredFolder
  files : List StoredFile
  /-- The bytes between the subheader and the payloads. -/
  padding : List UInt8

namespace Contents

variable (c : Contents)

def payloads : List (List UInt8) :=
  c.files.map fun file => file.payload.toList

def folderRecords : List (Record Folder.layout) :=
  c.folders.map StoredFolder.record

def fileRecords : List (Record File.layout) :=
  c.files.mapIdx fun i file => file.record (Bytes.startOf c.payloads i)

def names : NameTable where
  files := (byId StoredFile.id c.files).map StoredFile.name
  folders := (byId StoredFolder.id c.folders).map StoredFolder.name

def chunks : ChunkTable where
  lists := (byId StoredFile.id c.files).map StoredFile.chunks

/-! Where the tables stand behind each other. -/

def fileTableOffset : Nat :=
  folderTableOffset + 4 + c.folders.length * Folder.layout.size

def subheaderOffset : Nat :=
  c.fileTableOffset + 4 + c.files.length * File.layout.size

def dataOrigin : Nat :=
  c.subheaderOffset + subheaderSize + c.padding.length

def nameOffset : Nat :=
  c.dataOrigin + c.payloads.flatten.length

def chunkOffset : Nat :=
  c.nameOffset + c.names.toBytes.length

def folderTable : List UInt8 :=
  toLittleEndian 4 c.folderRecords.length ++ c.folderRecords.flatMap fun r => r.raw.toList

def fileTable : List UInt8 :=
  toLittleEndian 4 c.fileRecords.length ++ c.fileRecords.flatMap fun r => r.raw.toList

def subheader : List UInt8 :=
  numbersToBytes [(8, c.chunkOffset), (8, c.dictionaryOffset.toNat), (8, c.nameOffset)]

def toBytes : Bytes :=
  (magic ++ (toLittleEndian 4 c.version.toNat ++ (c.folderTable ++ (c.fileTable ++ (c.subheader ++
    (c.padding ++ (c.payloads.flatten ++ (c.names.toBytes ++ c.chunks.toBytes)))))))).toArray

/-- The directory as it is read. -/
def directory : Directory where
  version := c.version.toNat
  folders := c.folders.map StoredFolder.toFolder
  files := c.files.mapIdx fun i file => file.toFile (Bytes.startOf c.payloads i)
  chunkOffset := c.chunkOffset
  nameOffset := c.nameOffset
  dataOrigin := c.dataOrigin

/-- The path of a folder: its name where it lies in none, and otherwise its name below the path of
its parent. -/
inductive FolderPath : StoredFolder → String → Prop
  | root {folder : StoredFolder} (hroot : folder.parent = none) : FolderPath folder folder.name
  | nested {folder parent : StoredFolder} {base : String} (hparent : folder.parent = some parent.id)
      (hmem : parent ∈ c.folders) (hbase : FolderPath parent base) :
      FolderPath folder (joinPath base folder.name)

/-- The path of a file: its name below the path of its folder. -/
def FilePath (file : StoredFile) (path : String) : Prop :=
  ∃ folder ∈ c.folders, folder.id = file.folder ∧
    ∃ base, c.FolderPath folder base ∧ path = joinPath base file.name

section Unique

variable {c} (hids : (c.folders.map StoredFolder.id).Nodup)

include hids

theorem FolderPath.unique {folder : StoredFolder} {path path' : String}
    (h : c.FolderPath folder path) (h' : c.FolderPath folder path') : path = path' := by
  induction h generalizing path' with
  | root hroot =>
    cases h' with
    | root => rfl
    | nested hparent => exact nomatch hroot.symm.trans hparent
  | nested hparent hmem _ ih =>
    cases h' with
    | root hroot => exact nomatch hroot.symm.trans hparent
    | nested hparent' hmem' hbase' =>
      have hid := Option.some.inj (hparent.symm.trans hparent')
      obtain rfl := List.inj_on_of_nodup_map hids hmem hmem' hid
      rw [ih hbase']

theorem FilePath.unique {file : StoredFile} {path path' : String} (h : c.FilePath file path)
    (h' : c.FilePath file path') : path = path' := by
  obtain ⟨folder, hmem, hid, base, hbase, rfl⟩ := h
  obtain ⟨folder', hmem', hid', base', hbase', rfl⟩ := h'
  obtain rfl := List.inj_on_of_nodup_map hids hmem hmem' (hid.trans hid'.symm)
  rw [hbase.unique hids hbase']

/-- Files are apart from each other where their paths are. -/
theorem pairwise_of_nodup_paths {paths : List String} (h : List.Forall₂ c.FilePath c.files paths)
    (hnodup : paths.Nodup) :
    c.files.Pairwise fun a b => ∀ path, c.FilePath a path → ¬ c.FilePath b path := by
  obtain ⟨hlength, hpaths⟩ := List.forall₂_iff_get.mp h
  rw [List.pairwise_iff_getElem]
  intro i j hi hj hij path ha hb
  have hi' : i < paths.length := hlength ▸ hi
  have hj' : j < paths.length := hlength ▸ hj
  refine List.pairwise_iff_getElem.mp hnodup i j hi' hj' hij ?_
  exact ((hpaths i hi hi').unique hids ha).trans (hb.unique hids (hpaths j hj hj'))

end Unique

theorem length_folderRecords : c.folderRecords.length = c.folders.length :=
  List.length_map _

theorem length_fileRecords : c.fileRecords.length = c.files.length :=
  List.length_mapIdx

theorem length_folderTable :
    c.folderTable.length = 4 + c.folders.length * Folder.layout.size := by
  rw [folderTable, List.length_append, length_toLittleEndian, Record.length_flatMap_raw,
    length_folderRecords]

theorem length_fileTable : c.fileTable.length = 4 + c.files.length * File.layout.size := by
  rw [fileTable, List.length_append, length_toLittleEndian, Record.length_flatMap_raw,
    length_fileRecords]

theorem length_subheader : c.subheader.length = subheaderSize := by
  simp [subheader, numbersToBytes, subheaderSize]

/-- The parts of an archive stand where they are looked for. -/
structure Parts (c : Contents) : Prop where
  magic : c.toBytes.HoldsAt 0 magic
  version : c.toBytes.HoldsAt 4 (toLittleEndian 4 c.version.toNat)
  folderTable : c.toBytes.HoldsAt folderTableOffset c.folderTable
  fileTable : c.toBytes.HoldsAt c.fileTableOffset c.fileTable
  subheader : c.toBytes.HoldsAt c.subheaderOffset c.subheader
  payloads : c.toBytes.HoldsAt c.dataOrigin c.payloads.flatten
  names : c.toBytes.HoldsAt c.nameOffset c.names.toBytes
  chunks : c.toBytes.HoldsAt c.chunkOffset c.chunks.toBytes

theorem parts : c.Parts := by
  have h := Bytes.holdsAt_toArray (magic ++ (toLittleEndian 4 c.version.toNat ++ (c.folderTable ++
    (c.fileTable ++ (c.subheader ++ (c.padding ++ (c.payloads.flatten ++
      (c.names.toBytes ++ c.chunks.toBytes))))))))
  obtain ⟨hmagic, h⟩ := Bytes.holdsAt_append.mp h
  obtain ⟨hversion, h⟩ := Bytes.holdsAt_append.mp h
  obtain ⟨hfolders, h⟩ := Bytes.holdsAt_append.mp h
  obtain ⟨hfiles, h⟩ := Bytes.holdsAt_append.mp h
  obtain ⟨hsubheader, h⟩ := Bytes.holdsAt_append.mp h
  obtain ⟨-, h⟩ := Bytes.holdsAt_append.mp h
  obtain ⟨hpayloads, h⟩ := Bytes.holdsAt_append.mp h
  obtain ⟨hnames, hchunks⟩ := Bytes.holdsAt_append.mp h
  have hstart : 0 + Vfs3.magic.length + (toLittleEndian 4 c.version.toNat).length =
      folderTableOffset := by
    rw [length_toLittleEndian]
    rfl
  have hfolderEnd : folderTableOffset + c.folderTable.length = c.fileTableOffset := by
    rw [length_folderTable, fileTableOffset, Nat.add_assoc]
  have hfileEnd : c.fileTableOffset + c.fileTable.length = c.subheaderOffset := by
    rw [length_fileTable, subheaderOffset, Nat.add_assoc]
  rw [hstart] at hfolders hfiles hsubheader hpayloads hnames hchunks
  rw [hfolderEnd] at hfiles hsubheader hpayloads hnames hchunks
  rw [hfileEnd] at hsubheader hpayloads hnames hchunks
  rw [length_subheader] at hpayloads hnames hchunks
  exact ⟨hmagic, hversion, hfolders, hfiles, hsubheader, hpayloads, hnames, hchunks⟩

end Contents

/-- Whether a file is stored as it is. Its size after decompression then is its own. -/
structure StoredFile.IsPlain (s : StoredFile) : Prop where
  not_compressed : CompressionFlags.isCompressed ⟨s.flags.toNat⟩ = false
  chunks_eq : s.chunks = []
  decompressedSize_eq : s.decompressedSize.toNat = s.payload.size

/-- Whether a file is stored as zstd blocks whose lengths are its chunks. -/
structure StoredFile.IsPacked (s : StoredFile) : Prop where
  zstd : CompressionFlags.isZstd ⟨s.flags.toNat⟩ = true
  chunks_ne_nil : s.chunks ≠ []
  sum_chunks : (s.chunks.map Int.natAbs).sum = s.payload.size

/-- Whether contents are those of an archive. -/
structure Contents.WellFormed (c : Contents) : Prop where
  folderIds : (c.folders.map StoredFolder.id).Perm (List.range c.folders.length)
  fileIds : (c.files.map StoredFile.id).Perm (List.range c.files.length)
  /-- Every chain of parents ends at a folder that lies in none. -/
  rooted : ∀ folder ∈ c.folders, ∃ path, c.FolderPath folder path
  inFolder : ∀ file ∈ c.files, ∃ folder ∈ c.folders, folder.id = file.folder
  pathsApart : c.files.Pairwise fun a b => ∀ path, c.FilePath a path → ¬ c.FilePath b path
  folderNames : ∀ folder ∈ c.folders, IsNulFree folder.name
  fileNames : ∀ file ∈ c.files, IsNulFree file.name
  fileCounts : (c.folders.map fun folder => folder.fileCount.toNat).sum = c.files.length
  stored : ∀ file ∈ c.files, file.IsPlain ∨ file.IsPacked
  aligned : dataAlignment ∣ c.dataOrigin
  padding_lt : c.padding.length < dataAlignment

end GameArchive.Vfs3
