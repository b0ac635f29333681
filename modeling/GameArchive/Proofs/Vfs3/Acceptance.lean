import GameArchive.Proofs.Vfs3.Contents
import GameArchive.Proofs.Vfs3.Lineage
import GameArchive.Proofs.Vfs3.Payloads
import Mathlib.Algebra.Order.BigOperators.Group.List
import Mathlib.Algebra.Order.Group.Nat
/-!
# Archives that are made from well-formed contents

Every check that opening makes holds of them. The tables stand where the subheader points, ids find
names and chunks in tables that are sorted by them while the records are not, and each file is
listed under its path with its own payload.
-/
namespace GameArchive.Vfs3

theorem exists_forall₂ {α β : Type} {R : α → β → Prop} {l : List α} (h : ∀ x ∈ l, ∃ y, R x y) :
    ∃ l', List.Forall₂ R l l' := by
  induction l with
  | nil => exact ⟨[], .nil⟩
  | cons x rest ih =>
    obtain ⟨hx, hrest⟩ := List.forall_mem_cons.mp h
    obtain ⟨y, hy⟩ := hx
    obtain ⟨others, hothers⟩ := ih hrest
    exact ⟨y :: others, .cons hy hothers⟩

theorem lookup?_natCast {α : Type} (list : List α) (id : Nat) : lookup? list id = list[id]? := by
  rw [lookup?, if_neg (by omega), Int.toNat_natCast]

/-- A table in the order of ids is looked up by them. -/
theorem lookup?_map_byId {α β : Type} {id : α → Nat} {l : List α} {x : α}
    (h : (l.map id).Perm (List.range l.length)) (hx : x ∈ l) (g : α → β) :
    lookup? ((byId id l).map g) (id x) = some (g x) := by
  rw [lookup?_natCast, List.getElem?_map, getElem?_byId h hx, Option.map_some]

theorem isSigned_natCast {n : Nat} (h : n < 2 ^ 31) : IsSigned 4 n := by
  have hbound : numberBound 4 = 2 ^ 32 := rfl
  rw [IsSigned, hbound]
  omega

/-- The first multiple from a position on is where padding that is shorter than one step ends. -/
theorem alignUp_eq {position padding alignment : Nat} (hpadding : padding < alignment)
    (h : alignment ∣ position + padding) : alignUp position alignment = position + padding := by
  obtain ⟨k, hk⟩ := h
  have hsplit : position + alignment - 1 = alignment - 1 - padding + alignment * k := by omega
  rw [alignUp, hsplit, Nat.add_mul_div_left _ _ (Nat.zero_lt_of_lt hpadding),
    Nat.div_eq_of_lt (by omega), Nat.zero_add, hk, Nat.mul_comm]

namespace Contents

variable {c : Contents}

section Small

variable (hsize : c.toBytes.size < 2 ^ 31)

include hsize

theorem length_folders_lt : c.folders.length < 2 ^ 31 := by
  have hfits := c.parts.folderTable.fits
  have hrecord : Folder.layout.size = 0x1C := rfl
  rw [length_folderTable, hrecord] at hfits
  omega

theorem length_files_lt : c.files.length < 2 ^ 31 := by
  have hfits := c.parts.fileTable.fits
  have hrecord : File.layout.size = 0x28 := rfl
  rw [length_fileTable, hrecord] at hfits
  omega

theorem chunkOffset_lt : c.chunkOffset < 2 ^ 31 := by
  have hfits := c.parts.chunks.fits
  omega

theorem nameOffset_lt : c.nameOffset < 2 ^ 31 :=
  Nat.lt_of_le_of_lt (Nat.le_add_right _ _) (chunkOffset_lt hsize)

theorem length_payloads_lt : c.payloads.flatten.length < 2 ^ 31 :=
  Nat.lt_of_le_of_lt (Nat.le_add_left _ _) (nameOffset_lt hsize)

theorem size_payload_lt {file : StoredFile} (hfile : file ∈ c.files) :
    file.payload.size < 2 ^ 31 := by
  have hpayload : file.payload.toList ∈ c.payloads := List.mem_map_of_mem hfile
  have hle := (List.sublist_flatten_of_mem hpayload).length_le
  rw [Array.length_toList] at hle
  exact Nat.lt_of_le_of_lt hle (length_payloads_lt hsize)

theorem length_chunks_lt : (c.chunks.lists.flatMap chunksToBytes).length < 2 ^ 31 := by
  have hfits := c.parts.chunks.fits
  rw [ChunkTable.toBytes, List.length_append] at hfits
  omega

end Small

section WellFormed

variable (h : c.WellFormed)

include h

theorem fileName_eq {file : StoredFile} (hfile : file ∈ c.files) :
    c.names.fileName file.id = .ok file.name := by
  have hname : lookup? c.names.files file.id = some file.name := lookup?_map_byId h.fileIds hfile _
  rw [NameTable.fileName, hname]

theorem folderName_eq {folder : StoredFolder} (hfolder : folder ∈ c.folders) :
    c.names.folderName folder.id = .ok folder.name := by
  have hname : lookup? c.names.folders folder.id = some folder.name :=
    lookup?_map_byId h.folderIds hfolder _
  rw [NameTable.folderName, hname]

theorem ofFile_eq {file : StoredFile} (hfile : file ∈ c.files) :
    c.chunks.ofFile file.id = .ok file.chunks := by
  have hlist : lookup? c.chunks.lists file.id = some file.chunks :=
    lookup?_map_byId h.fileIds hfile _
  rw [ChunkTable.ofFile, hlist]

theorem folderId_lt {folder : StoredFolder} (hfolder : folder ∈ c.folders) :
    folder.id < c.folders.length :=
  List.mem_range.mp (h.folderIds.subset (List.mem_map_of_mem hfolder))

theorem fileId_lt {file : StoredFile} (hfile : file ∈ c.files) : file.id < c.files.length :=
  List.mem_range.mp (h.fileIds.subset (List.mem_map_of_mem hfile))

/-- A parent is found by its id, and is the only folder with it. -/
theorem lastWithId?_eq {folder : StoredFolder} (hfolder : folder ∈ c.folders) :
    ∃ i, c.folders[i]? = some folder ∧
      lastWithId? c.directory.folders folder.id = some (folder.toFolder, i) := by
  obtain ⟨i, hi⟩ := List.mem_iff_getElem?.mp hfolder
  have hids : (c.directory.folders.map Folder.id).Nodup := by
    have hnodup : (c.folders.map StoredFolder.id).Nodup :=
      h.folderIds.nodup_iff.mpr List.nodup_range
    have hmap : c.directory.folders.map Folder.id =
        (c.folders.map StoredFolder.id).map fun id : Nat => (id : Int) := by
      simp [directory, StoredFolder.toFolder, Function.comp_def]
    rw [hmap]
    exact hnodup.map fun _ _ => Int.ofNat_inj.mp
  refine ⟨i, hi, (lastWithId?_eq_some_iff hids).mpr ⟨?_, rfl⟩⟩
  rw [directory, List.getElem?_map, hi, Option.map_some]

theorem hasPath_of_folderPath {folder : StoredFolder} {path : String}
    (hpath : c.FolderPath folder path) (hfolder : folder ∈ c.folders) :
    HasPath c.directory.folders c.names folder.toFolder path := by
  induction hpath with
  | root hroot =>
    refine .root ?_ (folderName_eq h hfolder)
    rw [StoredFolder.toFolder, StoredFolder.parentId, hroot]
  | @nested folder parent base hparent hmem _ ih =>
    have hid : folder.toFolder.parent = parent.id := by
      rw [StoredFolder.toFolder, StoredFolder.parentId, hparent]
    obtain ⟨i, -, hlast⟩ := lastWithId?_eq h hmem
    refine .nested ?_ (folderName_eq h hfolder) (hid ▸ hlast) (ih hmem)
    rw [hid, rootParent]
    omega

theorem pathOf_eq {folder : StoredFolder} {path : String} (hpath : c.FolderPath folder path)
    (hfolder : folder ∈ c.folders) :
    pathOf c.directory.folders c.names folder.toFolder = .ok path :=
  (pathOf_eq_ok_iff (List.mem_map_of_mem hfolder)).mpr (hasPath_of_folderPath h hpath hfolder)

theorem exists_folderPaths : ∃ paths, folderPaths c.directory.folders c.names = .ok paths := by
  have hpaths : ∀ folder ∈ c.directory.folders,
      ∃ path, pathOf c.directory.folders c.names folder = .ok path := by
    intro folder hfolder
    obtain ⟨stored, hstored, rfl⟩ := List.mem_map.mp hfolder
    obtain ⟨path, hpath⟩ := h.rooted stored hstored
    exact ⟨path, pathOf_eq h hpath hstored⟩
  obtain ⟨paths, hall⟩ := exists_forall₂ hpaths
  exact ⟨paths, pathsOf_eq_ok.mpr hall⟩

theorem check_eq {file : StoredFile} (hfile : file ∈ c.files) (dataOffset : Nat) :
    (file.toFile dataOffset).check file.name file.chunks = .ok () := by
  rw [File.check_eq_ok]
  rcases h.stored file hfile with hplain | hpacked
  · have hcompressed : (file.toFile dataOffset).flags.isCompressed = false := hplain.not_compressed
    refine ⟨?_, rfl, (ChunksAgree.iff_of_plain hcompressed).mpr
      ⟨hplain.chunks_eq, hplain.decompressedSize_eq⟩⟩
    rw [CompressionFlags.isZlib, hcompressed, Bool.false_and]
  · have hzstd : (file.toFile dataOffset).flags.isZstd = true := hpacked.zstd
    have hcompressed : (file.toFile dataOffset).flags.isCompressed = true := by
      rw [CompressionFlags.isZstd, Bool.and_eq_true] at hzstd
      exact hzstd.1
    have htotal : Zstd.chunkTotal file.chunks = file.payload.size := by
      rw [← hpacked.sum_chunks, Zstd.chunkTotal, List.sum, List.foldr_map]
    refine ⟨?_, rfl, (ChunksAgree.iff_of_compressed hcompressed).mpr
      ⟨hpacked.chunks_ne_nil, htotal⟩⟩
    rw [CompressionFlags.isZlib, hzstd, Bool.not_true, Bool.and_false]

section Small

variable (hsize : c.toBytes.size < 2 ^ 31)

include hsize

theorem isChunkList {list : List Int} (hlist : list ∈ c.chunks.lists) : IsChunkList list := by
  have hbound : numberBound 4 = 2 ^ 32 := rfl
  constructor
  · have hmem : chunksToBytes list ∈ c.chunks.lists.map chunksToBytes := List.mem_map_of_mem hlist
    have hle := (List.sublist_flatten_of_mem hmem).length_le
    rw [← List.flatMap_def, length_chunksToBytes] at hle
    have hlt := length_chunks_lt hsize
    omega
  · obtain ⟨file, hfile, rfl⟩ := List.mem_map.mp hlist
    have hmem := mem_of_mem_byId hfile
    intro v hv
    rcases h.stored file hmem with hplain | hpacked
    · rw [hplain.chunks_eq] at hv
      cases hv
    · have hle := List.le_sum_of_mem (List.mem_map_of_mem (f := Int.natAbs) hv)
      have hlt := size_payload_lt hsize hmem
      rw [hpacked.sum_chunks] at hle
      rw [IsSigned, hbound]
      omega

theorem isSigned_parentId {folder : StoredFolder} (hfolder : folder ∈ c.folders) :
    IsSigned 4 folder.parentId := by
  obtain ⟨path, hpath⟩ := h.rooted folder hfolder
  cases hpath with
  | root hroot =>
    rw [StoredFolder.parentId, hroot]
    decide
  | nested hparent hmem =>
    rw [StoredFolder.parentId, hparent]
    exact isSigned_natCast (Nat.lt_trans (folderId_lt h hmem) (length_folders_lt hsize))

theorem map_ofRecord_folderRecords :
    c.folderRecords.map Folder.ofRecord = c.directory.folders := by
  rw [folderRecords, List.map_map]
  apply List.map_congr_left
  intro folder hfolder
  have hid := Nat.lt_trans (folderId_lt h hfolder) (length_folders_lt hsize)
  exact folder.ofRecord_record (isSigned_natCast hid) (isSigned_parentId h hsize hfolder)

theorem map_ofRecord_fileRecords : c.fileRecords.map File.ofRecord = c.directory.files := by
  have hbound : 2 ^ 31 < numberBound 8 := by decide
  apply List.ext_getElem
  · simp [fileRecords, directory]
  · intro i hi hi'
    simp only [fileRecords, directory, List.getElem_map, List.getElem_mapIdx]
    rw [List.length_map, length_fileRecords] at hi
    have hfile : c.files[i] ∈ c.files := List.getElem_mem hi
    obtain ⟨folder, hfolder, hid⟩ := h.inFolder _ hfile
    have hstart := Bytes.startOf_le c.payloads i
    have hpayloads := length_payloads_lt hsize
    have hpayload := size_payload_lt hsize hfile
    have hfileId := Nat.lt_trans (fileId_lt h hfile) (length_files_lt hsize)
    have hfolderId := Nat.lt_trans (folderId_lt h hfolder) (length_folders_lt hsize)
    exact c.files[i].ofRecord_record (by omega) (by omega) (isSigned_natCast hfileId)
      (hid ▸ isSigned_natCast hfolderId)

theorem readDirectory_eq : readDirectory c.toBytes = .ok c.directory := by
  have hparts := c.parts
  have hlimit : c.toBytes.size < wordLimit := Nat.lt_trans hsize (by decide)
  have hbound : 2 ^ 31 < numberBound 4 := by decide
  have hbound' : 2 ^ 31 < numberBound 8 := by decide
  obtain ⟨folderTable, hfolderTable, hfolderRecords, -, hfolderEnd⟩ :=
    Table.exists_parse_single (by
      rw [length_folderRecords]
      exact Nat.lt_trans (length_folders_lt hsize) hbound) hlimit hparts.folderTable
  obtain ⟨fileTable, hfileTable, hfileRecords, hcount, hfileEnd⟩ :=
    Table.exists_parse_single (by
      rw [length_fileRecords]
      exact Nat.lt_trans (length_files_lt hsize) hbound) hlimit hparts.fileTable
  rw [length_folderRecords] at hfolderEnd
  rw [length_fileRecords] at hfileEnd hcount
  have hsubheader := hparts.subheader
  simp only [subheader, holdsAt_numbersToBytes_cons] at hsubheader
  obtain ⟨hchunks, hdictionary, hnames, -⟩ := hsubheader
  have hchunkOffset := Nat.lt_trans (chunkOffset_lt hsize) hbound'
  have hnameOffset := Nat.lt_trans (nameOffset_lt hsize) hbound'
  have hstated : statedFiles (folderTable.records.map Folder.ofRecord) = fileTable.count := by
    rw [hfolderRecords, map_ofRecord_folderRecords h hsize, hcount, ← h.fileCounts, directory]
    simp only [statedFiles, List.sum, List.foldr_map, StoredFolder.toFolder]
  have hend : folderTable.endOffset = c.fileTableOffset := hfolderEnd
  have hend' : fileTable.endOffset = c.subheaderOffset := hfileEnd
  refine bind_eq_ok.mpr ⟨(), Bytes.expectMagic_eq_ok_iff.mpr hparts.magic, ?_⟩
  refine bind_eq_ok.mpr ⟨_, Bytes.word_eq_ok_iff.mpr ⟨c.version.toNat_lt, hparts.version⟩, ?_⟩
  refine bind_eq_ok.mpr ⟨_, hfolderTable, bind_eq_ok.mpr ⟨fileTable, hend ▸ hfileTable, ?_⟩⟩
  dsimp only
  rw [if_neg (not_not.mpr hstated), hend']
  refine bind_eq_ok.mpr ⟨_, Bytes.word_eq_ok_iff.mpr ⟨hchunkOffset, hchunks⟩, ?_⟩
  refine bind_eq_ok.mpr
    ⟨_, Bytes.word_eq_ok_iff.mpr ⟨c.dictionaryOffset.toNat_lt, hdictionary⟩, ?_⟩
  refine bind_eq_ok.mpr ⟨_, Bytes.word_eq_ok_iff.mpr ⟨hnameOffset, hnames⟩, ?_⟩
  rw [hfolderRecords, hfileRecords, map_ofRecord_folderRecords h hsize,
    map_ofRecord_fileRecords h hsize, alignUp_eq h.padding_lt h.aligned]
  rfl

theorem readNames_eq : readNames c.toBytes c.directory = .ok c.names := by
  have hbound : 2 ^ 31 < numberBound 4 := by decide
  have hfiles : c.names.files.length = c.files.length := by
    rw [names, List.length_map, length_byId h.fileIds]
  have hfolders : c.names.folders.length = c.folders.length := by
    rw [names, List.length_map, length_byId h.folderIds]
  have hparse : NameTable.parse c.toBytes c.directory.nameOffset = .ok c.names := by
    refine NameTable.parse_eq_ok_iff.mpr ⟨⟨?_, ?_⟩, ⟨?_, ?_⟩, c.parts.names⟩
    · rw [hfiles]
      exact Nat.lt_trans (length_files_lt hsize) hbound
    · intro name hname
      obtain ⟨file, hfile, rfl⟩ := List.mem_map.mp hname
      exact h.fileNames file (mem_of_mem_byId hfile)
    · rw [hfolders]
      exact Nat.lt_trans (length_folders_lt hsize) hbound
    · intro name hname
      obtain ⟨folder, hfolder, rfl⟩ := List.mem_map.mp hname
      exact h.folderNames folder (mem_of_mem_byId hfolder)
  have hlength : c.directory.files.length = c.files.length := List.length_mapIdx
  have hlength' : c.directory.folders.length = c.folders.length := List.length_map _
  refine bind_eq_ok.mpr ⟨_, hparse, ?_⟩
  rw [if_neg (by rw [hfiles, hlength]; exact fun hne => hne rfl),
    if_neg (by rw [hfolders, hlength']; exact fun hne => hne rfl)]

theorem readChunks_eq : readChunks c.toBytes c.directory = .ok c.chunks := by
  have hbound : 2 ^ 31 < numberBound 4 := by decide
  have hparse : ChunkTable.parse c.toBytes c.directory.chunkOffset = .ok c.chunks :=
    ChunkTable.parse_eq_ok_iff.mpr ⟨Nat.lt_trans (length_chunks_lt hsize) hbound,
      fun list hlist => isChunkList h hsize hlist, c.parts.chunks⟩
  have hlists : c.chunks.lists.length = c.files.length := by
    rw [chunks, List.length_map, length_byId h.fileIds]
  have hneeded : neededLists c.directory.files ≤ c.files.length := by
    rw [neededLists]
    split
    case h_1 id hmax =>
      obtain ⟨file, hfile, rfl⟩ := List.mem_map.mp (List.max?_mem hmax)
      obtain ⟨i, hi, rfl⟩ := List.mem_iff_getElem.mp hfile
      simp only [directory, List.getElem_mapIdx, StoredFile.toFile]
      have hlt := fileId_lt h (List.getElem_mem (by simpa [directory] using hi))
      omega
    case h_2 => exact Nat.zero_le _
  refine bind_eq_ok.mpr ⟨_, hparse, ?_⟩
  rw [if_neg (by rw [hlists]; exact Nat.not_lt.mpr hneeded)]

theorem exists_read : ∃ paths, Tables.read c.toBytes = .ok ⟨c.directory, c.names, c.chunks, paths⟩ ∧
    folderPaths c.directory.folders c.names = .ok paths := by
  obtain ⟨paths, hpaths⟩ := exists_folderPaths h
  refine ⟨paths, ?_, hpaths⟩
  refine bind_eq_ok.mpr ⟨_, readDirectory_eq h hsize, ?_⟩
  refine bind_eq_ok.mpr ⟨_, readNames_eq h hsize, bind_eq_ok.mpr ⟨_, readChunks_eq h hsize, ?_⟩⟩
  exact bind_eq_ok.mpr ⟨_, hpaths, rfl⟩

end Small

/-- The tables of the archive, with the paths of its folders. -/
def tables (c : Contents) (paths : List String) : Tables :=
  ⟨c.directory, c.names, c.chunks, paths⟩

theorem exists_filePath {file : StoredFile} (hfile : file ∈ c.files) :
    ∃ path, c.FilePath file path := by
  obtain ⟨folder, hfolder, hid⟩ := h.inFolder file hfile
  obtain ⟨base, hbase⟩ := h.rooted folder hfolder
  exact ⟨_, folder, hfolder, hid, base, hbase, rfl⟩

section Paths

variable {paths : List String} (hpaths : folderPaths c.directory.folders c.names = .ok paths)

include hpaths

theorem filePath_eq {file : StoredFile} {path : String} (hfile : file ∈ c.files)
    (hpath : c.FilePath file path) (dataOffset : Nat) :
    (c.tables paths).filePath (file.toFile dataOffset) = .ok path := by
  obtain ⟨folder, hfolder, hid, base, hbase, rfl⟩ := hpath
  obtain ⟨i, hi, hlast⟩ := lastWithId?_eq h hfolder
  have hread : c.directory.folders[i]? = some folder.toFolder := by
    rw [directory, List.getElem?_map, hi, Option.map_some]
  obtain ⟨base', hbase', hpathOf⟩ := exists_getElem?_of_forall₂ (pathsOf_eq_ok.mp hpaths) hread
  rw [pathOf_eq h hbase hfolder, Except.ok.injEq] at hpathOf
  subst hpathOf
  rw [hid] at hlast
  exact Tables.filePath_eq_ok.mpr ⟨file.name, file.chunks, folder.toFolder, i, base,
    fileName_eq h hfile, ofFile_eq h hfile, check_eq h hfile dataOffset, hlast, hbase', rfl⟩

theorem exists_entries : ∃ entries : List Entry,
    List.Forall₂ (c.tables paths).Lists c.directory.files.zipIdx entries := by
  apply exists_forall₂
  intro x hx
  obtain ⟨i, hi, rfl⟩ := List.mem_iff_getElem.mp hx
  simp only [List.getElem_zipIdx, directory, List.getElem_mapIdx]
  have hlt : i < c.files.length := by simpa [directory] using hi
  have hfile : c.files[i] ∈ c.files := List.getElem_mem hlt
  obtain ⟨path, hpath⟩ := exists_filePath h hfile
  exact ⟨⟨path, _, _, _, _, _⟩, filePath_eq h hpaths hfile hpath _, rfl, rfl, rfl, rfl, rfl⟩

section Entries

variable {entries : List Entry} {i : Nat} {e : Entry}
  (hlists : List.Forall₂ (c.tables paths).Lists c.directory.files.zipIdx entries)

include hlists

/-- The entry at a position is that of the file at this position. -/
theorem of_lists (he : entries[i]? = some e) : ∃ hi : i < c.files.length,
    c.FilePath c.files[i] e.name ∧ e.offset = c.dataOrigin + Bytes.startOf c.payloads i ∧
      e.size = c.files[i].payload.size := by
  obtain ⟨hlt, rfl⟩ := List.getElem?_eq_some_iff.mp he
  obtain ⟨hlength, hget⟩ := List.forall₂_iff_get.mp hlists
  have hi : i < c.files.length := by simpa [hlength.symm, directory] using hlt
  have hlisted := hget i (hlength ▸ hlt) hlt
  simp only [List.get_eq_getElem, List.getElem_zipIdx, directory, List.getElem_mapIdx] at hlisted
  obtain ⟨path, hpath⟩ := exists_filePath h (List.getElem_mem hi)
  have hname := (filePath_eq h hpaths (List.getElem_mem hi) hpath _).symm.trans hlisted.filePath_eq
  rw [Except.ok.injEq] at hname
  exact ⟨hi, hname ▸ hpath, hlisted.offset_eq, hlisted.size_eq⟩

theorem endOffset_of_lists (he : entries[i]? = some e) :
    e.endOffset = c.dataOrigin + Bytes.startOf c.payloads (i + 1) := by
  obtain ⟨hi, -, hoffset, hlength⟩ := of_lists h hpaths hlists he
  rw [Bytes.startOf_succ _ (by simpa [payloads] using hi), Entry.endOffset, hoffset, hlength,
    Nat.add_assoc]
  simp [payloads]

theorem read_of_lists (he : entries[i]? = some e) :
    ∃ hi : i < c.files.length, e.read c.toBytes = .ok c.files[i].payload := by
  obtain ⟨hi, -, hoffset, hlength⟩ := of_lists h hpaths hlists he
  have hpiece := c.parts.payloads.piece (i := i) (by simpa [payloads] using hi)
  simp only [payloads, List.getElem_map] at hpiece hoffset
  refine ⟨hi, ?_⟩
  rw [Entry.read, hoffset, hpiece.slice_eq (by rw [hlength, Array.length_toList]),
    Array.toArray_toList]

theorem nodup_of_lists : (entries.map (·.name)).Nodup := by
  rw [List.Nodup, List.pairwise_map, List.pairwise_iff_getElem]
  intro i j hi hj hij hname
  obtain ⟨hi', hpath, -⟩ := of_lists h hpaths hlists (List.getElem?_eq_getElem hi)
  obtain ⟨hj', hpath', -⟩ := of_lists h hpaths hlists (List.getElem?_eq_getElem hj)
  exact List.pairwise_iff_getElem.mp h.pathsApart i j hi' hj' hij _ hpath (hname ▸ hpath')

theorem endOffset_le_of_lists (he : e ∈ entries) : e.endOffset ≤ c.toBytes.size := by
  obtain ⟨i, hi⟩ := List.mem_iff_getElem?.mp he
  have hfits := c.parts.payloads.fits
  have hle := Bytes.startOf_le c.payloads (i + 1)
  rw [endOffset_of_lists h hpaths hlists hi]
  omega

theorem pairwise_apart_of_lists : entries.Pairwise Entry.Apart := by
  rw [List.pairwise_iff_getElem]
  intro i j hi hj hij _ _
  obtain ⟨_, -, hoffset, -⟩ := of_lists h hpaths hlists (List.getElem?_eq_getElem hj)
  rw [endOffset_of_lists h hpaths hlists (List.getElem?_eq_getElem hi), hoffset]
  exact Or.inl (Nat.add_le_add_left (Bytes.startOf_mono _ hij) _)

end Entries

end Paths

end WellFormed

/-- Archives of well-formed contents open. The files are listed in the order of their records, each
under its path and with its own payload. -/
theorem opens_with_listed_files (h : c.WellFormed) (hsize : c.toBytes.size < 2 ^ 31) :
    ∃ a, Archive.ofBytes c.toBytes = .ok a ∧
      List.Forall₂ (fun file e => c.FilePath file e.name ∧ e.read c.toBytes = .ok file.payload)
        c.files a.entries := by
  obtain ⟨paths, htables, hpaths⟩ := exists_read h hsize
  obtain ⟨entries, hlists⟩ := exists_entries h hpaths
  have hends : ∀ e ∈ entries, e.endOffset < wordLimit ∧ e.endOffset ≤ c.toBytes.size := by
    intro e he
    have hle := endOffset_le_of_lists h hpaths hlists he
    exact ⟨Nat.lt_of_le_of_lt hle (Nat.lt_trans hsize (by decide)), hle⟩
  obtain ⟨a, ha, -, rfl⟩ := Archive.exists_ofBytes htables hlists (nodup_of_lists h hpaths hlists)
    hends (pairwise_apart_of_lists h hpaths hlists)
  refine ⟨a, ha, List.forall₂_iff_get.mpr ⟨?_, ?_⟩⟩
  · rw [← hlists.length_eq, List.length_zipIdx, directory, List.length_mapIdx]
  · intro i hi hi'
    have he := List.getElem?_eq_getElem hi'
    obtain ⟨_, hpath, -⟩ := of_lists h hpaths hlists he
    obtain ⟨_, hread⟩ := read_of_lists h hpaths hlists he
    exact ⟨hpath, hread⟩

/-- A folder in a folder in an unnamed one, each with a file. Neither folders nor files stand in the
order of their ids, and the last file is cut into two blocks. -/
def tree : Contents where
  version := 7
  dictionaryOffset := 0
  folders := [⟨2, some 1, "sub", 1, 0, 0, 0, 0⟩, ⟨1, some 0, "data", 1, 0, 0, 0, 0⟩,
    ⟨0, none, "", 1, 0, 0, 0, 0⟩]
  files := [⟨1, 1, "a.bin", #[0x41, 0x41], 2, 0, [], 0⟩, ⟨0, 0, "𝄞", #[0x54], 1, 0, [], 0⟩,
    ⟨2, 2, "deep", #[1, 2, 3], 9, 3, [1, -2], 0⟩]
  padding := List.replicate 12 0xAA

/-- The paths of the files of `tree`. -/
def treePaths : List String :=
  ["data/a.bin", "𝄞", "data/sub/deep"]

theorem folderPath_tree : List.Forall₂ tree.FolderPath tree.folders ["data/sub", "data", ""] := by
  have hroot : tree.FolderPath ⟨0, none, "", 1, 0, 0, 0, 0⟩ "" := .root rfl
  have hdata : tree.FolderPath ⟨1, some 0, "data", 1, 0, 0, 0, 0⟩ "data" :=
    .nested rfl (by simp [tree]) hroot
  have hsub : tree.FolderPath ⟨2, some 1, "sub", 1, 0, 0, 0, 0⟩ "data/sub" :=
    .nested rfl (by simp [tree]) hdata
  exact .cons hsub (.cons hdata (.cons hroot .nil))

theorem filePath_tree : List.Forall₂ tree.FilePath tree.files treePaths := by
  obtain _ | ⟨hsub, _ | ⟨hdata, _ | ⟨hroot, -⟩⟩⟩ := folderPath_tree
  exact .cons ⟨_, by simp [tree], rfl, _, hdata, rfl⟩ (.cons ⟨_, by simp [tree], rfl, _, hroot, rfl⟩
    (.cons ⟨_, by simp [tree], rfl, _, hsub, rfl⟩ .nil))

theorem wellFormed_tree : tree.WellFormed where
  folderIds := by decide
  fileIds := by decide
  rooted := by
    intro folder hfolder
    obtain ⟨i, hi⟩ := List.mem_iff_getElem?.mp hfolder
    obtain ⟨path, -, hpath⟩ := exists_getElem?_of_forall₂ folderPath_tree hi
    exact ⟨path, hpath⟩
  inFolder := by decide
  pathsApart := pairwise_of_nodup_paths (by decide) filePath_tree (by decide)
  folderNames := by decide
  fileNames := by decide
  fileCounts := by decide
  stored := by
    refine List.forall_mem_cons.mpr ⟨.inl ⟨by decide, rfl, by decide⟩, ?_⟩
    refine List.forall_mem_cons.mpr ⟨.inl ⟨by decide, rfl, by decide⟩, ?_⟩
    exact List.forall_mem_singleton.mpr (.inr ⟨by decide, by decide, by decide⟩)
  aligned := by decide
  padding_lt := by decide

theorem opens_with_listed_files_tree : tree.WellFormed ∧ tree.toBytes.size < 2 ^ 31 ∧
    ∃ a, Archive.ofBytes tree.toBytes = .ok a ∧
      a.entries.map (fun e => (e.name, e.read tree.toBytes)) =
        [("data/a.bin", .ok #[0x41, 0x41]), ("𝄞", .ok #[0x54]),
          ("data/sub/deep", .ok #[1, 2, 3])] := by
  have hsize : tree.toBytes.size < 2 ^ 31 := by decide +kernel
  obtain ⟨a, ha, hfiles⟩ := opens_with_listed_files wellFormed_tree hsize
  have hids : (tree.folders.map StoredFolder.id).Nodup := by decide
  refine ⟨wellFormed_tree, hsize, a, ha, ?_⟩
  generalize a.entries = entries at hfiles
  obtain _ | ⟨hpath₁, _ | ⟨hpath₂, _ | ⟨hpath₃, _ | _⟩⟩⟩ := filePath_tree
  obtain _ | ⟨⟨hname₁, hread₁⟩, _ | ⟨⟨hname₂, hread₂⟩, _ | ⟨⟨hname₃, hread₃⟩, _ | _⟩⟩⟩ := hfiles
  simp only [List.map_cons, List.map_nil, hread₁, hread₂, hread₃, hname₁.unique hids hpath₁,
    hname₂.unique hids hpath₂, hname₃.unique hids hpath₃]

end Contents
end GameArchive.Vfs3
