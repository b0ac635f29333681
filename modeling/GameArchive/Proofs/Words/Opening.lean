import GameArchive.Archive.Vfs3
import GameArchive.Proofs.Extents
import GameArchive.Proofs.Words.NamesAndChunks
import GameArchive.Proofs.Words.Table
import GameArchive.Proofs.Words.Ykcmp
/-!
# Opening on words

Opening adds up what folders and chunks state, and these sums are bounded by how many there can be:
both stand in the buffer behind a count or a length of four bytes, and hold four bytes each. The
payloads are compared only once each is known to end inside the buffer. So nothing wraps in reading
a buffer, be it table, stream or archive.
-/
namespace GameArchive

namespace Record

variable {l : Layout} {r : Record l} {f : Field}

/-- `number` on words. -/
def numberOnWords (r : Record l) (f : Field) : OnWords Nat := do
  let ⟨stop, _⟩ ← Word.add f.offset f.kind.width
  pure (ofLittleEndian (r.raw.extract f.offset stop).toList)

/-- `integer` on words. -/
def integerOnWords (r : Record l) (f : Field) : OnWords Int := do
  let n ← r.numberOnWords f
  pure (toSigned f.kind.width n)

theorem run_numberOnWords (h : f.endOffset < 0x10000000000000000) :
    (r.numberOnWords f).run = some (.ok (r.number f)) :=
  Word.run_add h rfl

theorem run_integerOnWords (h : f.endOffset < 0x10000000000000000) :
    (r.integerOnWords f).run = some (.ok (r.integer f)) :=
  OnWords.run_bind_ok (run_numberOnWords h) rfl

end Record

/-- Refuses entries of which one reaches into the next one, on words. -/
def disjointOnWords : List Entry → OnWords Unit
  | a :: b :: rest => do
    let ⟨stop, _⟩ ← Word.add a.offset a.size
    if b.offset < stop then throw (.malformed (.overlap a.name b.name))
    else disjointOnWords (b :: rest)
  | _ => pure ()

/-- `checkExtents` on words. -/
def checkExtentsOnWords (size : Nat) (disjoint : Bool) (entries : List Entry) : OnWords Unit := do
  checkRanges size entries
  if disjoint then disjointOnWords (byOffset entries) else pure ()

theorem run_disjointOnWords {entries : List Entry}
    (h : ∀ e ∈ entries, e.endOffset < 0x10000000000000000) : (disjointOnWords entries).run =
      some (match findAdjacent? (fun a b => decide (b.offset < a.endOffset)) entries with
        | some (a, b) => .error (.malformed (.overlap a.name b.name))
        | none => .ok ()) := by
  induction entries with
  | nil => rfl
  | cons a rest ih =>
    obtain ⟨ha, hrest⟩ := List.forall_mem_cons.mp h
    cases rest with
    | nil => rfl
    | cons b rest =>
      refine Word.run_add ha ?_
      by_cases hreach : b.offset < a.endOffset
      · rw [findAdjacent?, if_pos (decide_eq_true hreach)]
        exact OnWords.run_if_pos hreach rfl
      · rw [findAdjacent?, if_neg fun hc => hreach (of_decide_eq_true hc)]
        exact OnWords.run_if_neg hreach (ih hrest)

theorem run_checkExtentsOnWords {size : Nat} {disjoint : Bool} {entries : List Entry} :
    (checkExtentsOnWords size disjoint entries).run =
      some (checkExtents size disjoint entries) := by
  refine OnWords.run_bind rfl fun _ hranges => OnWords.run_ite (fun _ => ?_) fun _ => rfl
  refine run_disjointOnWords fun e he => ?_
  have hmem : e ∈ entries := (List.mem_filter.mp ((List.mergeSort_perm _ _).subset he)).1
  exact (checkRanges_eq_ok.mp hranges e hmem).1

namespace Vfs3

variable {data : Bytes}

/-- `Folder.ofRecord` on words. -/
def Folder.ofRecordOnWords (r : Record layout) : OnWords Folder := do
  let crc ← r.numberOnWords crcField
  let id ← r.integerOnWords idField
  let parent ← r.integerOnWords parentField
  let firstSubfolder ← r.integerOnWords firstSubfolderField
  let subfolderCount ← r.numberOnWords subfolderCountField
  let fileCount ← r.numberOnWords fileCountField
  pure { crc, id, parent, firstSubfolder, subfolderCount, fileCount }

/-- `File.ofRecord` on words. -/
def File.ofRecordOnWords (r : Record layout) : OnWords File := do
  let id ← r.integerOnWords idField
  let folder ← r.integerOnWords folderField
  let crc ← r.numberOnWords crcField
  let dataOffset ← r.numberOnWords dataOffsetField
  let compressedSize ← r.numberOnWords compressedSizeField
  let decompressedSize ← r.numberOnWords decompressedSizeField
  let flags ← r.numberOnWords flagsField
  let dictionary ← r.integerOnWords dictionaryField
  pure { dataOffset, compressedSize, decompressedSize, crc, id, folder, flags := ⟨flags⟩,
         dictionary }

/-- `File.statement` on words. -/
def File.statementOnWords (file : File) (chunks : List Int) : OnWords (String × Nat × Nat) := do
  let total ← Word.sum 0 (chunks.map Int.natAbs)
  pure (if file.flags.isCompressed then
      if chunks.isEmpty then ("chunk count", 1, 0) else ("chunk sizes", file.compressedSize, total)
    else if chunks.isEmpty then ("decompressed size", file.compressedSize, file.decompressedSize)
    else ("chunk count", 0, chunks.length))

/-- `File.check` on words. -/
def File.checkOnWords (file : File) (name : String) (chunks : List Int) : OnWords Unit :=
  if file.flags.isZlib then throw (.unsupported (.zlib name file.id file.flags.bits))
  else if file.dictionary ≠ noDictionary then
    throw (.unsupported (.dictionary name file.id file.dictionary))
  else do
    let (what, expected, found) ← file.statementOnWords chunks
    if expected = found then pure ()
    else throw (.sizeMismatch (what ++ " of " ++ Text.quoted name) expected found)

/-- `alignUp` on words. -/
def alignUpOnWords (position alignment : Nat) : OnWords Nat := do
  let ⟨stop, _⟩ ← Word.add position alignment
  pure ((stop - 1) / alignment * alignment)

/-- `readDirectory` on words. -/
def readDirectoryOnWords (data : Bytes) : OnWords Directory := do
  data.expectMagic 0 magic
  let version ← data.word 4 4
  let folderTable ← Table.parseOnWords Folder.layout data folderTableOffset .single
  let folderRecords ← folderTable.recordsOnWords
  let folders ← folderRecords.mapM Folder.ofRecordOnWords
  let fileOffset ← folderTable.endOffsetOnWords
  let fileTable ← Table.parseOnWords File.layout data fileOffset .single
  let stated ← Word.sum 0 (folders.map Folder.fileCount)
  if stated ≠ fileTable.count then
    throw (.sizeMismatch "vfs3 folder file counts" stated fileTable.count)
  else
    let subheader ← fileTable.endOffsetOnWords
    let chunkOffset ← data.word subheader 8
    let ⟨dictionaryAt, _⟩ ← Word.add subheader 0x08
    let _dictionaryOffset ← data.word dictionaryAt 8
    let ⟨nameAt, _⟩ ← Word.add subheader 0x10
    let nameOffset ← data.word nameAt 8
    let ⟨subheaderEnd, _⟩ ← Word.add subheader subheaderSize
    let dataOrigin ← alignUpOnWords subheaderEnd dataAlignment
    let fileRecords ← fileTable.recordsOnWords
    let files ← fileRecords.mapM File.ofRecordOnWords
    pure { version, folders, chunkOffset, nameOffset, files, dataOrigin }

/-- `readNames` on words. -/
def readNamesOnWords (data : Bytes) (d : Directory) : OnWords NameTable := do
  let names ← NameTable.parseOnWords data d.nameOffset
  if names.files.length ≠ d.files.length then
    throw (.malformed (.fileNameCount names.files.length d.files.length))
  else if names.folders.length ≠ d.folders.length then
    throw (.malformed (.folderNameCount names.folders.length d.folders.length))
  else pure names

/-- `neededLists` on words. -/
def neededListsOnWords (files : List File) : OnWords Nat :=
  match (files.map File.id).max? with
  | some id => do
    let ⟨needed, _⟩ ← Word.addSigned id 1
    pure needed.toNat
  | none => pure 0

/-- `readChunks` on words. -/
def readChunksOnWords (data : Bytes) (d : Directory) : OnWords ChunkTable := do
  let chunks ← ChunkTable.parseOnWords data d.chunkOffset
  let needed ← neededListsOnWords d.files
  if chunks.lists.length < needed then
    throw (.sizeMismatch "vfs3 chunk lists" needed chunks.lists.length)
  else pure chunks

namespace Tables

/-- `Tables.read` on words. -/
def readOnWords (data : Bytes) : OnWords Tables := do
  let directory ← readDirectoryOnWords data
  let names ← readNamesOnWords data directory
  let chunks ← readChunksOnWords data directory
  let paths ← folderPaths directory.folders names
  pure ⟨directory, names, chunks, paths⟩

/-- `filePath` on words. -/
def filePathOnWords (t : Tables) (file : File) : OnWords String := do
  let name ← t.names.fileName file.id
  let chunks ← t.chunks.ofFile file.id
  file.checkOnWords name chunks
  match (lastWithId? t.directory.folders file.folder).bind fun (_, i) => t.paths[i]? with
  | none => throw (.malformed (.unknownFolder name file.folder))
  | some path => pure (joinPath path name)

/-- `entriesFrom` on words. The sum that places an entry is checked. -/
def entriesFromOnWords (t : Tables) : (index : Nat) → List File → Std.HashMap String Nat →
    OnWords (List Entry × Std.HashMap String Nat)
  | _, [], known => pure ([], known)
  | index, file :: rest, known => do
    let path ← t.filePathOnWords file
    if known.contains path then throw (.malformed (.duplicatePath path))
    else
      let offset := t.directory.dataOrigin + file.dataOffset
      if wordLimit ≤ offset then throw (.malformed (.offsetOverflow path))
      else
        let (entries, known) ← t.entriesFromOnWords (index + 1) rest (known.insert path index)
        let entry : Entry := {
          name := path
          offset
          size := file.compressedSize
          decompressedSize := file.decompressedSize
          flags := file.flags
          index }
        pure (entry :: entries, known)

end Tables

/-- `Archive.ofBytes` on words. -/
def Archive.ofBytesOnWords (data : Bytes) : OnWords Archive := do
  let tables ← Tables.readOnWords data
  let (entries, numbers) ← tables.entriesFromOnWords 0 tables.directory.files ∅
  checkExtentsOnWords data.size true entries
  pure ⟨data, tables, entries, numbers⟩

theorem Folder.run_ofRecordOnWords (r : Record layout) :
    (ofRecordOnWords r).run = some (.ok (ofRecord r)) := by
  refine OnWords.run_bind_ok (Record.run_numberOnWords (by decide)) ?_
  refine OnWords.run_bind_ok (Record.run_integerOnWords (by decide)) ?_
  refine OnWords.run_bind_ok (Record.run_integerOnWords (by decide)) ?_
  refine OnWords.run_bind_ok (Record.run_integerOnWords (by decide)) ?_
  refine OnWords.run_bind_ok (Record.run_numberOnWords (by decide)) ?_
  exact OnWords.run_bind_ok (Record.run_numberOnWords (by decide)) rfl

theorem File.run_ofRecordOnWords (r : Record layout) :
    (ofRecordOnWords r).run = some (.ok (ofRecord r)) := by
  refine OnWords.run_bind_ok (Record.run_integerOnWords (by decide)) ?_
  refine OnWords.run_bind_ok (Record.run_integerOnWords (by decide)) ?_
  refine OnWords.run_bind_ok (Record.run_numberOnWords (by decide)) ?_
  refine OnWords.run_bind_ok (Record.run_numberOnWords (by decide)) ?_
  refine OnWords.run_bind_ok (Record.run_numberOnWords (by decide)) ?_
  refine OnWords.run_bind_ok (Record.run_numberOnWords (by decide)) ?_
  refine OnWords.run_bind_ok (Record.run_numberOnWords (by decide)) ?_
  exact OnWords.run_bind_ok (Record.run_integerOnWords (by decide)) rfl

/-- A file has fewer chunks than a word of four bytes can count bytes of, and no chunk takes more
bytes than an integer of four bytes can be. -/
theorem File.run_statementOnWords (file : File) {chunks : List Int} (h : IsChunkList chunks) :
    (file.statementOnWords chunks).run = some (.ok (file.statement chunks)) := by
  have hbounds : ∀ n ∈ chunks.map Int.natAbs, n ≤ 0x80000000 := by
    intro n hn
    obtain ⟨v, hv, rfl⟩ := List.mem_map.mp hn
    have hsigned : -0x100000000 ≤ 2 * v ∧ 2 * v < 0x100000000 := h.isSigned v hv
    omega
  have hlength : 4 * chunks.length < 0x100000000 := h.length_lt
  have hsum := Word.run_sum_of_le hbounds (by rw [List.length_map]; omega)
  rw [List.foldr_map] at hsum
  exact OnWords.run_bind_ok hsum rfl

theorem File.run_checkOnWords (file : File) {name : String} {chunks : List Int}
    (h : IsChunkList chunks) :
    (file.checkOnWords name chunks).run = some (file.check name chunks) := by
  refine OnWords.run_ite (fun _ => rfl) fun _ => OnWords.run_ite (fun _ => rfl) fun _ => ?_
  exact OnWords.run_bind_ok (run_statementOnWords file h)
    (OnWords.run_ite (fun _ => rfl) fun _ => rfl)

theorem run_alignUpOnWords {position alignment : Nat}
    (h : position + alignment < 0x10000000000000000) :
    (alignUpOnWords position alignment).run = some (.ok (alignUp position alignment)) :=
  Word.run_add h rfl

/-- There are fewer folders than four bytes can count, and no folder states more files than four
bytes can count. -/
theorem run_sum_fileCount (folderTable : Table Folder.layout)
    (hcount : folderTable.count < 0x100000000) :
    (Word.sum 0 ((folderTable.records.map Folder.ofRecord).map Folder.fileCount)).run =
      some (.ok (statedFiles (folderTable.records.map Folder.ofRecord))) := by
  have hbounds : ∀ n ∈ (folderTable.records.map Folder.ofRecord).map Folder.fileCount,
      n ≤ 0xFFFFFFFF := by
    intro n hn
    obtain ⟨folder, hfolder, rfl⟩ := List.mem_map.mp hn
    obtain ⟨r, -, rfl⟩ := List.mem_map.mp hfolder
    have hlt : (Folder.ofRecord r).fileCount < 0x100000000 := Record.number_lt (by decide)
    omega
  have hlength : folderTable.records.length = folderTable.count := List.length_ofFn
  have hsum :=
    Word.run_sum_of_le hbounds (by rw [List.length_map, List.length_map, hlength]; omega)
  rwa [List.foldr_map] at hsum

theorem run_readDirectoryOnWords (hdata : data.size < 0x4000000000000000) :
    (readDirectoryOnWords data).run = some (readDirectory data) := by
  refine OnWords.run_bind rfl fun _ _ => OnWords.run_bind rfl fun version _ => ?_
  refine OnWords.run_bind (Table.run_parseOnWords hdata) fun folderTable hfolders => ?_
  obtain ⟨hdata', hcount⟩ := Table.data_and_count_of_parse hfolders
  have hfoldersSize : folderTable.data.size < 0x4000000000000000 := hdata' ▸ hdata
  refine OnWords.run_bind_ok (folderTable.run_recordsOnWords hfoldersSize) ?_
  refine OnWords.run_bind_ok (OnWords.run_mapM _ fun r _ => Folder.run_ofRecordOnWords r) ?_
  refine OnWords.run_bind_ok (folderTable.run_endOffsetOnWords hfoldersSize) ?_
  refine OnWords.run_bind (Table.run_parseOnWords hdata) fun fileTable hfiles => ?_
  have hfilesSize : fileTable.data.size < 0x4000000000000000 :=
    (Table.data_and_count_of_parse hfiles).1 ▸ hdata
  refine OnWords.run_bind_ok (run_sum_fileCount folderTable hcount) ?_
  refine OnWords.run_ite (fun _ => rfl) fun _ => ?_
  refine OnWords.run_bind_ok (fileTable.run_endOffsetOnWords hfilesSize) ?_
  refine OnWords.run_bind rfl fun chunkOffset hchunks => ?_
  have hfits := Bytes.fits_of_word hchunks
  refine Word.run_add (by omega) (OnWords.run_bind rfl fun _ _ => ?_)
  refine Word.run_add (by omega) (OnWords.run_bind rfl fun nameOffset _ => ?_)
  refine Word.run_add (by unfold subheaderSize; omega) ?_
  refine OnWords.run_bind_ok
    (run_alignUpOnWords (by unfold subheaderSize dataAlignment; omega)) ?_
  refine OnWords.run_bind_ok (fileTable.run_recordsOnWords hfilesSize) ?_
  exact OnWords.run_bind_ok (OnWords.run_mapM _ fun r _ => File.run_ofRecordOnWords r) rfl

/-- The files of a directory have ids that four bytes can hold. -/
theorem isSigned_of_readDirectory {d : Directory} (h : readDirectory data = .ok d) :
    ∀ file ∈ d.files, IsSigned 4 file.id := by
  obtain ⟨-, -, h⟩ := bind_eq_ok.mp h
  obtain ⟨version, -, h⟩ := bind_eq_ok.mp h
  obtain ⟨folderTable, -, h⟩ := bind_eq_ok.mp h
  obtain ⟨fileTable, -, h⟩ := bind_eq_ok.mp h
  dsimp only at h
  split at h
  case isTrue => cases h
  case isFalse =>
    obtain ⟨chunkOffset, -, h⟩ := bind_eq_ok.mp h
    obtain ⟨dictionaryOffset, -, h⟩ := bind_eq_ok.mp h
    obtain ⟨nameOffset, -, h⟩ := bind_eq_ok.mp h
    cases h
    intro file hfile
    obtain ⟨r, -, rfl⟩ := List.mem_map.mp hfile
    exact isSigned_toSigned (Record.number_lt (by decide))

theorem run_readNamesOnWords (hdata : data.size < 0x4000000000000000) (d : Directory) :
    (readNamesOnWords data d).run = some (readNames data d) := by
  refine OnWords.run_bind (NameTable.run_parseOnWords hdata) fun names _ => ?_
  exact OnWords.run_ite (fun _ => rfl) fun _ => OnWords.run_ite (fun _ => rfl) fun _ => rfl

theorem run_neededListsOnWords {files : List File} (h : ∀ file ∈ files, IsSigned 4 file.id) :
    (neededListsOnWords files).run = some (.ok (neededLists files)) := by
  unfold neededListsOnWords neededLists
  cases hmax : (files.map File.id).max? with
  | none => rfl
  | some id =>
    obtain ⟨file, hfile, rfl⟩ := List.mem_map.mp (List.max?_mem hmax)
    have hsigned : -0x100000000 ≤ 2 * file.id ∧ 2 * file.id < 0x100000000 := h file hfile
    refine Word.run_addSigned ?_ rfl
    show -0x10000000000000000 ≤ 2 * (file.id + 1) ∧ 2 * (file.id + 1) < 0x10000000000000000
    omega

theorem run_readChunksOnWords (hdata : data.size < 0x4000000000000000) {d : Directory}
    (h : ∀ file ∈ d.files, IsSigned 4 file.id) :
    (readChunksOnWords data d).run = some (readChunks data d) := by
  refine OnWords.run_bind (ChunkTable.run_parseOnWords hdata) fun chunks _ => ?_
  exact OnWords.run_bind_ok (run_neededListsOnWords h) (OnWords.run_ite (fun _ => rfl) fun _ => rfl)

theorem ChunkTable.mem_of_ofFile {t : ChunkTable} {id : Int} {list : List Int}
    (h : t.ofFile id = .ok list) : list ∈ t.lists := by
  unfold ofFile at h
  split at h
  case h_1 list' hlookup =>
    cases h
    unfold lookup? at hlookup
    split at hlookup
    case isTrue => cases hlookup
    case isFalse => exact List.mem_of_getElem? hlookup
  case h_2 => cases h

namespace Tables

variable {t : Tables}

theorem run_readOnWords (hdata : data.size < 0x4000000000000000) :
    (readOnWords data).run = some (read data) := by
  refine OnWords.run_bind (run_readDirectoryOnWords hdata) fun directory hdirectory => ?_
  refine OnWords.run_bind (run_readNamesOnWords hdata directory) fun names _ => ?_
  refine OnWords.run_bind (run_readChunksOnWords hdata (isSigned_of_readDirectory hdirectory))
    fun chunks _ => ?_
  exact OnWords.run_bind rfl fun _ _ => rfl

/-- The lists of chunks of an archive stand in its chunk table. -/
theorem isChunkList_of_read (h : read data = .ok t) : ∀ list ∈ t.chunks.lists, IsChunkList list := by
  obtain ⟨directory, -, h⟩ := bind_eq_ok.mp h
  obtain ⟨names, -, h⟩ := bind_eq_ok.mp h
  obtain ⟨chunks, hchunks, h⟩ := bind_eq_ok.mp h
  obtain ⟨paths, -, h⟩ := bind_eq_ok.mp h
  cases h
  obtain ⟨found, hfound, hchunks⟩ := bind_eq_ok.mp hchunks
  split at hchunks
  case isTrue => cases hchunks
  case isFalse =>
    cases hchunks
    exact (ChunkTable.parse_eq_ok_iff_isAt.mp hfound).isChunkList

theorem run_filePathOnWords (h : ∀ list ∈ t.chunks.lists, IsChunkList list) (file : File) :
    (t.filePathOnWords file).run = some (t.filePath file) := by
  refine OnWords.run_bind rfl fun name _ => OnWords.run_bind rfl fun chunks hchunks => ?_
  have hlist : IsChunkList chunks := h chunks (ChunkTable.mem_of_ofFile hchunks)
  refine OnWords.run_bind (file.run_checkOnWords hlist) fun _ _ => ?_
  cases (lastWithId? t.directory.folders file.folder).bind fun (_, i) => t.paths[i]? <;> rfl

theorem run_entriesFromOnWords (h : ∀ list ∈ t.chunks.lists, IsChunkList list) (index : Nat)
    (files : List File) (known : Std.HashMap String Nat) :
    (t.entriesFromOnWords index files known).run = some (t.entriesFrom index files known) := by
  induction files generalizing index known with
  | nil => rfl
  | cons file rest ih =>
    refine OnWords.run_bind (run_filePathOnWords h file) fun path _ => ?_
    refine OnWords.run_ite (fun _ => rfl) fun _ => OnWords.run_ite (fun _ => rfl) fun _ => ?_
    exact OnWords.run_bind (ih _ _) fun _ _ => rfl

end Tables

theorem Archive.run_ofBytesOnWords (hdata : data.size < 0x4000000000000000) :
    (ofBytesOnWords data).run = some (ofBytes data) := by
  refine OnWords.run_bind (Tables.run_readOnWords hdata) fun tables htables => ?_
  refine OnWords.run_bind (Tables.run_entriesFromOnWords (Tables.isChunkList_of_read htables) _ _ _)
    fun _ _ => ?_
  exact OnWords.run_bind run_checkExtentsOnWords fun _ _ => rfl

end Vfs3

/-- Tables, streams and archives are read without a sum or a product that wraps, wherever in a
buffer they are looked for and whatever its bytes are. -/
theorem no_operation_wraps (data : Bytes) (hdata : data.size < 0x4000000000000000) :
    (∀ (l : Layout) (offset : Nat), offset < wordLimit →
      (∀ counting, (Table.parseOnWords l data offset counting).run =
        some (Table.parse l data offset counting)) ∧
      ∀ count < wordLimit, (Table.ofCountOnWords l data offset count).run =
        some (Table.ofCount l data offset count)) ∧
    (∀ (l : Layout) (t : Table l), t.data = data →
      t.endOffsetOnWords.run = some (.ok t.endOffset) ∧
      ∀ i < wordLimit, (t.getOnWords i).run = some (t.get i)) ∧
    (∀ offset < wordLimit,
      (Vfs3.NameTable.parseOnWords data offset).run = some (Vfs3.NameTable.parse data offset) ∧
      (Vfs3.ChunkTable.parseOnWords data offset).run = some (Vfs3.ChunkTable.parse data offset) ∧
      (Codec.Ykcmp.Header.parseOnWords data offset).run =
        some (Codec.Ykcmp.Header.parse data offset) ∧
      (Codec.Lzs.Header.parseOnWords data offset).run =
        some (Codec.Lzs.Header.parse data offset) ∧
      (Codec.Ykcmp.decompressAtOnWords data offset).run =
        some (Codec.Ykcmp.decompressAt data offset) ∧
      (Codec.Lzs.decompressAtOnWords data offset).run =
        some (Codec.Lzs.decompressAt data offset)) ∧
    (Vfs3.Archive.ofBytesOnWords data).run = some (Vfs3.Archive.ofBytes data) := by
  refine ⟨fun l offset hoffset => ⟨fun counting => ?_, fun count _ => ?_⟩, ?_,
    fun offset _ => ⟨?_, ?_, ?_, ?_, ?_, ?_⟩, ?_⟩
  · exact Table.run_parseOnWords hdata
  · exact Table.run_ofCountOnWords hoffset
  · intro l t ht
    rw [← ht] at hdata
    exact ⟨t.run_endOffsetOnWords hdata, fun i _ => t.run_getOnWords hdata i⟩
  · exact Vfs3.NameTable.run_parseOnWords hdata
  · exact Vfs3.ChunkTable.run_parseOnWords hdata
  · exact Codec.Ykcmp.Header.run_parseOnWords hdata
  · exact Codec.Lzs.Header.run_parseOnWords hdata
  · exact Codec.Ykcmp.run_decompressAtOnWords hdata
  · exact Codec.Lzs.run_decompressAtOnWords hdata
  · exact Vfs3.Archive.run_ofBytesOnWords hdata

theorem no_operation_wraps_lastOffset :
    Codec.ykcmpStream.size < 0x4000000000000000 ∧
    (Table.ofCountOnWords Vfs3.Folder.layout Codec.ykcmpStream (wordLimit - 1) (wordLimit - 1)).run =
      some (.error (.outOfBounds (wordLimit - 1) (wordLimit - 1) 26)) ∧
    (Table.parseOnWords Vfs3.Folder.layout Codec.ykcmpStream (wordLimit - 1) .double).run =
      some (.error (.outOfBounds (wordLimit - 1) 4 26)) ∧
    (Codec.Lzs.decompressAtOnWords Codec.ykcmpStream (wordLimit - 1)).run =
      some (.error (.outOfBounds (wordLimit - 1) 4 26)) ∧
    (Codec.Ykcmp.decompressAtOnWords Codec.ykcmpStream 0).run =
      some (.ok #[0x61, 0x62, 0x61, 0x62, 0x61]) := by
  have hsize : Codec.ykcmpStream.size < 0x4000000000000000 := by decide
  have hlast : wordLimit - 1 < wordLimit := by decide
  obtain ⟨htables, -, hreads, -⟩ := no_operation_wraps Codec.ykcmpStream hsize
  obtain ⟨hparse, hcount⟩ := htables Vfs3.Folder.layout _ hlast
  obtain ⟨-, -, -, -, -, hlzs⟩ := hreads _ hlast
  obtain ⟨-, -, -, -, hykcmp, -⟩ := hreads 0 (by decide)
  refine ⟨hsize, ?_, ?_, ?_, ?_⟩
  · rw [hcount _ hlast]
    cbv
  · rw [hparse]
    cbv
  · rw [hlzs]
    cbv
  · rw [hykcmp]
    cbv

end GameArchive
