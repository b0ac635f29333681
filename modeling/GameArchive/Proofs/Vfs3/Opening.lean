import GameArchive.Archive.Vfs3
import GameArchive.Proofs.Extents
import GameArchive.Proofs.Vfs3.Folders
/-!
# VFS3 archives that open

What opening has checked: the tables agree on how many files and folders there are, every file
record is listed as the entry of its number, and no two entries have one path. The paths met so
far are kept in a hash map, which serves only to find a path that stands twice.
-/
namespace GameArchive.Vfs3

namespace Tables

variable {t : Tables} {data : Bytes} {file : File} {path : String}

/-- What reading has checked of the tables. -/
structure IsRead (t : Tables) : Prop where
  statedFiles_eq : statedFiles t.directory.folders = t.directory.files.length
  fileNames_eq : t.names.files.length = t.directory.files.length
  folderNames_eq : t.names.folders.length = t.directory.folders.length
  neededLists_le : neededLists t.directory.files ≤ t.chunks.lists.length
  folderPaths_eq : folderPaths t.directory.folders t.names = .ok t.paths

theorem statedFiles_of_readDirectory {d : Directory} (h : readDirectory data = .ok d) :
    statedFiles d.folders = d.files.length := by
  obtain ⟨-, -, h⟩ := bind_eq_ok.mp h
  obtain ⟨version, -, h⟩ := bind_eq_ok.mp h
  obtain ⟨folderTable, -, h⟩ := bind_eq_ok.mp h
  obtain ⟨fileTable, -, h⟩ := bind_eq_ok.mp h
  dsimp only at h
  split at h
  case isTrue => cases h
  case isFalse hstated =>
    obtain ⟨chunkOffset, -, h⟩ := bind_eq_ok.mp h
    obtain ⟨dictionaryOffset, -, h⟩ := bind_eq_ok.mp h
    obtain ⟨nameOffset, -, h⟩ := bind_eq_ok.mp h
    cases h
    simpa [Table.records] using hstated

theorem lengths_of_readNames {d : Directory} {names : NameTable} (h : readNames data d = .ok names) :
    names.files.length = d.files.length ∧ names.folders.length = d.folders.length := by
  obtain ⟨names', -, h⟩ := bind_eq_ok.mp h
  split at h
  case isTrue => cases h
  case isFalse hfiles =>
    split at h
    case isTrue => cases h
    case isFalse hfolders =>
      cases h
      exact ⟨not_not.mp hfiles, not_not.mp hfolders⟩

theorem neededLists_of_readChunks {d : Directory} {chunks : ChunkTable}
    (h : readChunks data d = .ok chunks) : neededLists d.files ≤ chunks.lists.length := by
  obtain ⟨chunks', -, h⟩ := bind_eq_ok.mp h
  split at h
  case isTrue => cases h
  case isFalse hlists =>
    cases h
    exact Nat.le_of_not_lt hlists

theorem isRead_of_read (h : read data = .ok t) : t.IsRead := by
  obtain ⟨directory, hdirectory, h⟩ := bind_eq_ok.mp h
  obtain ⟨names, hnames, h⟩ := bind_eq_ok.mp h
  obtain ⟨chunks, hchunks, h⟩ := bind_eq_ok.mp h
  obtain ⟨paths, hpaths, h⟩ := bind_eq_ok.mp h
  cases h
  obtain ⟨hfiles, hfolders⟩ := lengths_of_readNames hnames
  exact ⟨statedFiles_of_readDirectory hdirectory, hfiles, hfolders,
    neededLists_of_readChunks hchunks, hpaths⟩

/-- A file has a path if it has a name and chunks that it agrees with, and if some folder has the
id that it gives for its own: the last such folder is the one that it lies in. -/
theorem filePath_eq_ok : t.filePath file = .ok path ↔
    ∃ name chunks folder i base, t.names.fileName file.id = .ok name ∧
      t.chunks.ofFile file.id = .ok chunks ∧ file.check name chunks = .ok () ∧
      lastWithId? t.directory.folders file.folder = some (folder, i) ∧ t.paths[i]? = some base ∧
      path = joinPath base name := by
  unfold filePath
  simp only [bind_eq_ok]
  constructor
  · rintro ⟨name, hname, chunks, hchunks, ⟨⟩, hcheck, h⟩
    split at h
    case h_1 => cases h
    case h_2 base hbase =>
      cases h
      obtain ⟨⟨folder, i⟩, hfolder, hbase⟩ := Option.bind_eq_some_iff.mp hbase
      exact ⟨name, chunks, folder, i, base, hname, hchunks, hcheck, hfolder, hbase, rfl⟩
  · rintro ⟨name, chunks, folder, i, base, hname, hchunks, hcheck, hfolder, hbase, rfl⟩
    refine ⟨name, hname, chunks, hchunks, (), hcheck, ?_⟩
    rw [hfolder]
    simp only [Option.bind_some, hbase]

/-- Whether a numbered file is listed as an entry. -/
structure Lists (t : Tables) (x : File × Nat) (e : Entry) : Prop where
  filePath_eq : t.filePath x.1 = .ok e.name
  offset_eq : e.offset = t.directory.dataOrigin + x.1.dataOffset
  size_eq : e.size = x.1.compressedSize
  decompressedSize_eq : e.decompressedSize = x.1.decompressedSize
  flags_eq : e.flags = x.1.flags
  index_eq : e.index = x.2

instance (t : Tables) (x : File × Nat) (e : Entry) : Decidable (t.Lists x e) :=
  decidable_of_iff (t.filePath x.1 = .ok e.name ∧ e.offset = t.directory.dataOrigin + x.1.dataOffset ∧
      e.size = x.1.compressedSize ∧ e.decompressedSize = x.1.decompressedSize ∧
      e.flags = x.1.flags ∧ e.index = x.2)
    ⟨fun ⟨h₁, h₂, h₃, h₄, h₅, h₆⟩ => ⟨h₁, h₂, h₃, h₄, h₅, h₆⟩,
      fun ⟨h₁, h₂, h₃, h₄, h₅, h₆⟩ => ⟨h₁, h₂, h₃, h₄, h₅, h₆⟩⟩

section

variable {index : Nat} {files : List File} {known numbers : Std.HashMap String Nat}
  {entries : List Entry}

/-- One file is listed in front of the others, with its path among those known to them. -/
theorem entriesFrom_cons_eq_ok :
    t.entriesFrom index (file :: files) known = .ok (entries, numbers) ↔
      ∃ e others, t.Lists (file, index) e ∧ e.name ∉ known ∧ e.offset < wordLimit ∧
        t.entriesFrom (index + 1) files (known.insert e.name index) = .ok (others, numbers) ∧
        entries = e :: others := by
  constructor
  · intro h
    obtain ⟨path, hpath, h⟩ := bind_eq_ok.mp h
    split at h
    case isTrue => cases h
    case isFalse hknown =>
      dsimp only at h
      split at h
      case isTrue => cases h
      case isFalse hoffset =>
        obtain ⟨⟨others, numbers'⟩, hothers, h⟩ := bind_eq_ok.mp h
        cases h
        exact ⟨_, others, ⟨hpath, rfl, rfl, rfl, rfl, rfl⟩,
          fun hmem => hknown (Std.HashMap.mem_iff_contains.mp hmem), Nat.lt_of_not_le hoffset,
          hothers, rfl⟩
  · rintro ⟨e, others, hlists, hnew, hoffset, hothers, rfl⟩
    have hcontains : known.contains e.name = false :=
      Std.HashMap.contains_eq_false_iff_not_mem.mpr hnew
    have hindex : e.index = index := hlists.index_eq
    rw [hlists.offset_eq] at hoffset
    rw [entriesFrom, hlists.filePath_eq]
    simp only [bind, Except.bind, hcontains, Bool.false_eq_true, if_false,
      if_neg (Nat.not_le.mpr hoffset), hothers]
    rw [← hlists.offset_eq, ← hlists.size_eq, ← hlists.decompressedSize_eq, ← hlists.flags_eq,
      ← hindex]

/-- Files are listed when each has a path that no other has, and starts below the bound of
positions. -/
theorem exists_entriesFrom_iff :
    (∃ numbers, t.entriesFrom index files known = .ok (entries, numbers)) ↔
      List.Forall₂ t.Lists (files.zipIdx index) entries ∧ (entries.map (·.name)).Nodup ∧
        ∀ e ∈ entries, e.name ∉ known ∧ e.offset < wordLimit := by
  induction files generalizing index known entries with
  | nil =>
    simp only [entriesFrom, Except.ok.injEq, Prod.mk.injEq, exists_and_left, exists_eq', and_true,
      List.zipIdx_nil, List.forall₂_nil_left_iff]
    constructor
    · rintro rfl
      simp
    · rintro ⟨rfl, -, -⟩
      rfl
  | cons file rest ih =>
    -- The others are listed with this path known, so being new to the map says that theirs differ.
    have hinsert : ∀ d e : Entry, d.name ∉ known.insert e.name index ↔
        e.name ≠ d.name ∧ d.name ∉ known := by simp
    rw [List.zipIdx_cons, List.forall₂_cons_left_iff]
    constructor
    · rintro ⟨numbers, h⟩
      obtain ⟨e, others, hlisted, hnew, hoffset, hothers, rfl⟩ := entriesFrom_cons_eq_ok.mp h
      obtain ⟨hlists, hnodup, hall⟩ := ih.mp ⟨_, hothers⟩
      refine ⟨⟨e, others, hlisted, hlists, rfl⟩, ?_, ?_⟩
      · refine List.nodup_cons.mpr ⟨fun hmem => ?_, hnodup⟩
        obtain ⟨d, hd, hname⟩ := List.mem_map.mp hmem
        exact ((hinsert d e).mp (hall d hd).1).1 hname.symm
      · refine List.forall_mem_cons.mpr ⟨⟨hnew, hoffset⟩, fun d hd => ?_⟩
        exact ⟨((hinsert d e).mp (hall d hd).1).2, (hall d hd).2⟩
    · rintro ⟨⟨e, others, hlisted, hlists, rfl⟩, hnodup, hall⟩
      obtain ⟨hnew, hrest⟩ := List.nodup_cons.mp hnodup
      obtain ⟨⟨hunknown, hoffset⟩, hall⟩ := List.forall_mem_cons.mp hall
      obtain ⟨numbers, hothers⟩ := ih.mpr ⟨hlists, hrest, fun d hd =>
        ⟨(hinsert d e).mpr ⟨fun hname => hnew (List.mem_map.mpr ⟨d, hd, hname.symm⟩), (hall d hd).1⟩,
          (hall d hd).2⟩⟩
      exact ⟨numbers, entriesFrom_cons_eq_ok.mpr
        ⟨e, others, hlisted, hunknown, hoffset, hothers, rfl⟩⟩

end

end Tables

namespace Archive

variable {a : Archive} {data : Bytes} {e : Entry}

/-- What opening has checked of an archive. -/
structure IsOpen (a : Archive) : Prop where
  isRead : a.tables.IsRead
  lists : List.Forall₂ a.tables.Lists a.tables.directory.files.zipIdx a.entries
  names_nodup : (a.entries.map (·.name)).Nodup
  endOffset_le : ∀ e ∈ a.entries, e.endOffset ≤ a.data.size
  apart : a.entries.Pairwise Entry.Apart

theorem ofBytes_eq_ok : ofBytes data = .ok a ↔ a.data = data ∧ Tables.read data = .ok a.tables ∧
    a.tables.entriesFrom 0 a.tables.directory.files ∅ = .ok (a.entries, a.numbers) ∧
    checkExtents data.size true a.entries = .ok () := by
  constructor
  · intro h
    obtain ⟨tables, htables, h⟩ := bind_eq_ok.mp h
    obtain ⟨⟨entries, numbers⟩, hentries, h⟩ := bind_eq_ok.mp h
    obtain ⟨⟨⟩, hextents, h⟩ := bind_eq_ok.mp h
    cases h
    exact ⟨rfl, htables, hentries, hextents⟩
  · rintro ⟨rfl, htables, hentries, hextents⟩
    rw [ofBytes, htables]
    simp only [bind, Except.bind, hentries, hextents]

theorem isOpen_of_ofBytes (h : ofBytes data = .ok a) : a.IsOpen ∧ a.data = data := by
  obtain ⟨rfl, htables, hentries, hextents⟩ := ofBytes_eq_ok.mp h
  obtain ⟨hlists, hnodup, -⟩ := Tables.exists_entriesFrom_iff.mp ⟨_, hentries⟩
  obtain ⟨hends, hapart⟩ := checkExtents_eq_ok.mp hextents
  exact ⟨⟨Tables.isRead_of_read htables, hlists, hnodup, fun e he => (hends e he).2, hapart rfl⟩,
    rfl⟩

/-- Tables, and entries that they list inside the buffer and apart from each other, make an
archive. -/
theorem exists_ofBytes {t : Tables} {entries : List Entry} (htables : Tables.read data = .ok t)
    (hlists : List.Forall₂ t.Lists t.directory.files.zipIdx entries)
    (hnodup : (entries.map (·.name)).Nodup)
    (hends : ∀ e ∈ entries, e.endOffset < wordLimit ∧ e.endOffset ≤ data.size)
    (hapart : entries.Pairwise Entry.Apart) :
    ∃ a, ofBytes data = .ok a ∧ a.tables = t ∧ a.entries = entries := by
  have hoffset : ∀ e ∈ entries, e.name ∉ (∅ : Std.HashMap String Nat) ∧ e.offset < wordLimit :=
    fun e he => ⟨Std.HashMap.not_mem_empty,
      Nat.lt_of_le_of_lt (Nat.le_add_right _ _) (hends e he).1⟩
  obtain ⟨numbers, hentries⟩ := Tables.exists_entriesFrom_iff.mpr ⟨hlists, hnodup, hoffset⟩
  exact ⟨⟨data, t, entries, numbers⟩, ofBytes_eq_ok.mpr
    ⟨rfl, htables, hentries, checkExtents_eq_ok.mpr ⟨hends, fun _ => hapart⟩⟩, rfl, rfl⟩

/-- Numbers one after another, each behind the width that it takes. -/
def numbersToBytes (numbers : List (Nat × Nat)) : List UInt8 :=
  numbers.flatMap fun (width, n) => toLittleEndian width n

namespace IsOpen

theorem length_entries (h : a.IsOpen) : a.entries.length = a.tables.directory.files.length := by
  rw [← h.lists.length_eq, List.length_zipIdx]

theorem lists_getElem (h : a.IsOpen) {i : Nat} (hi : i < a.entries.length)
    (hfile : i < a.tables.directory.files.length) :
    a.tables.Lists (a.tables.directory.files[i], i) a.entries[i] := by
  obtain ⟨hlen, hlists⟩ := List.forall₂_iff_get.mp h.lists
  have hlisted := hlists i (hlen ▸ hi) hi
  simpa only [List.get_eq_getElem, List.getElem_zipIdx, Nat.zero_add] using hlisted

/-- Entries are numbered by where they stand. -/
theorem index_eq (h : a.IsOpen) {i : Nat} (he : a.entries[i]? = some e) : e.index = i := by
  obtain ⟨hi, rfl⟩ := List.getElem?_eq_some_iff.mp he
  exact (h.lists_getElem hi (h.length_entries ▸ hi)).index_eq

theorem getElem?_index (h : a.IsOpen) (he : e ∈ a.entries) : a.entries[e.index]? = some e := by
  obtain ⟨i, hi⟩ := List.mem_iff_getElem?.mp he
  rwa [h.index_eq hi]

/-- Every entry is listed for the record that stands at its number. -/
theorem exists_file (h : a.IsOpen) (he : e ∈ a.entries) :
    ∃ file, a.file e = .ok file ∧ a.tables.Lists (file, e.index) e := by
  obtain ⟨i, hi, rfl⟩ := List.mem_iff_getElem.mp he
  have hfile : i < a.tables.directory.files.length := h.length_entries ▸ hi
  have hlisted := h.lists_getElem hi hfile
  have hindex : a.entries[i].index = i := hlisted.index_eq
  refine ⟨a.tables.directory.files[i], ?_, ?_⟩
  · rw [file, hindex, List.getElem?_eq_getElem hfile]
  · rw [hindex]
    exact hlisted

end IsOpen
end Archive
end GameArchive.Vfs3
