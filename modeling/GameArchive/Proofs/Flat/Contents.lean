import GameArchive.Proofs.Flat.Acceptance
import GameArchive.Proofs.Flat.Tiling
/-!
# Archives made from files

A header, one record for each file and then the payloads back to back. Such an archive opens, lists
the files under their names and gives back their payloads. Payloads may be stored in any order that
the records can tell: any at all where they state offsets, any if no payload is empty where they
state ends, and that of the records where they state starts.
-/
namespace GameArchive

namespace Record

variable {l : Layout}

/-- The record with numbers put into fields one after another, each cut to the width of its
field. -/
def putEach (r : Record l) (settings : List (Field × Nat)) : Record l :=
  settings.foldl (fun r s => r.put s.1 (toLittleEndian s.1.kind.width s.2)) r

theorem putNumbers_of_lt {settings : List (Field × Nat)} {r : Record l}
    (h : ∀ s ∈ settings, s.2 < numberBound s.1.kind.width) :
    r.putNumbers settings = .ok (r.putEach settings) := by
  induction settings generalizing r with
  | nil => rfl
  | cons s rest ih =>
    obtain ⟨hs, hrest⟩ := List.forall_mem_cons.mp h
    exact bind_eq_ok.mpr ⟨_, putNumber_eq_ok.mpr ⟨hs, rfl⟩, ih hrest⟩

end Record

namespace FlatFormat

variable {f : FlatFormat}

theorem endOffset_nameField_le (f : FlatFormat) : f.nameField.endOffset ≤ f.layout.size := by
  rcases f with (_ | _ | _) | (_ | _ | _) | _ <;> decide

theorem settings_lt {directoryEnd : Nat} {p : Placement} (h : p.endOffset < numberBound 4) :
    ∀ s ∈ f.settings directoryEnd p none, s.2 < numberBound s.1.kind.width := by
  intro s hs
  rw [f.width_of_mem_placing s.1 (mem_placing_of_mem_settings hs)]
  have hoffset : p.offset ≤ p.endOffset := Nat.le_add_right _ _
  have hsize : p.size ≤ p.endOffset := Nat.le_add_left _ _
  unfold settings at hs
  cases hf : f.placing with
  | explicit offset size decompressed =>
    simp only [hf, List.mem_cons, List.not_mem_nil, or_false] at hs
    rcases hs with rfl | rfl
    · exact Nat.lt_of_le_of_lt hoffset h
    · exact Nat.lt_of_le_of_lt hsize h
  | ends field =>
    rw [hf] at hs
    obtain rfl := List.mem_singleton.mp hs
    exact Nat.lt_of_le_of_lt (Nat.sub_le _ _) h
  | starts field =>
    rw [hf] at hs
    obtain rfl := List.mem_singleton.mp hs
    exact Nat.lt_of_le_of_lt hoffset h

/-- A file that a record of the format can name. -/
structure StoredFile (f : FlatFormat) where
  name : List UInt8
  payload : Bytes
  /-- What its record holds besides the name and the place of the payload. -/
  template : Record f.layout
  length_name_le : name.length ≤ f.nameField.kind.width
  zero_notMem_name : 0 ∉ name

namespace StoredFile

variable {directoryEnd offset : Nat}

/-- The record under the name of the file, filled up with zero bytes. -/
def named (file : StoredFile f) : Record f.layout :=
  file.template.put f.nameField
    (file.name ++ List.replicate (f.nameField.kind.width - file.name.length) 0)

/-- The record of the file when its payload lies at `offset`. -/
def record (file : StoredFile f) (directoryEnd offset : Nat) : Record f.layout :=
  file.named.putEach (f.settings directoryEnd ⟨offset, file.payload.size⟩ none)

theorem string_named (file : StoredFile f) :
    file.named.string f.nameField = Text.ShiftJis.decode file.name := by
  have hlength := file.length_name_le
  rw [Record.string, named, Record.contents_put f.endOffset_nameField_le (by simp; omega),
    Text.FixedText.decode, List.takeWhile_append_of_pos, List.takeWhile_replicate]
  · simp
  · intro b hb
    have hne : b ≠ 0 := fun h => file.zero_notMem_name (h ▸ hb)
    simpa using hne

theorem updateRecord_named (file : StoredFile f)
    (h : offset + file.payload.size < numberBound 4) :
    f.updateRecord directoryEnd ⟨offset, file.payload.size⟩ none file.named =
      .ok (file.record directoryEnd offset) := by
  rw [updateRecord_eq_putNumbers]
  exact Record.putNumbers_of_lt (settings_lt h)

end StoredFile

/-- Whether the records tell the payloads apart when these are stored in an order. -/
def Storable (f : FlatFormat) (files : List (StoredFile f)) (order : List Nat) : Prop :=
  match f.placing with
  | .explicit _ _ _ => True
  | .ends _ => ∀ file ∈ files, file.payload.size ≠ 0
  | .starts _ => order = List.range files.length

/-- What an archive is made from. -/
structure Contents (f : FlatFormat) where
  header : List UInt8
  files : List (StoredFile f)
  /-- The numbers of the files in the order in which their payloads are stored. -/
  order : List Nat
  header_eq : f.Header files.length header
  order_perm : order.Perm (List.range files.length)
  storable : f.Storable files order

namespace Contents

variable (c : Contents f) {i j k : Nat}

/-- Where the records end and the payloads start. -/
def directoryEnd : Nat :=
  f.headerSize + c.files.length * f.layout.size

/-- The payload of the file of number `i`. -/
def payloadOf (i : Nat) : List UInt8 :=
  (c.files[i]?.map fun file => file.payload.toList).getD []

/-- The payloads as they are stored. -/
def payloads : List (List UInt8) :=
  c.order.map c.payloadOf

/-- Where the payload starts that is stored at position `k`. -/
def startAt (k : Nat) : Nat :=
  c.directoryEnd + Bytes.startOf c.payloads k

/-- Where the payload of the file of number `i` starts. -/
def offsetOf (i : Nat) : Nat :=
  c.startAt (c.order.idxOf i)

def records : List (Record f.layout) :=
  c.files.mapIdx fun i file => file.record c.directoryEnd (c.offsetOf i)

def toBytes : Bytes :=
  (c.header ++ c.records.flatMap (fun r => r.raw.toList) ++ c.payloads.flatten).toArray

/-- The numbers of the files in the order in which the archive lists them. -/
def listing : List Nat :=
  match f.placing with
  | .ends _ => c.order
  | _ => List.range c.files.length

theorem payloadOf_eq {file : StoredFile f} (h : c.files[i]? = some file) :
    c.payloadOf i = file.payload.toList := by
  rw [payloadOf, h]
  rfl

theorem length_payloadOf {file : StoredFile f} (h : c.files[i]? = some file) :
    (c.payloadOf i).length = file.payload.size := by
  rw [c.payloadOf_eq h, Array.length_toList]

theorem nodup_order : c.order.Nodup :=
  c.order_perm.nodup_iff.mpr List.nodup_range

theorem length_order : c.order.length = c.files.length := by
  rw [c.order_perm.length_eq, List.length_range]

theorem exists_position (hi : i < c.files.length) :
    ∃ k, ∃ hk : k < c.order.length, c.order[k] = i :=
  List.mem_iff_getElem.mp (c.order_perm.mem_iff.mpr (List.mem_range.mpr hi))

theorem startAt_zero : c.startAt 0 = c.directoryEnd := by
  rw [startAt, Bytes.startOf_zero, Nat.add_zero]

theorem startAt_succ (hk : k < c.order.length) :
    c.startAt (k + 1) = c.startAt k + (c.payloadOf c.order[k]).length := by
  rw [startAt, startAt, Bytes.startOf_succ _ (by rwa [payloads, List.length_map]), Nat.add_assoc]
  simp only [payloads, List.getElem_map]

theorem startAt_mono (h : j ≤ k) : c.startAt j ≤ c.startAt k :=
  Nat.add_le_add_left (Bytes.startOf_mono _ h) _

/-- Where ends are stated no two payloads start at the same place. -/
theorem startAt_lt {field : Field} (hf : f.placing = .ends field) (hjk : j < k)
    (hk : k ≤ c.order.length) : c.startAt j < c.startAt k := by
  have hj : j < c.order.length := Nat.lt_of_lt_of_le hjk hk
  have hfile : c.order[j] < c.files.length :=
    List.mem_range.mp (c.order_perm.subset (List.getElem_mem hj))
  have hfilled := c.storable
  simp only [Storable, hf] at hfilled
  have hpos := hfilled _ (List.getElem_mem hfile)
  have hle := c.startAt_mono (Nat.succ_le_of_lt hjk)
  rw [c.startAt_succ hj, c.length_payloadOf (List.getElem?_eq_getElem hfile)] at hle
  omega

theorem offsetOf_getElem (hk : k < c.order.length) : c.offsetOf c.order[k] = c.startAt k := by
  rw [offsetOf, c.nodup_order.idxOf_getElem]

theorem length_records : c.records.length = c.files.length :=
  List.length_mapIdx

/-- The record of the file of number `i`. -/
def recordOf (hi : i < c.files.length) : Record f.layout :=
  c.files[i].record c.directoryEnd (c.offsetOf i)

theorem getElem_records (hi : i < c.files.length) (h : i < c.records.length) :
    c.records[i] = c.recordOf hi := by
  simp only [records, recordOf, List.getElem_mapIdx]

/-- The three parts of the archive. -/
theorem holdsAt_parts : c.toBytes.HoldsAt 0 c.header ∧
    c.toBytes.HoldsAt f.headerSize (c.records.flatMap fun r => r.raw.toList) ∧
    c.toBytes.HoldsAt c.directoryEnd (c.payloads.flatten) := by
  have h := Bytes.holdsAt_toArray
    (c.header ++ c.records.flatMap (fun r => r.raw.toList) ++ c.payloads.flatten)
  obtain ⟨hdirectory, hpayloads⟩ := Bytes.holdsAt_append.mp h
  obtain ⟨hheader, hrecords⟩ := Bytes.holdsAt_append.mp hdirectory
  rw [Nat.zero_add, c.header_eq.length_eq] at hrecords
  rw [Nat.zero_add, List.length_append, c.header_eq.length_eq, Record.length_flatMap_raw,
    c.length_records] at hpayloads
  exact ⟨hheader, hrecords, hpayloads⟩

theorem startAt_length : c.startAt c.order.length = c.toBytes.size := by
  have hlength : c.order.length = c.payloads.length := by rw [payloads, List.length_map]
  rw [startAt, hlength, Bytes.startOf_length, toBytes, List.size_toArray, List.length_append,
    List.length_append, c.header_eq.length_eq, Record.length_flatMap_raw, c.length_records,
    directoryEnd]

theorem holdsAt_payload (hk : k < c.order.length) :
    c.toBytes.HoldsAt (c.startAt k) (c.payloadOf c.order[k]) := by
  have hpiece := c.holdsAt_parts.2.2.piece (i := k) (by rwa [payloads, List.length_map])
  simpa only [startAt, payloads, List.getElem_map] using hpiece

theorem startAt_le_size (hk : k ≤ c.order.length) : c.startAt k ≤ c.toBytes.size := by
  rw [← c.startAt_length]
  exact c.startAt_mono hk

theorem hasDirectory : f.HasDirectory c.toBytes c.files.length where
  header := ⟨c.header, c.header_eq, c.holdsAt_parts.1⟩
  fits := by
    have h := c.startAt_le_size (Nat.zero_le _)
    rwa [c.startAt_zero] at h

theorem endOffset_table : c.hasDirectory.table.endOffset = c.directoryEnd :=
  rfl

theorem records_table : c.hasDirectory.table.records = c.records :=
  Table.records_of_holdsAt c.length_records c.holdsAt_parts.2.1

/-- The payload of each file starts behind the directory and ends within the archive. -/
theorem exists_place (hi : i < c.files.length) : ∃ k, ∃ hk : k < c.order.length,
    c.order[k] = i ∧ c.offsetOf i = c.startAt k ∧
      c.offsetOf i + c.files[i].payload.size = c.startAt (k + 1) := by
  obtain ⟨k, hk, rfl⟩ := c.exists_position hi
  refine ⟨k, hk, rfl, c.offsetOf_getElem hk, ?_⟩
  rw [c.offsetOf_getElem hk, c.startAt_succ hk, c.length_payloadOf (List.getElem?_eq_getElem hi)]

theorem endOffset_le_size (hi : i < c.files.length) :
    c.offsetOf i + c.files[i].payload.size ≤ c.toBytes.size := by
  obtain ⟨k, hk, -, -, hend⟩ := c.exists_place hi
  rw [hend]
  exact c.startAt_le_size hk

/-- Payloads of different files lie one behind the other. -/
theorem offsetOf_apart (hi : i < c.files.length) (hj : j < c.files.length) (hij : i ≠ j) :
    c.offsetOf i + c.files[i].payload.size ≤ c.offsetOf j ∨
      c.offsetOf j + c.files[j].payload.size ≤ c.offsetOf i := by
  obtain ⟨k, hk, hki, hstart, hend⟩ := c.exists_place hi
  obtain ⟨l, hl, hlj, hstart', hend'⟩ := c.exists_place hj
  rw [hend, hend', hstart, hstart']
  rcases Nat.lt_trichotomy k l with hkl | rfl | hlk
  · exact Or.inl (c.startAt_mono hkl)
  · exact absurd (hki.symm.trans hlj) hij
  · exact Or.inr (c.startAt_mono hlk)

/-- Whether an entry lies where the payload of the file of its number is stored. -/
def IsStored (e : Entry) : Prop :=
  ∃ k, ∃ hk : k < c.order.length, c.order[k] = e.index ∧
    e.offset = c.startAt k ∧ e.endOffset = c.startAt (k + 1)

theorem read_of_isStored {e : Entry} {file : StoredFile f} (h : c.IsStored e)
    (hfile : c.files[e.index]? = some file) : e.read c.toBytes = .ok file.payload := by
  obtain ⟨k, hk, hindex, hoffset, hend⟩ := h
  have hpayload := c.holdsAt_payload hk
  rw [hindex, c.payloadOf_eq hfile] at hpayload
  rw [c.startAt_succ hk, hindex, c.payloadOf_eq hfile, Entry.endOffset, hoffset] at hend
  rw [Entry.read, hoffset, hpayload.slice_eq (Nat.add_left_cancel hend), Array.toArray_toList]

section Small

variable (hsize : c.toBytes.size < numberBound 4)

include hsize

theorem updateRecord_eq (hi : i < c.files.length) :
    f.updateRecord c.directoryEnd ⟨c.offsetOf i, c.files[i].payload.size⟩ none c.files[i].named =
      .ok (c.recordOf hi) :=
  c.files[i].updateRecord_named (Nat.lt_of_le_of_lt (c.endOffset_le_size hi) hsize)

theorem number_recordOf (hi : i < c.files.length) :
    ∀ s ∈ f.settings c.directoryEnd ⟨c.offsetOf i, c.files[i].payload.size⟩ none,
      (c.recordOf hi).number s.1 = s.2 :=
  fun _ hs => number_of_updateRecord (c.updateRecord_eq hsize hi) hs

theorem size_lt_wordLimit : c.toBytes.size < wordLimit :=
  Nat.lt_trans hsize (by decide)

theorem number_explicit {offset size : Field} {decompressed : Option Field}
    (hf : f.placing = .explicit offset size decompressed) (hi : i < c.files.length) :
    (c.recordOf hi).number offset = c.offsetOf i ∧
      (c.recordOf hi).number size = c.files[i].payload.size := by
  have h := c.number_recordOf hsize hi
  simp only [settings, hf] at h
  exact ⟨h _ List.mem_cons_self, h _ (List.mem_cons_of_mem _ (List.mem_singleton_self _))⟩

theorem number_ends {field : Field} (hf : f.placing = .ends field) (hi : i < c.files.length) :
    c.directoryEnd + (c.recordOf hi).number field = c.offsetOf i + c.files[i].payload.size := by
  have h := c.number_recordOf hsize hi
  simp only [settings, hf] at h
  obtain ⟨k, hk, -, hstart, -⟩ := c.exists_place hi
  have hle := c.startAt_mono (Nat.zero_le k)
  rw [c.startAt_zero, ← hstart] at hle
  rw [h _ (List.mem_singleton_self _)]
  show c.directoryEnd + (c.offsetOf i + c.files[i].payload.size - c.directoryEnd) = _
  omega

theorem number_starts {field : Field} (hf : f.placing = .starts field) (hi : i < c.files.length) :
    (c.recordOf hi).number field = c.startAt i := by
  have h := c.number_recordOf hsize hi
  simp only [settings, hf] at h
  rw [h _ (List.mem_singleton_self _)]
  show c.offsetOf i = c.startAt i
  have horder := c.storable
  simp only [Storable, hf] at horder
  have hstart := c.offsetOf_getElem (k := i) (by rwa [c.length_order])
  simpa [horder] using hstart

theorem exists_ofBytes : ∃ a, FlatArchive.ofBytes f c.toBytes = .ok a := by
  have hlimit := c.size_lt_wordLimit hsize
  cases hf : f.placing with
  | explicit offset size decompressed =>
    refine ⟨⟨c.hasDirectory.table, _⟩, (FlatArchive.ofBytes_eq_ok_iff_lists hlimit).mpr
      ⟨_, c.hasDirectory, rfl, FlatArchive.readEntries_of_explicit hf _, ?_⟩⟩
    rw [c.records_table, FlatArchive.checkExtents_explicit hlimit]
    constructor
    · rw [List.forall_mem_iff_getElem]
      intro i h
      have hi : i < c.files.length := c.length_records ▸ h
      obtain ⟨hoffset, hlength⟩ := c.number_explicit hsize hf hi
      rw [c.getElem_records hi h, hoffset, hlength]
      exact c.endOffset_le_size hi
    · intro _
      rw [List.pairwise_iff_getElem]
      intro i j h h' hij _ _
      have hi : i < c.files.length := c.length_records ▸ h
      have hj : j < c.files.length := c.length_records ▸ h'
      obtain ⟨hoffset, hlength⟩ := c.number_explicit hsize hf hi
      obtain ⟨hoffset', hlength'⟩ := c.number_explicit hsize hf hj
      rw [c.getElem_records hi h, c.getElem_records hj h', hoffset, hlength, hoffset', hlength']
      exact c.offsetOf_apart hi hj (Nat.ne_of_lt hij)
  | ends field =>
    rw [FlatArchive.exists_ofBytes_iff_of_ends hf hlimit]
    refine ⟨_, c.hasDirectory, ?_⟩
    rw [c.records_table, c.endOffset_table]
    have hroom : c.directoryEnd ≤ c.toBytes.size := c.hasDirectory.fits
    have hgreatest : Record.greatest field c.records ≤ c.toBytes.size - c.directoryEnd := by
      rw [Record.greatest_le_iff, List.forall_mem_iff_getElem]
      intro i h
      have hi : i < c.files.length := c.length_records ▸ h
      have hend := c.number_ends hsize hf hi
      have hle := c.endOffset_le_size hi
      rw [c.getElem_records hi h]
      omega
    omega
  | starts field =>
    rw [FlatArchive.exists_ofBytes_iff_of_starts hf hlimit]
    refine ⟨_, c.hasDirectory, ?_⟩
    rw [c.records_table]
    constructor
    · rw [List.isChain_iff_getElem]
      intro i h
      have hi : i + 1 < c.files.length := c.length_records ▸ h
      have hi' : i < c.files.length := Nat.lt_of_succ_lt hi
      rw [c.getElem_records hi' (Nat.lt_of_succ_lt h), c.getElem_records hi h,
        c.number_starts hsize hf hi', c.number_starts hsize hf hi]
      exact c.startAt_mono (Nat.le_succ i)
    · intro r hr
      obtain ⟨i, h, rfl⟩ := List.mem_iff_getElem.mp (List.mem_of_getLast? hr)
      have hi : i < c.files.length := c.length_records ▸ h
      rw [c.getElem_records hi h, c.number_starts hsize hf hi]
      exact c.startAt_le_size (by rw [c.length_order]; omega)

section Entries

variable {a : FlatArchive f} {e : Entry} (ha : FlatArchive.ofBytes f c.toBytes = .ok a)

include ha

theorem directory_eq : a.directory = c.hasDirectory.table := by
  obtain ⟨count, h, hdirectory, -⟩ :=
    (FlatArchive.ofBytes_eq_ok_iff_lists (c.size_lt_wordLimit hsize)).mp ha
  obtain rfl := c.hasDirectory.count_unique h
  exact hdirectory

/-- Every entry is described by the record of a file. -/
theorem describes (he : e ∈ a.entries) : ∃ hi : e.index < c.files.length,
    f.Describes c.directoryEnd (c.recordOf hi) e := by
  have hentries := (FlatArchive.isOpen_of_ofBytes ha).1.readEntries_eq
  rw [c.directory_eq hsize ha] at hentries
  obtain ⟨hi, hdescribes⟩ := exists_record_of_readEntries hentries he
  have hrecord : c.hasDirectory.table.record ⟨e.index, hi⟩ = c.recordOf hi := by
    have h : e.index < c.records.length := c.length_records.symm ▸ hi
    rw [← c.getElem_records hi h]
    simp only [← c.records_table, Table.records, List.getElem_ofFn]
  exact ⟨hi, hrecord ▸ hdescribes⟩

theorem name_eq (he : e ∈ a.entries) : ∃ hi : e.index < c.files.length,
    e.name = Text.ShiftJis.decode c.files[e.index].name := by
  obtain ⟨hi, hdescribes⟩ := c.describes hsize ha he
  exact ⟨hi, by rw [hdescribes.name_eq, string_of_updateRecord (c.updateRecord_eq hsize hi),
    StoredFile.string_named]⟩

theorem isStored_of_explicit {offset size : Field} {decompressed : Option Field}
    (hf : f.placing = .explicit offset size decompressed) (he : e ∈ a.entries) : c.IsStored e := by
  obtain ⟨hi, hdescribes⟩ := c.describes hsize ha he
  have hplaced := hdescribes.placed_of_updateRecord (c.updateRecord_eq hsize hi)
  simp only [hf] at hplaced
  obtain ⟨k, hk, hindex, hstart, hend⟩ := c.exists_place hi
  exact ⟨k, hk, hindex, hplaced.1.trans hstart,
    by rw [Entry.endOffset, hplaced.1, hplaced.2, hend]⟩

theorem endOffset_of_ends {field : Field} (hf : f.placing = .ends field) (he : e ∈ a.entries) :
    ∃ k, ∃ hk : k < c.order.length, c.order[k] = e.index ∧ e.endOffset = c.startAt (k + 1) := by
  obtain ⟨hi, hdescribes⟩ := c.describes hsize ha he
  have hplaced := hdescribes.placed
  simp only [hf] at hplaced
  rw [c.number_ends hsize hf hi] at hplaced
  obtain ⟨k, hk, hindex, -, hend⟩ := c.exists_place hi
  exact ⟨k, hk, hindex, hplaced.trans hend⟩

/-- Where ends are stated the entries are listed as their payloads are stored: ends tell the order,
as no payload is empty. -/
theorem map_index_of_ends {field : Field} (hf : f.placing = .ends field) :
    a.entries.map (·.index) = c.order := by
  obtain ⟨hopen, -⟩ := FlatArchive.isOpen_of_ofBytes ha
  have hperm := hopen.index_perm
  rw [c.directory_eq hsize ha] at hperm
  have hsorted : (a.entries.map (·.index)).Pairwise
      fun i j => c.order.idxOf i ≤ c.order.idxOf j := by
    rw [List.pairwise_map]
    refine (hopen.pairwise_endsBefore hf).imp_of_mem ?_
    intro d e hd he hbefore
    obtain ⟨k, hk, hindex, hend⟩ := c.endOffset_of_ends hsize ha hf hd
    obtain ⟨l, hl, hindex', hend'⟩ := c.endOffset_of_ends hsize ha hf he
    rw [← hindex, ← hindex', c.nodup_order.idxOf_getElem, c.nodup_order.idxOf_getElem]
    by_contra hlt
    have := c.startAt_lt hf (j := l + 1) (k := k + 1) (by omega) hk
    unfold Entry.EndsBefore at hbefore
    omega
  have hstored : c.order.Pairwise fun i j => c.order.idxOf i ≤ c.order.idxOf j := by
    rw [List.pairwise_iff_getElem]
    intro k l hk hl hkl
    rw [c.nodup_order.idxOf_getElem, c.nodup_order.idxOf_getElem]
    exact Nat.le_of_lt hkl
  refine List.Perm.eq_of_pairwise ?_ hsorted hstored (hperm.trans c.order_perm.symm)
  intro i j hi hj hij hji
  have hmem := (hperm.trans c.order_perm.symm).subset hi
  exact (List.idxOf_inj hmem).mp (Nat.le_antisymm hij hji)

theorem isStored_of_ends {field : Field} (hf : f.placing = .ends field) (he : e ∈ a.entries) :
    c.IsStored e := by
  obtain ⟨hopen, -⟩ := FlatArchive.isOpen_of_ofBytes ha
  have htiles := hopen.tiles_of_ends hf
  rw [c.directory_eq hsize ha, c.endOffset_table] at htiles
  have hindex := c.map_index_of_ends hsize ha hf
  -- The entry at a position is that of the payload stored there, so it ends where that does.
  have hends : ∀ {k : Nat} {e : Entry}, a.entries[k]? = some e → ∃ hk : k < c.order.length,
      c.order[k] = e.index ∧ e.endOffset = c.startAt (k + 1) := by
    intro k e he
    have hk : c.order[k]? = some e.index := by rw [← hindex, List.getElem?_map, he]; rfl
    obtain ⟨hlt, hget⟩ := List.getElem?_eq_some_iff.mp hk
    obtain ⟨l, hl, hsame, hend⟩ := c.endOffset_of_ends hsize ha hf (List.mem_of_getElem? he)
    obtain rfl := c.nodup_order.getElem_inj_iff.mp (hget.trans hsame.symm)
    exact ⟨hlt, hget, hend⟩
  obtain ⟨k, hk⟩ := List.mem_iff_getElem?.mp he
  obtain ⟨hlt, hget, hend⟩ := hends hk
  refine ⟨k, hlt, hget, ?_, hend⟩
  cases k with
  | zero => rw [htiles.head hk, c.startAt_zero]
  | succ k =>
    obtain ⟨d, hd⟩ := exists_getElem?_of_succ hk
    rw [htiles.succ hd hk]
    exact (hends hd).2.2

theorem isStored_of_starts {field : Field} (hf : f.placing = .starts field) (he : e ∈ a.entries) :
    c.IsStored e := by
  obtain ⟨hopen, hdata⟩ := FlatArchive.isOpen_of_ofBytes ha
  obtain ⟨⟨start, htiles⟩, hlast⟩ := hopen.tiles_of_starts hf
  have horder := c.storable
  simp only [Storable, hf] at horder
  have hlength : a.entries.length = c.order.length := by
    rw [hopen.length_entries, c.directory_eq hsize ha, c.length_order]
    rfl
  have hstarts : ∀ {k : Nat} {e : Entry}, a.entries[k]? = some e → e.index = k ∧
      e.offset = c.startAt k := by
    intro k e he
    obtain rfl := hopen.index_eq (by simp [hf]) he
    obtain ⟨hi, hdescribes⟩ := c.describes hsize ha (List.mem_of_getElem? he)
    have hplaced := hdescribes.placed
    simp only [hf] at hplaced
    rw [c.number_starts hsize hf hi] at hplaced
    exact ⟨rfl, hplaced⟩
  obtain ⟨k, hk⟩ := List.mem_iff_getElem?.mp he
  obtain ⟨rfl, hoffset⟩ := hstarts hk
  have hlt : e.index < c.order.length := hlength ▸ (List.getElem?_eq_some_iff.mp hk).1
  refine ⟨e.index, hlt, by simp [horder], hoffset, ?_⟩
  by_cases hnext : e.index + 1 < a.entries.length
  · have hd := List.getElem?_eq_getElem hnext
    rw [← htiles.succ hk hd]
    exact (hstarts hd).2
  · have hend : e.index + 1 = a.entries.length := by omega
    rw [hlast e (by rw [List.getLast?_eq_getElem?, ← hend]; exact hk), hdata, hend, hlength,
      c.startAt_length]

theorem isStored (he : e ∈ a.entries) : c.IsStored e := by
  cases hf : f.placing with
  | explicit offset size decompressed => exact c.isStored_of_explicit hsize ha hf he
  | ends field => exact c.isStored_of_ends hsize ha hf he
  | starts field => exact c.isStored_of_starts hsize ha hf he

theorem map_index : a.entries.map (·.index) = c.listing := by
  obtain ⟨hopen, -⟩ := FlatArchive.isOpen_of_ofBytes ha
  have hrecords : (∀ field, f.placing ≠ .ends field) →
      a.entries.map (·.index) = List.range c.files.length := by
    intro hf
    rw [hopen.map_index_eq_range hf, c.directory_eq hsize ha]
    rfl
  unfold listing
  cases hf : f.placing with
  | explicit offset size decompressed => exact hrecords (by simp [hf])
  | ends field => exact c.map_index_of_ends hsize ha hf
  | starts field => exact hrecords (by simp [hf])

end Entries

end Small

/-- An archive made from files opens. It lists the files in their order, or as their payloads are
stored where records state ends, each under what its name reads as and with its own payload. -/
theorem opens_with_stored_files (hsize : c.toBytes.size < numberBound 4) :
    ∃ a, FlatArchive.ofBytes f c.toBytes = .ok a ∧
      List.Forall₂ (fun i e => ∃ file, c.files[i]? = some file ∧ e.index = i ∧
          e.name = Text.ShiftJis.decode file.name ∧ e.read c.toBytes = .ok file.payload)
        c.listing a.entries := by
  obtain ⟨a, ha⟩ := c.exists_ofBytes hsize
  refine ⟨a, ha, ?_⟩
  rw [← c.map_index hsize ha, List.forall₂_map_left_iff, List.forall₂_same]
  intro e he
  obtain ⟨hi, hname⟩ := c.name_eq hsize ha he
  have hfile := List.getElem?_eq_getElem hi
  exact ⟨_, hfile, rfl, hname, c.read_of_isStored (c.isStored hsize ha he) hfile⟩

/-- Three files whose records state ends, stored in another order than that of the records. -/
def permuted : Contents (.startDat .endOffset) where
  header := toLittleEndian 4 3 ++ List.replicate 12 0
  files := [⟨[0x61], #[1, 2], Record.zeroed _, by decide, by decide⟩,
    ⟨[0x62], #[3, 4, 5], Record.zeroed _, by decide, by decide⟩,
    ⟨[0x63], #[6], Record.zeroed _, by decide, by decide⟩]
  order := [2, 0, 1]
  header_eq := .endOffsetPlain rfl (by decide) (by decide)
  order_perm := by decide
  storable := by simp [Storable, placing]

theorem opens_with_stored_files_permuted : permuted.toBytes.size < numberBound 4 ∧
    ∃ a, FlatArchive.ofBytes (.startDat .endOffset) permuted.toBytes = .ok a ∧
      a.entries.map (fun e => (e.index, e.name, e.read permuted.toBytes)) =
        [(2, "c", .ok #[6]), (0, "a", .ok #[1, 2]), (1, "b", .ok #[3, 4, 5])] := by
  have hsize : permuted.toBytes.size < numberBound 4 := by decide +kernel
  obtain ⟨a, ha, hfiles⟩ := permuted.opens_with_stored_files hsize
  have hlisting : permuted.listing = [2, 0, 1] := rfl
  rw [hlisting] at hfiles
  obtain ⟨c, entries₂, ⟨_, ⟨⟩, hindex₁, hname₁, hread₁⟩, hfiles₂, hentries⟩ :=
    List.forall₂_cons_left_iff.mp hfiles
  obtain ⟨d, entries₃, ⟨_, ⟨⟩, hindex₂, hname₂, hread₂⟩, hfiles₃, rfl⟩ :=
    List.forall₂_cons_left_iff.mp hfiles₂
  obtain ⟨e, entries₄, ⟨_, ⟨⟩, hindex₃, hname₃, hread₃⟩, hnil, rfl⟩ :=
    List.forall₂_cons_left_iff.mp hfiles₃
  obtain rfl := List.forall₂_nil_left_iff.mp hnil
  refine ⟨hsize, a, ha, ?_⟩
  simp only [hentries, List.map_cons, List.map_nil, hindex₁, hindex₂, hindex₃, hname₁, hname₂,
    hname₃, hread₁, hread₂, hread₃]
  decide +kernel

end Contents
end FlatFormat
end GameArchive
