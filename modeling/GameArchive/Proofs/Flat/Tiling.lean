import GameArchive.Proofs.Flat.EndOrder
import GameArchive.Proofs.Flat.Headers
/-!
# Archives whose payloads fill a range

Where records state only ends, or only starts, sizes are differences of neighbours. They are never
taken below zero, and the payloads fill the range that they share without gap or overlap: from the
end of the directory to the greatest end stated, or from the first start to the end of the buffer.
-/
namespace GameArchive

/-- The entries take the bytes from `start` to `stop`, each from where the one before it ends. -/
def Fills : (start stop : Nat) → List Entry → Prop
  | start, stop, [] => start = stop
  | start, stop, e :: rest => e.offset = start ∧ Fills e.endOffset stop rest

theorem fills_of_tiles {start stop : Nat} {entries : List Entry} (h : Tiles start entries)
    (hnil : entries = [] → start = stop)
    (hlast : ∀ e, entries.getLast? = some e → e.endOffset = stop) : Fills start stop entries := by
  induction entries generalizing start with
  | nil => exact hnil rfl
  | cons e rest ih =>
    obtain ⟨hoffset, hrest⟩ := h
    refine ⟨hoffset, ih hrest ?_ ?_⟩
    · rintro rfl
      exact hlast e rfl
    · intro d hd
      cases rest with
      | nil => cases hd
      | cons c rest => exact hlast d (by rwa [List.getLast?_cons_cons])

namespace Record

variable {l : Layout}

/-- The greatest number that records hold in a field, or zero where there are none. -/
def greatest (field : Field) (records : List (Record l)) : Nat :=
  records.foldr (fun r bound => max (r.number field) bound) 0

theorem greatest_le_iff {field : Field} {records : List (Record l)} {bound : Nat} :
    greatest field records ≤ bound ↔ ∀ r ∈ records, r.number field ≤ bound := by
  induction records with
  | nil => simp [greatest]
  | cons r rest ih =>
    rw [List.forall_mem_cons, ← ih]
    exact Nat.max_le

theorem number_le_greatest (field : Field) {records : List (Record l)} {r : Record l}
    (hr : r ∈ records) : r.number field ≤ greatest field records :=
  greatest_le_iff.mp (Nat.le_refl _) r hr

end Record

theorem Table.mem_records_iff {l : Layout} {t : Table l} {r : Record l} :
    r ∈ t.records ↔ ∃ i, t.record i = r := by
  rw [Table.records, List.mem_ofFn]

namespace FlatArchive

variable {f : FlatFormat} {data : Bytes} {a : FlatArchive f} {field : Field}

/-- Whether entries are those of records that state ends: sorted by end and then by number, they
fill the range from the end of the directory to the greatest end. -/
structure FilledByEnd (field : Field) (t : Table f.layout) (entries : List Entry) : Prop where
  index_perm : (entries.map (·.index)).Perm (List.range t.count)
  sorted : entries.Pairwise Entry.EndsBefore
  endOffset_eq : ∀ e ∈ entries, ∃ hi : e.index < t.count,
    e.endOffset = t.endOffset + (t.record ⟨e.index, hi⟩).number field
  fills : Fills t.endOffset (t.endOffset + Record.greatest field t.records) entries

/-- Whether entries are those of records that state starts: in the order of the records, they fill
the range from the first start to the end of the buffer. -/
structure FilledByStart (field : Field) (t : Table f.layout) (entries : List Entry) : Prop where
  index_eq : entries.map (·.index) = List.range t.count
  offset_eq : ∀ e ∈ entries, ∃ hi : e.index < t.count,
    e.offset = (t.record ⟨e.index, hi⟩).number field
  fills : ∀ e, entries[0]? = some e → Fills e.offset t.data.size entries

/-- Ends are counted from the end of the directory, whether or not there are so many bytes. -/
theorem endOffset_eq_of_readEntries (hf : f.placing = .ends field) {t : Table f.layout}
    {entries : List Entry} (h : f.readEntries t = .ok entries) :
    ∀ e ∈ entries, ∃ hi : e.index < t.count,
      e.endOffset = t.endOffset + (t.record ⟨e.index, hi⟩).number field := by
  intro e he
  obtain ⟨hi, hdescribes⟩ := FlatFormat.exists_record_of_readEntries h he
  have hplaced := hdescribes.placed
  rw [hf] at hplaced
  exact ⟨hi, hplaced⟩

namespace IsOpen

theorem filledByEnd (h : a.IsOpen) (hf : f.placing = .ends field) :
    FilledByEnd field a.directory a.entries := by
  have ht := h.tiles_of_ends hf
  have hends := endOffset_eq_of_readEntries hf h.readEntries_eq
  refine ⟨h.index_perm, h.pairwise_endsBefore hf, hends, fills_of_tiles ht ?_ ?_⟩
  · intro hnil
    have hcount : a.directory.count = 0 := by rw [← h.length_entries, hnil]; rfl
    have hnone : Record.greatest field a.directory.records ≤ 0 := by
      rw [Record.greatest_le_iff]
      intro r hr
      obtain ⟨i, -⟩ := Table.mem_records_iff.mp hr
      exact absurd i.isLt (by omega)
    omega
  · intro e hlast
    obtain ⟨hi, hend⟩ := hends e (List.mem_of_getLast? hlast)
    rw [hend]
    apply congrArg
    apply Nat.le_antisymm
    · exact Record.number_le_greatest field (Table.mem_records_iff.mpr ⟨_, rfl⟩)
    · rw [Record.greatest_le_iff]
      intro r hr
      obtain ⟨⟨k, hk⟩, rfl⟩ := Table.mem_records_iff.mp hr
      -- The record of number `k` is listed, and no entry ends behind the last one.
      obtain ⟨j, d, hd, rfl⟩ := h.exists_entry_of_lt hk
      have hle : d.endOffset ≤ e.endOffset :=
        ht.endOffset_le_of_last (fun c hc => by rw [Option.some.inj (hc.symm.trans hlast)]) d
          (List.mem_of_getElem? hd)
      obtain ⟨_, hdend⟩ := hends d (List.mem_of_getElem? hd)
      omega

/-- Except where ends alone are stated, the entries are listed as their records are. -/
theorem map_index_eq_range (h : a.IsOpen) (hf : ∀ field, f.placing ≠ .ends field) :
    a.entries.map (·.index) = List.range a.directory.count := by
  apply List.ext_getElem
  · rw [List.length_map, List.length_range, h.length_entries]
  · intro i hi hi'
    rw [List.getElem_map, List.getElem_range]
    exact h.index_eq hf (List.getElem?_eq_getElem (by simpa using hi))

theorem filledByStart (h : a.IsOpen) (hf : f.placing = .starts field) :
    FilledByStart field a.directory a.entries := by
  obtain ⟨⟨start, ht⟩, hlast⟩ := h.tiles_of_starts hf
  refine ⟨h.map_index_eq_range (by simp [hf]), ?_, ?_⟩
  · intro e he
    have hplaced := (h.describes he).placed
    rw [hf] at hplaced
    exact ⟨h.index_lt he, hplaced⟩
  · intro e he
    rw [ht.head he]
    refine fills_of_tiles ht (fun hnil => ?_) hlast
    rw [hnil] at he
    cases he

/-- The record of the entry at a position states where it starts. -/
theorem number_of_starts (h : a.IsOpen) (hf : f.placing = .starts field) {i : Nat}
    (hi : i < a.directory.count) : ∃ e, a.entries[i]? = some e ∧
      (a.directory.record ⟨i, hi⟩).number field = e.offset := by
  have hlt : i < a.entries.length := h.length_entries.symm ▸ hi
  have he := List.getElem?_eq_getElem hlt
  have hindex := h.index_eq (by simp [hf]) he
  obtain ⟨hi', hoffset⟩ := (h.filledByStart hf).offset_eq _ (List.mem_of_getElem? he)
  simp only [hindex] at hoffset
  exact ⟨_, he, hoffset.symm⟩

end IsOpen

/-- With ends alone stated, opening asks for no more than room for the greatest of them. -/
theorem exists_ofBytes_iff_of_ends (hf : f.placing = .ends field) (hsize : data.size < wordLimit) :
    (∃ a, ofBytes f data = .ok a) ↔ ∃ count, ∃ h : f.HasDirectory data count,
      h.table.endOffset + Record.greatest field h.table.records ≤ data.size := by
  have hdisjoint : f.isDisjoint = false := by rw [FlatFormat.eq_of_placing_ends hf]; rfl
  constructor
  · rintro ⟨a, ha⟩
    obtain ⟨hopen, rfl⟩ := isOpen_of_ofBytes ha
    obtain ⟨count, h, hdirectory, -⟩ := (ofBytes_eq_ok_iff_lists hsize).mp ha
    refine ⟨count, h, ?_⟩
    rw [← hdirectory]
    have hroom := Nat.sub_add_cancel hopen.directoryEnd_le
    have hle : Record.greatest field a.directory.records ≤ a.data.size - a.directory.endOffset := by
      rw [Record.greatest_le_iff]
      intro r hr
      obtain ⟨⟨k, hk⟩, rfl⟩ := Table.mem_records_iff.mp hr
      obtain ⟨i, e, he, rfl⟩ := hopen.exists_entry_of_lt hk
      obtain ⟨_, hend⟩ := (hopen.filledByEnd hf).endOffset_eq e (List.mem_of_getElem? he)
      have hfit := hopen.endOffset_le e (List.mem_of_getElem? he)
      omega
    omega
  · rintro ⟨count, h, hfits⟩
    obtain ⟨entries, hentries⟩ : ∃ entries, f.readEntries h.table = .ok entries := by
      rw [FlatFormat.readEntries, hf]
      exact ⟨_, rfl⟩
    refine ⟨⟨h.table, entries⟩, (ofBytes_eq_ok_iff_lists hsize).mpr ⟨count, h, rfl, hentries, ?_⟩⟩
    rw [checkExtents_eq_ok, hdisjoint]
    refine ⟨fun e he => ?_, fun htrue => absurd htrue Bool.false_ne_true⟩
    obtain ⟨hi, hend⟩ := endOffset_eq_of_readEntries hf hentries e he
    have hle := Record.number_le_greatest field (Table.mem_records_iff.mpr ⟨⟨_, hi⟩, rfl⟩)
    omega

/-- With starts alone stated, opening asks that none comes before the one in front of it, and that
the last lies in the buffer. -/
theorem exists_ofBytes_iff_of_starts (hf : f.placing = .starts field)
    (hsize : data.size < wordLimit) :
    (∃ a, ofBytes f data = .ok a) ↔ ∃ count, ∃ h : f.HasDirectory data count,
      (h.table.records.IsChain fun r s => r.number field ≤ s.number field) ∧
        ∀ r ∈ h.table.records.getLast?, r.number field ≤ data.size := by
  have hdisjoint : f.isDisjoint = false := by rw [FlatFormat.eq_of_placing_starts hf]; rfl
  constructor
  · rintro ⟨a, ha⟩
    obtain ⟨hopen, rfl⟩ := isOpen_of_ofBytes ha
    obtain ⟨count, h, hdirectory, -⟩ := (ofBytes_eq_ok_iff_lists hsize).mp ha
    refine ⟨count, h, ?_⟩
    rw [← hdirectory]
    obtain ⟨⟨start, ht⟩, -⟩ := hopen.tiles_of_starts hf
    constructor
    · rw [List.isChain_iff_getElem]
      intro i hi
      rw [Table.records, List.length_ofFn] at hi
      simp only [Table.records, List.getElem_ofFn]
      obtain ⟨d, hd, hnumber⟩ := hopen.number_of_starts hf (Nat.lt_of_succ_lt hi)
      obtain ⟨e, he, hnext⟩ := hopen.number_of_starts hf hi
      rw [hnumber, hnext, ht.succ hd he]
      exact Nat.le_add_right _ _
    · intro r hr
      obtain ⟨⟨k, hk⟩, rfl⟩ := Table.mem_records_iff.mp (List.mem_of_getLast? hr)
      obtain ⟨e, he, hnumber⟩ := hopen.number_of_starts hf hk
      rw [hnumber]
      exact Nat.le_trans (Nat.le_add_right _ _) (hopen.endOffset_le e (List.mem_of_getElem? he))
  · rintro ⟨count, h, hchain, hlast⟩
    have hrecords : h.table.records.zipIdx.map Prod.fst = h.table.records := List.zipIdx_map_fst 0 _
    rw [← hrecords] at hchain hlast
    obtain ⟨entries, hentries⟩ := FlatFormat.exists_adjoiningEntries (f := f)
      ((List.isChain_map Prod.fst).mp hchain)
      fun x hx => hlast x.1 (by rw [List.getLast?_map]; exact Option.mem_map_of_mem _ hx)
    have hread : f.readEntries h.table = .ok entries := by
      rw [FlatFormat.readEntries, hf]
      exact hentries
    refine ⟨⟨h.table, entries⟩, (ofBytes_eq_ok_iff_lists hsize).mpr ⟨count, h, rfl, hread, ?_⟩⟩
    obtain ⟨⟨start, ht⟩, hend⟩ := FlatFormat.tiles_of_starts hf hread
    rw [checkExtents_eq_ok, hdisjoint]
    refine ⟨fun e he => ?_, fun htrue => absurd htrue Bool.false_ne_true⟩
    have hle := ht.endOffset_le_of_last hend e he
    exact ⟨Nat.lt_of_le_of_lt hle hsize, hle⟩

/-- The directory of an archive that opens stands in its bytes. -/
theorem exists_table_of_ofBytes (hsize : data.size < wordLimit) (h : ofBytes f data = .ok a) :
    ∃ count, ∃ hdirectory : f.HasDirectory data count, a.directory = hdirectory.table := by
  obtain ⟨count, hdirectory, htable, -⟩ := (ofBytes_eq_ok_iff_lists hsize).mp h
  exact ⟨count, hdirectory, htable⟩

/-- START.DAT archives without sizes. One that states ends starts with any 16 bytes, and opens
exactly when a directory and then as many bytes as the greatest end follow; the entries are sorted
by end and fill these bytes. Ends are no less than the starts that are taken from them even where
the bytes are missing. One that states starts begins with any count, and opens exactly when the
starts do not descend and none is behind the end of the buffer; the entries fill the bytes from the
first start on. -/
theorem startDat_opens_iff_filled (hsize : data.size < wordLimit) :
    (((∃ count header, FlatFormat.Header (.startDat .endOffset) count header ∧
          data.HoldsAt 0 header) ↔ 0x10 ≤ data.size) ∧
      ((∃ a, ofBytes (.startDat .endOffset) data = .ok a) ↔
        ∃ count, ∃ h : FlatFormat.HasDirectory (.startDat .endOffset) data count,
          h.table.endOffset + Record.greatest (FlatFormat.endAt 0) h.table.records ≤ data.size) ∧
      (∀ t entries, FlatFormat.readEntries (.startDat .endOffset) t = .ok entries →
        ∀ e ∈ entries, ∃ hi : e.index < t.count,
          e.endOffset = t.endOffset + (t.record ⟨e.index, hi⟩).number (FlatFormat.endAt 0)) ∧
      ∀ a, ofBytes (.startDat .endOffset) data = .ok a →
        (∃ count, ∃ h : FlatFormat.HasDirectory _ data count, a.directory = h.table) ∧
        FilledByEnd (FlatFormat.endAt 0) a.directory a.entries ∧
        ∀ e ∈ a.entries, e.read data = .ok (data.extract e.offset e.endOffset)) ∧
    ((∃ count header, FlatFormat.Header (.startDat .offsetOnly) count header ∧
          data.HoldsAt 0 header) ↔ 4 ≤ data.size) ∧
    ((∃ a, ofBytes (.startDat .offsetOnly) data = .ok a) ↔
      ∃ count, ∃ h : FlatFormat.HasDirectory (.startDat .offsetOnly) data count,
        (h.table.records.IsChain fun r s =>
            r.number (FlatFormat.offsetAt 0) ≤ s.number (FlatFormat.offsetAt 0)) ∧
          ∀ r ∈ h.table.records.getLast?, r.number (FlatFormat.offsetAt 0) ≤ data.size) ∧
    ∀ a, ofBytes (.startDat .offsetOnly) data = .ok a →
      (∃ count, ∃ h : FlatFormat.HasDirectory _ data count, a.directory = h.table) ∧
      FilledByStart (FlatFormat.offsetAt 0) a.directory a.entries ∧
      ∀ e ∈ a.entries, e.read data = .ok (data.extract e.offset e.endOffset) := by
  refine ⟨⟨FlatFormat.exists_header_endOffset, exists_ofBytes_iff_of_ends rfl hsize,
    fun t entries => endOffset_eq_of_readEntries rfl, ?_⟩,
    FlatFormat.exists_header_offsetOnly, exists_ofBytes_iff_of_starts rfl hsize, ?_⟩
  · intro a ha
    obtain ⟨hopen, rfl⟩ := isOpen_of_ofBytes ha
    exact ⟨exists_table_of_ofBytes hsize ha, hopen.filledByEnd rfl,
      fun e he => Entry.read_of_le (hopen.endOffset_le e he)⟩
  · intro a ha
    obtain ⟨hopen, rfl⟩ := isOpen_of_ofBytes ha
    exact ⟨exists_table_of_ofBytes hsize ha, hopen.filledByStart rfl,
      fun e he => Entry.read_of_le (hopen.endOffset_le e he)⟩

/-- An archive that states ends, not in their order and one of them twice. -/
def repeatedEnd : Bytes :=
  (([3, 0, 0, 0] : List UInt8) ++ List.replicate 12 0 ++
    [3, 0, 0, 0, 0x61] ++ List.replicate 27 0 ++ [5, 0, 0, 0, 0x62] ++ List.replicate 27 0 ++
    [3, 0, 0, 0, 0x63] ++ List.replicate 27 0 ++ [1, 2, 3, 4, 5]).toArray

theorem startDat_opens_iff_filled_repeatedEnd :
    repeatedEnd.size < wordLimit ∧ ∃ a : FlatArchive (.startDat .endOffset),
      ofBytes (.startDat .endOffset) repeatedEnd = .ok a ∧
      (a.entries.map (·.index)).Perm [0, 1, 2] ∧ a.entries.Pairwise Entry.EndsBefore ∧
      Fills 112 117 a.entries ∧
      ∀ e ∈ a.entries, e.read repeatedEnd = .ok (repeatedEnd.extract e.offset e.endOffset) := by
  have hsize : repeatedEnd.size < wordLimit := by decide +kernel
  obtain ⟨⟨-, hopens, -, hfilled⟩, -⟩ := startDat_opens_iff_filled hsize
  obtain ⟨h, hend, hgreatest⟩ :
      ∃ h : FlatFormat.HasDirectory (.startDat .endOffset) repeatedEnd 3, h.table.endOffset = 112 ∧
        Record.greatest (FlatFormat.endAt 0) h.table.records = 5 :=
    ⟨⟨⟨toLittleEndian 4 3 ++ List.replicate 12 0, .endOffsetPlain rfl (by decide) (by decide), [],
      repeatedEnd.toList.drop 16, by decide +kernel, rfl⟩, by decide +kernel⟩, by decide +kernel⟩
  have hroom : 112 + 5 ≤ repeatedEnd.size := by decide +kernel
  obtain ⟨a, ha⟩ := hopens.mpr ⟨3, h, by rw [hend, hgreatest]; exact hroom⟩
  obtain ⟨⟨count, h', hdirectory⟩, hentries, hread⟩ := hfilled a ha
  obtain rfl := h.count_unique h'
  have hfills := hentries.fills
  have hindex := hentries.index_perm
  rw [hdirectory, hend, hgreatest] at hfills
  rw [hdirectory] at hindex
  exact ⟨hsize, a, ha, hindex, hentries.sorted, hfills, hread⟩

end FlatArchive
end GameArchive
