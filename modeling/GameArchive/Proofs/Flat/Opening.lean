import GameArchive.Proofs.Flat.Listing
/-!
# Archives that open

What opening has checked, and what follows for the entries: they end inside the buffer, their
numbers are those of the records, each once, and each is described by the record of its number.
-/
namespace GameArchive

theorem Table.ofCount_eq_ok {l : Layout} {data : Bytes} {offset count : Nat} {t : Table l} :
    Table.ofCount l data offset count = .ok t ↔
      t.data = data ∧ t.offset = offset ∧ t.headerLength = 0 ∧ t.count = count ∧
        count * l.size < wordLimit := by
  unfold Table.ofCount Table.build
  constructor
  · intro h
    split at h
    case isTrue => cases h
    case isFalse hlimit =>
      split at h
      case isTrue => cases h; exact ⟨rfl, rfl, rfl, rfl, Nat.lt_of_not_le hlimit⟩
      case isFalse => cases h
  · obtain ⟨_, _, _, _, hfits⟩ := t
    rintro ⟨rfl, rfl, rfl, rfl, hlimit⟩
    rw [if_neg (Nat.not_le.mpr hlimit), dif_pos hfits]

/-- The table with other bytes around its records, as many as reach to its end at least. -/
def Table.inBytes {l : Layout} (t : Table l) (data : Bytes) (h : t.endOffset ≤ data.size) :
    Table l :=
  { t with data, fits := h }

/-- What a directory lists depends on its records, and on the size of the buffer only where the last
payload reaches to its end. -/
theorem FlatFormat.readEntries_congr {f : FlatFormat} {t t' : Table f.layout}
    (hrecords : t'.records = t.records) (hend : t'.endOffset = t.endOffset)
    (hsize : ∀ field, f.placing = .starts field → t'.data.size = t.data.size) :
    f.readEntries t' = f.readEntries t := by
  unfold readEntries
  rw [hrecords, hend]
  cases hf : f.placing with
  | explicit offset size decompressed => rfl
  | ends field => rfl
  | starts field => dsimp only; rw [hsize field hf]

namespace FlatArchive

variable {f : FlatFormat} {a : FlatArchive f} {data : Bytes} {i : Nat} {e : Entry}

/-- What opening has checked of an archive. -/
structure IsOpen (a : FlatArchive f) : Prop where
  offset_eq : a.directory.offset = f.headerSize
  headerLength_eq : a.directory.headerLength = 0
  readCount_eq : f.readCount a.data = .ok a.directory.count
  readEntries_eq : f.readEntries a.directory = .ok a.entries
  endOffset_le : ∀ e ∈ a.entries, e.endOffset ≤ a.data.size

theorem ofBytes_eq_ok : ofBytes f data = .ok a ↔
    a.data = data ∧ a.IsOpen ∧ a.directory.count * f.layout.size < wordLimit ∧
      checkExtents data.size f.isDisjoint a.entries = .ok () := by
  constructor
  · intro h
    obtain ⟨t, ht, h⟩ := bind_eq_ok.mp h
    obtain ⟨entries, hentries, h⟩ := bind_eq_ok.mp h
    obtain ⟨⟨⟩, hextents, h⟩ := bind_eq_ok.mp h
    cases h
    obtain ⟨count, hcount, ht⟩ := bind_eq_ok.mp ht
    obtain ⟨rfl, hoffset, hlength, rfl, hlimit⟩ := Table.ofCount_eq_ok.mp ht
    have hends := (checkExtents_eq_ok.mp hextents).1
    exact ⟨rfl, ⟨hoffset, hlength, hcount, hentries, fun e he => (hends e he).2⟩, hlimit, hextents⟩
  · rintro ⟨rfl, ha, hlimit, hextents⟩
    have ht : Table.ofCount f.layout a.data f.headerSize a.directory.count = .ok a.directory :=
      Table.ofCount_eq_ok.mpr ⟨rfl, ha.offset_eq, ha.headerLength_eq, rfl, hlimit⟩
    rw [ofBytes, FlatFormat.readDirectory, ha.readCount_eq]
    show (Table.ofCount _ _ _ _ >>= _) = _
    rw [ht]
    show (f.readEntries a.directory >>= _) = _
    rw [ha.readEntries_eq]
    show (checkExtents _ _ _ >>= _) = _
    rw [hextents]
    rfl

theorem isOpen_of_ofBytes (h : ofBytes f data = .ok a) : a.IsOpen ∧ a.data = data :=
  ⟨(ofBytes_eq_ok.mp h).2.1, (ofBytes_eq_ok.mp h).1⟩

namespace IsOpen

theorem entriesOffset_eq (h : a.IsOpen) : a.directory.entriesOffset = f.headerSize := by
  rw [Table.entriesOffset, h.offset_eq, h.headerLength_eq, Nat.add_zero]

theorem recordOffset_eq (h : a.IsOpen) :
    a.directory.recordOffset i = f.headerSize + i * f.layout.size := by
  rw [Table.recordOffset, h.entriesOffset_eq]

theorem directoryEnd_eq (h : a.IsOpen) :
    a.directory.endOffset = f.headerSize + a.directory.count * f.layout.size := by
  rw [Table.endOffset, h.entriesOffset_eq]

theorem directoryEnd_le (_ : a.IsOpen) : a.directory.endOffset ≤ a.data.size :=
  a.directory.fits

theorem headerSize_le (h : a.IsOpen) : f.headerSize ≤ a.directory.endOffset := by
  rw [h.directoryEnd_eq]
  exact Nat.le_add_right _ _

/-- The record of each number lies behind the header and ends inside the directory. -/
theorem recordOffset_add_size_le (h : a.IsOpen) (hi : i < a.directory.count) :
    a.directory.recordOffset i + f.layout.size ≤ a.directory.endOffset := by
  have hmul : (i + 1) * f.layout.size ≤ a.directory.count * f.layout.size :=
    Nat.mul_le_mul_right _ hi
  rw [Nat.add_mul, Nat.one_mul] at hmul
  rw [h.recordOffset_eq, h.directoryEnd_eq]
  omega

theorem forall₂_lists (h : a.IsOpen) :
    List.Forall₂ (f.Lists a.directory.endOffset) (f.order a.directory) a.entries :=
  FlatFormat.lists_of_readEntries h.readEntries_eq

theorem map_index (h : a.IsOpen) : a.entries.map (·.index) = (f.order a.directory).map (·.2) := by
  have hlists := h.forall₂_lists
  generalize a.entries = entries at hlists ⊢
  generalize f.order a.directory = order at hlists ⊢
  induction hlists with
  | nil => rfl
  | cons hx _ ih => rw [List.map_cons, List.map_cons, hx.1, ih]

theorem index_perm (h : a.IsOpen) :
    (a.entries.map (·.index)).Perm (List.range a.directory.count) := by
  rw [h.map_index]
  refine ((FlatFormat.order_perm a.directory).map (·.2)).trans ?_
  rw [List.zipIdx_map_snd, Table.records, List.length_ofFn, List.range_eq_range']

theorem length_entries (h : a.IsOpen) : a.entries.length = a.directory.count := by
  have := h.index_perm.length_eq
  rwa [List.length_map, List.length_range] at this

theorem index_nodup (h : a.IsOpen) : (a.entries.map (·.index)).Nodup :=
  h.index_perm.nodup_iff.mpr List.nodup_range

theorem index_lt (h : a.IsOpen) (he : e ∈ a.entries) : e.index < a.directory.count :=
  List.mem_range.mp (h.index_perm.subset (List.mem_map_of_mem he))

theorem exists_entry_of_lt (h : a.IsOpen) {k : Nat} (hk : k < a.directory.count) :
    ∃ (i : Nat) (e : Entry), a.entries[i]? = some e ∧ e.index = k := by
  obtain ⟨e, he, hindex⟩ := List.mem_map.mp (h.index_perm.mem_iff.mpr (List.mem_range.mpr hk))
  obtain ⟨i, hi⟩ := List.mem_iff_getElem?.mp he
  exact ⟨i, e, hi, hindex⟩

theorem describes (h : a.IsOpen) (he : e ∈ a.entries) :
    f.Describes a.directory.endOffset (a.directory.record ⟨e.index, h.index_lt he⟩) e :=
  (FlatFormat.exists_record_of_readEntries h.readEntries_eq he).2

/-- Except where ends alone are stated, the entries stand in the order of the records. -/
theorem index_eq (h : a.IsOpen) (hf : ∀ field, f.placing ≠ .ends field)
    (he : a.entries[i]? = some e) : e.index = i := by
  have horder : f.order a.directory = a.directory.records.zipIdx := by
    unfold FlatFormat.order
    cases hp : f.placing with
    | explicit offset size decompressed => rfl
    | ends field => exact absurd hp (hf field)
    | starts field => rfl
  have hi : (a.entries.map (·.index))[i]? = some e.index := by rw [List.getElem?_map, he]; rfl
  rw [h.map_index, horder, List.zipIdx_map_snd] at hi
  obtain ⟨hlt, hi⟩ := List.getElem?_eq_some_iff.mp hi
  rw [List.getElem_range'] at hi
  omega

theorem tiles_of_ends (h : a.IsOpen) {field : Field} (hf : f.placing = .ends field) :
    Tiles a.directory.endOffset a.entries := by
  have hr := h.readEntries_eq
  unfold FlatFormat.readEntries at hr
  rw [hf] at hr
  rw [← Except.ok.inj hr]
  exact (FlatFormat.consecutiveEntries_spec hf (FlatFormat.byEnd_pairwise _ _)
    fun _ _ => Nat.le_add_right _ _).2

theorem tiles_of_starts (h : a.IsOpen) {field : Field} (hf : f.placing = .starts field) :
    (∃ start, Tiles start a.entries) ∧
      ∀ e, a.entries.getLast? = some e → e.endOffset = a.data.size :=
  FlatFormat.tiles_of_starts hf h.readEntries_eq

end IsOpen
end FlatArchive
end GameArchive
