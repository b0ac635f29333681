import GameArchive.Proofs.Flat.Headers
/-!
# Archives whose records state offsets and sizes

Opening such an archive refuses nothing but what the format forbids: there has to be a directory,
each payload has to end within the buffer, and in some formats no two may share a byte. The entries
then are the records, one by one, and each can be read.
-/
namespace GameArchive.FlatArchive

variable {f : FlatFormat} {data : Bytes} {offset size : Field} {decompressed : Option Field}

theorem offset_explicitEntry {r : Record f.layout} {i : Nat} :
    (f.explicitEntry offset size decompressed r i).offset = r.number offset := by
  cases decompressed <;> rfl

theorem size_explicitEntry {r : Record f.layout} {i : Nat} :
    (f.explicitEntry offset size decompressed r i).size = r.number size := by
  cases decompressed <;> rfl

/-- Whether the payloads that two records state have no byte in common. -/
def StatedApart (offset size : Field) (r s : Record f.layout) : Prop :=
  0 < r.number size → 0 < s.number size →
    r.number offset + r.number size ≤ s.number offset ∨
      s.number offset + s.number size ≤ r.number offset

instance (offset size : Field) (r s : Record f.layout) : Decidable (StatedApart offset size r s) :=
  inferInstanceAs (Decidable (_ → _ → _))

theorem checkExtents_explicit (hsize : data.size < wordLimit) {disjoint : Bool}
    {records : List (Record f.layout)} :
    checkExtents data.size disjoint
        (records.zipIdx.map fun x => f.explicitEntry offset size decompressed x.1 x.2) = .ok () ↔
      (∀ r ∈ records, r.number offset + r.number size ≤ data.size) ∧
        (disjoint = true → records.Pairwise (StatedApart offset size)) := by
  have hrecords : records.zipIdx.map Prod.fst = records := List.zipIdx_map_fst 0 records
  have hends : (∀ r ∈ records, r.number offset + r.number size ≤ data.size) ↔
      ∀ x ∈ records.zipIdx, x.1.number offset + x.1.number size ≤ data.size := by
    conv_lhs => rw [← hrecords]
    exact List.forall_mem_map
  have hapart : records.Pairwise (StatedApart offset size) ↔
      records.zipIdx.Pairwise fun x y => StatedApart offset size x.1 y.1 := by
    conv_lhs => rw [← hrecords]
    exact List.pairwise_map
  rw [checkExtents_eq_ok, hends, hapart, List.forall_mem_map, List.pairwise_map]
  simp only [Entry.Apart, Entry.endOffset, offset_explicitEntry, size_explicitEntry]
  constructor
  · rintro ⟨hfits, hdisjoint⟩
    exact ⟨fun x hx => (hfits x hx).2, hdisjoint⟩
  · rintro ⟨hfits, hdisjoint⟩
    exact ⟨fun x hx => ⟨Nat.lt_of_le_of_lt (hfits x hx) hsize, hfits x hx⟩, hdisjoint⟩

theorem readEntries_of_explicit (hf : f.placing = .explicit offset size decompressed)
    (t : Table f.layout) : f.readEntries t =
      .ok (t.records.zipIdx.map fun x => f.explicitEntry offset size decompressed x.1 x.2) := by
  rw [FlatFormat.readEntries, hf]

/-- An archive whose records state offsets and sizes opens exactly when a directory stands in the
buffer, each payload ends within the buffer, and in PSPFS archives no two payloads share a byte.
Its entries then have the offsets and sizes of the records in order, and the bytes that lie there
are what is read. Buffers in memory are smaller than the bound of lengths. -/
theorem opens_iff_extents_stated (hf : f.placing = .explicit offset size decompressed)
    (hsize : data.size < wordLimit) :
    ((∃ a, ofBytes f data = .ok a) ↔ ∃ count, ∃ h : f.HasDirectory data count,
      (∀ r ∈ h.table.records, r.number offset + r.number size ≤ data.size) ∧
        ∀ variant, f = .pspfs variant → h.table.records.Pairwise (StatedApart offset size)) ∧
    ∀ a, ofBytes f data = .ok a → ∃ count, ∃ h : f.HasDirectory data count, a.directory = h.table ∧
      List.Forall₂ (fun r e => e.offset = r.number offset ∧ e.size = r.number size ∧
          e.read data =
            .ok (data.extract (r.number offset) (r.number offset + r.number size)))
        h.table.records a.entries := by
  have hpspfs : f.isDisjoint = true ↔ ∃ variant, f = .pspfs variant := by
    cases f <;> simp [FlatFormat.isDisjoint]
  constructor
  · constructor
    · rintro ⟨a, ha⟩
      obtain ⟨count, h, -, hentries, hextents⟩ := (ofBytes_eq_ok_iff_lists hsize).mp ha
      rw [readEntries_of_explicit hf, Except.ok.injEq] at hentries
      rw [← hentries, checkExtents_explicit hsize, hpspfs] at hextents
      exact ⟨count, h, hextents.1, fun variant hvariant => hextents.2 ⟨variant, hvariant⟩⟩
    · rintro ⟨count, h, hfits, hapart⟩
      refine ⟨⟨h.table, _⟩, (ofBytes_eq_ok_iff_lists hsize).mpr
        ⟨count, h, rfl, readEntries_of_explicit hf _, ?_⟩⟩
      rw [checkExtents_explicit hsize, hpspfs]
      exact ⟨hfits, fun ⟨variant, hvariant⟩ => hapart variant hvariant⟩
  · intro a ha
    obtain ⟨count, h, hdirectory, hentries, hextents⟩ := (ofBytes_eq_ok_iff_lists hsize).mp ha
    rw [readEntries_of_explicit hf, Except.ok.injEq] at hentries
    refine ⟨count, h, hdirectory, ?_⟩
    rw [← hentries, checkExtents_explicit hsize] at hextents
    rw [← hentries, List.forall₂_map_right_iff]
    conv => arg 2; rw [← List.zipIdx_map_fst 0 h.table.records]
    rw [List.forall₂_map_left_iff, List.forall₂_same]
    intro x hx
    have hr : x.1 ∈ h.table.records := by
      rw [← List.zipIdx_map_fst 0 h.table.records]
      exact List.mem_map_of_mem hx
    refine ⟨offset_explicitEntry, size_explicitEntry, ?_⟩
    rw [Entry.read, offset_explicitEntry, size_explicitEntry]
    exact Bytes.slice_of_le (hextents.1 x.1 hr)

/-- An archive whose payloads lie in another order than its records, an empty one inside the
first. -/
def unsortedPayloads : Bytes :=
  (FlatFormat.pspfsMagic ++ [3, 0, 0, 0, 0, 0, 0, 0] ++
    [0x61] ++ List.replicate 23 0 ++ [3, 0, 0, 0, 0x72, 0, 0, 0] ++
    [0x62] ++ List.replicate 23 0 ++ [0, 0, 0, 0, 0x73, 0, 0, 0] ++
    [0x63] ++ List.replicate 23 0 ++ [2, 0, 0, 0, 0x70, 0, 0, 0] ++ [1, 2, 3, 4, 5]).toArray

theorem opens_iff_extents_stated_unsortedPayloads :
    unsortedPayloads.size < wordLimit ∧ ∃ a : FlatArchive (.pspfs .psp),
      ofBytes (.pspfs .psp) unsortedPayloads = .ok a ∧
      a.entries.map (fun e => (e.offset, e.size, e.read unsortedPayloads)) =
        [(0x72, 3, .ok #[3, 4, 5]), (0x73, 0, .ok #[]), (0x70, 2, .ok #[1, 2])] := by
  have hsize : unsortedPayloads.size < wordLimit := by decide +kernel
  obtain ⟨hopens, hlists⟩ := opens_iff_extents_stated (f := .pspfs .psp) rfl hsize
  let stated (r : Record (FlatFormat.layout (.pspfs .psp))) : Nat × Nat :=
    (r.number (FlatFormat.offsetAt 0x1C), r.number (FlatFormat.sizeAt 0x18))
  obtain ⟨h, hfits, hapart, hstated⟩ :
      ∃ h : FlatFormat.HasDirectory (.pspfs .psp) unsortedPayloads 3,
        (∀ r ∈ h.table.records, (stated r).1 + (stated r).2 ≤ unsortedPayloads.size) ∧
        h.table.records.Pairwise (StatedApart (FlatFormat.offsetAt 0x1C) (FlatFormat.sizeAt 0x18)) ∧
        h.table.records.map stated = [(0x72, 3), (0x73, 0), (0x70, 2)] :=
    ⟨⟨⟨_, .pspfs nofun (by decide), [], unsortedPayloads.toList.drop 16, by decide +kernel, rfl⟩,
      by decide +kernel⟩, by decide +kernel⟩
  obtain ⟨a, ha⟩ := hopens.mpr ⟨3, h, hfits, fun _ _ => hapart⟩
  obtain ⟨count, h', -, hentries⟩ := hlists a ha
  obtain rfl := h.count_unique h'
  have hread : List.map (fun s => (s.1, s.2, unsortedPayloads.slice s.1 s.2))
      (h.table.records.map stated) =
      a.entries.map fun e => (e.offset, e.size, e.read unsortedPayloads) := by
    rw [List.map_map, ← List.forall₂_eq_eq_eq, List.forall₂_map_left_iff, List.forall₂_map_right_iff]
    refine hentries.imp ?_
    rintro r e ⟨hoffset, hlength, -⟩
    rw [Entry.read, hoffset, hlength]
    rfl
  rw [hstated] at hread
  refine ⟨hsize, a, ha, hread.symm.trans ?_⟩
  decide +kernel

end GameArchive.FlatArchive
