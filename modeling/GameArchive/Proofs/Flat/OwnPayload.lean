import GameArchive.Proofs.Flat.Rebuild
/-!
# Payloads put back in their own place

A payload replaced by itself moves nothing, and each record is rewritten to what it says already.
The archive therefore opens again and lists the same entries. What may change are the bytes that
belong to no entry: those between payloads become zero, and those behind the last one go.
-/
namespace GameArchive.FlatArchive

variable {f : FlatFormat} {a b : FlatArchive f}

/-- Where the last payload ends, or the directory if it ends later. -/
def usedLength (a : FlatArchive f) : Nat :=
  max a.directory.endOffset ((a.entries.map (·.endOffset)).max?.getD 0)

/-- Where the first payload starts, or else where the directory ends if that is later. -/
def frontLength (a : FlatArchive f) : Nat :=
  max a.directory.endOffset ((a.entries.map (·.offset)).min?.getD 0)

/-- Whether position `p` is in the range of some entry. -/
def IsCovered (a : FlatArchive f) (p : Nat) : Prop :=
  ∃ e ∈ a.entries, e.offset ≤ p ∧ p < e.endOffset

theorem directoryEnd_le_usedLength (a : FlatArchive f) : a.directory.endOffset ≤ a.usedLength :=
  Nat.le_max_left _ _

theorem endOffset_le_usedLength {e : Entry} (he : e ∈ a.entries) : e.endOffset ≤ a.usedLength := by
  refine Nat.le_trans ?_ (Nat.le_max_right _ _)
  have hmem : e.endOffset ∈ a.entries.map (·.endOffset) := List.mem_map_of_mem he
  cases hmax : (a.entries.map (·.endOffset)).max? with
  | none =>
    rw [List.max?_eq_none_iff] at hmax
    rw [hmax] at hmem
    exact absurd hmem List.not_mem_nil
  | some m => exact (List.max?_eq_some_iff.mp hmax).2 _ hmem

theorem usedLength_le {limit : Nat} (hdir : a.directory.endOffset ≤ limit)
    (hends : ∀ e ∈ a.entries, e.endOffset ≤ limit) : a.usedLength ≤ limit := by
  refine Nat.max_le.mpr ⟨hdir, ?_⟩
  cases hmax : (a.entries.map (·.endOffset)).max? with
  | none => exact Nat.zero_le _
  | some m =>
    obtain ⟨e, he, rfl⟩ := List.mem_map.mp (List.max?_eq_some_iff.mp hmax).1
    exact hends e he

/-- The front reaches to the least of the offsets. -/
theorem exists_offset_eq_min {e : Entry} (he : e ∈ a.entries) :
    ∃ d ∈ a.entries, (a.entries.map (·.offset)).min?.getD 0 = d.offset := by
  cases hmin : (a.entries.map (·.offset)).min? with
  | none =>
    rw [List.min?_eq_none_iff, List.map_eq_nil_iff] at hmin
    rw [hmin] at he
    exact absurd he List.not_mem_nil
  | some m =>
    obtain ⟨d, hd, hm⟩ := List.mem_map.mp (List.min?_mem hmin)
    exact ⟨d, hd, hm.symm⟩

namespace IsOpen

/-- Payloads that state their starts leave no gaps and reach to the end. -/
theorem isCovered_of_starts (ha : a.IsOpen) {field : Field} (hf : f.placing = .starts field)
    {p : Nat} (hne : a.entries ≠ []) (hp : a.frontLength ≤ p) (hlt : p < a.data.size) :
    a.IsCovered p := by
  obtain ⟨⟨start, ht⟩, hlast⟩ := ha.tiles_of_starts hf
  obtain ⟨d, hd, hmin⟩ := exists_offset_eq_min (List.getLast_mem hne)
  have hfront : d.offset ≤ a.frontLength := by
    rw [← hmin]
    exact Nat.le_max_right _ _
  refine ht.exists_covering ?_ ⟨_, List.getLast_mem hne, ?_⟩
  · have := ht.le_offset d hd
    omega
  · rw [hlast _ (List.getLast?_eq_some_getLast hne)]
    exact hlt

theorem usedLength_of_starts (ha : a.IsOpen) {field : Field} (hf : f.placing = .starts field)
    (hne : a.entries ≠ []) : a.usedLength = a.data.size := by
  apply Nat.le_antisymm (usedLength_le ha.directoryEnd_le ha.endOffset_le)
  rw [← (ha.tiles_of_starts hf).2 _ (List.getLast?_eq_some_getLast hne)]
  exact endOffset_le_usedLength (List.getLast_mem hne)

end IsOpen

/-- What is left of `data` when a payload of `a` is put back in its own place. -/
structure Restored (a : FlatArchive f) (out : Bytes) : Prop where
  size_eq : out.size = a.usedLength
  kept : ∀ p, p < a.frontLength ∨ a.IsCovered p → out[p]? = a.data[p]?
  cleared : ∀ p, p < a.usedLength → a.frontLength ≤ p → ¬ a.IsCovered p → out[p]? = some 0

/-- Nothing is lost exactly when what no entry covers is zero and there is nothing behind. -/
theorem Restored.eq_data_iff {out : Bytes} (h : a.Restored out) :
    out = a.data ↔ a.data.size = a.usedLength ∧
      ∀ p, p < a.data.size → a.frontLength ≤ p → ¬ a.IsCovered p → a.data[p]? = some 0 := by
  constructor
  · rintro rfl
    exact ⟨h.size_eq, fun p hp => h.cleared p (by rwa [← h.size_eq])⟩
  · rintro ⟨hsize, hzero⟩
    apply Array.ext_getElem?
    intro p
    by_cases hkept : p < a.frontLength ∨ a.IsCovered p
    · exact h.kept p hkept
    · obtain ⟨hfront, hcovered⟩ := not_or.mp hkept
      rcases Nat.lt_or_ge p a.data.size with hlt | hge
      · rw [hzero p hlt (Nat.le_of_not_lt hfront) hcovered,
          h.cleared p (by rwa [← hsize]) (Nat.le_of_not_lt hfront) hcovered]
      · rw [Array.getElem?_eq_none hge, Array.getElem?_eq_none (by rw [h.size_eq, ← hsize]; exact hge)]

/-- The record of each entry is rewritten to what it says already. -/
theorem IsOpen.updateRecord_eq_self (ha : a.IsOpen) {name : String} {r : Relayout} {size i : Nat}
    {old e : Entry} (hm : r.Moves a.entries name size old) (hsize : size = old.size)
    (he : a.entries[i]? = some e) (hi : e.index < a.directory.count) :
    f.updateRecord a.directory.endOffset (Relayout.placement old r.target size i e)
      (if i = r.target then some old.decompressedSize else none)
      (a.directory.record ⟨e.index, hi⟩) = .ok (a.directory.record ⟨e.index, hi⟩) := by
  rw [hm.placement_eq_self hsize he]
  apply (ha.describes (List.mem_of_getElem? he)).updateRecord_eq
  intro n hn
  split at hn
  case isTrue ht =>
    subst ht
    obtain rfl := Option.some.inj (hm.old_at.symm.trans he)
    exact (Option.some.inj hn).symm
  case isFalse => cases hn

namespace Rebuilt

section Own

variable {name : String} {bytes : Bytes} {i p : Nat} {r : Relayout} {old e : Entry}
  (hab : Rebuilt a b name bytes old.decompressedSize r old) (ha : a.IsOpen)
  (hown : old.read a.data = .ok bytes)

include hab ha hown

omit ha in
theorem placement_own (he : a.entries[i]? = some e) :
    Relayout.placement old r.target bytes.size i e = ⟨e.offset, e.size⟩ :=
  hab.moves.placement_eq_self (Entry.size_of_read hown) he

omit ha in
theorem usedLength_eq : max r.totalLength a.directory.endOffset = a.usedLength := by
  apply Nat.le_antisymm
  · refine Nat.max_le.mpr ⟨Relayout.totalLength_le ?_, directoryEnd_le_usedLength a⟩
    intro q hq
    obtain ⟨i, e, he, rfl⟩ := hab.moves.exists_of_mem_placements hq
    rw [hab.placement_own hown he]
    exact endOffset_le_usedLength (List.mem_of_getElem? he)
  · apply usedLength_le (Nat.le_max_right _ _)
    intro e he
    obtain ⟨i, hi⟩ := List.mem_iff_getElem?.mp he
    have hmem := hab.moves.mem_placements hi
    rw [hab.placement_own hown hi] at hmem
    exact Nat.le_trans (Relayout.endOffset_le_totalLength hmem) (Nat.le_max_left _ _)

theorem headLength_eq : r.headLength a.data a.directory.endOffset a.entries = a.frontLength := by
  obtain ⟨d, hd, hmin⟩ := exists_offset_eq_min hab.moves.old_mem
  have hused := hab.usedLength_eq hown
  have hend := endOffset_le_usedLength hd
  have hfit := ha.endOffset_le d hd
  unfold Entry.endOffset at hend hfit
  unfold Relayout.headLength frontLength
  rw [hmin, hused]
  dsimp only
  omega

/-- A position outside the directory is copied with the payload that covers it, or kept in front of
all of them, or else is zero. -/
theorem getElem?_assemble_own :
    (p < a.frontLength ∨ a.IsCovered p →
      (r.assemble a.data a.directory.endOffset a.entries bytes)[p]? = a.data[p]?) ∧
    (p < a.usedLength → a.frontLength ≤ p → ¬ a.IsCovered p →
      (r.assemble a.data a.directory.endOffset a.entries bytes)[p]? = some 0) := by
  have hm := hab.moves
  have hhead := hab.headLength_eq ha hown
  have hused := hab.usedLength_eq hown
  have hsplice : old.splice a.data bytes = a.data := by
    rw [Entry.read_of_le (ha.endOffset_le old hm.old_mem)] at hown
    rw [← Except.ok.inj hown]
    exact Entry.splice_self (ha.endOffset_le old hm.old_mem)
  have hfree : ¬ a.IsCovered p → ∀ i e, a.entries[i]? = some e →
      ¬ ((Relayout.placement old r.target bytes.size i e).offset ≤ p ∧
        p < (Relayout.placement old r.target bytes.size i e).endOffset) := by
    intro hcovered i e he hc
    rw [hab.placement_own hown he] at hc
    exact hcovered ⟨e, List.mem_of_getElem? he, hc⟩
  constructor
  · intro hkept
    by_cases hcovered : a.IsCovered p
    · obtain ⟨e, he, hc⟩ := hcovered
      obtain ⟨i, hi⟩ := List.mem_iff_getElem?.mp he
      have hplace := hab.placement_own hown hi
      rw [hm.getElem?_assemble_of_covered ha.directoryEnd_le ha.endOffset_le hi
        (by rw [hplace]; exact hc.1) (by rw [hplace]; exact hc.2), hsplice]
    · exact hm.getElem?_assemble_of_head ha.endOffset_le (hfree hcovered) ha.directoryEnd_le
        (by rw [hhead]; exact hkept.resolve_right hcovered)
  · intro hlt hfront hcovered
    exact hm.getElem?_assemble_of_gap ha.endOffset_le (hfree hcovered) (by rw [hhead]; exact hfront)
      (by rw [hused]; exact hlt)

theorem restored : a.Restored b.data := by
  have hdir : a.directory.endOffset ≤ a.frontLength := Nat.le_max_left _ _
  constructor
  case size_eq => rw [hab.size_eq, hab.usedLength_eq hown]
  case kept =>
    intro p hp
    by_cases hdirectory : f.headerSize ≤ p ∧ p < a.directory.endOffset
    · obtain ⟨i, e, k, he, hk, rfl⟩ := exists_record_at ha hdirectory.1 hdirectory.2
      obtain ⟨hi, new, hnew, hwritten⟩ := hab.rewritten i e he
      rw [ha.updateRecord_eq_self hab.moves (Entry.size_of_read hown) he hi] at hnew
      rw [hwritten k hk, ← Except.ok.inj hnew]
      exact a.directory.getElem?_record ⟨e.index, hi⟩ hk
    · rw [hab.outside p (by omega)]
      exact (hab.getElem?_assemble_own ha hown).1 hp
  case cleared =>
    intro p hlt hfront hcovered
    rw [hab.outside p (by omega)]
    exact (hab.getElem?_assemble_own ha hown).2 hlt hfront hcovered

/-- The records are what they were, so the directory lists the same entries. -/
theorem readEntries_own (hoffset : b.directory.entriesOffset = a.directory.entriesOffset)
    (hcount : b.directory.count = a.directory.count) :
    f.readEntries b.directory = f.readEntries a.directory := by
  have hrecord : ∀ k (hk : k < a.directory.count) (hk' : k < b.directory.count),
      b.directory.record ⟨k, hk'⟩ = a.directory.record ⟨k, hk⟩ := by
    intro k hk hk'
    obtain ⟨i, e, he, rfl⟩ := ha.exists_entry_of_lt hk
    obtain ⟨hi, hi', hupdate⟩ := hab.exists_record hoffset hcount he
    rw [ha.updateRecord_eq_self hab.moves (Entry.size_of_read hown) he hi] at hupdate
    exact (Except.ok.inj hupdate).symm
  apply FlatFormat.readEntries_congr
  · apply List.ext_getElem
    · simp only [Table.records, List.length_ofFn, hcount]
    · intro k hk hk'
      simp only [Table.records, List.length_ofFn] at hk hk'
      simp only [Table.records, List.getElem_ofFn, hrecord k hk' hk]
  · rw [Table.endOffset, Table.endOffset, hoffset, hcount]
  · intro field hf
    show b.data.size = a.data.size
    rw [(hab.restored ha hown).size_eq, ha.usedLength_of_starts hf]
    exact List.ne_nil_of_mem hab.moves.old_mem

end Own
end Rebuilt

/-- A payload can always be put back in its own place. -/
theorem IsOpen.exists_updateRecords_own (ha : a.IsOpen) {name : String} {r : Relayout} {size : Nat}
    {old : Entry} (hm : r.Moves a.entries name size old) (hsize : size = old.size) (out : Bytes) :
    ∃ out', a.updateRecords r.target old.decompressedSize 0 (a.entries.zip r.placements) out =
      .ok out' := by
  cases hout : a.updateRecords r.target old.decompressedSize 0 (a.entries.zip r.placements) out with
  | ok out' => exact ⟨out', rfl⟩
  | error err =>
    obtain ⟨i, e, he, hi, herr⟩ := exists_failing_record ha hm hout
    rw [ha.updateRecord_eq_self hm hsize he hi] at herr
    cases herr

theorem exists_moves_of_unshared {name : String} {old : Entry}
    (hfind : a.find name = .ok old)
    (halone : ∀ (i : Nat) (e : Entry), a.entries[i]? = some e → i ≠ a.position name →
      Relayout.sharesBytes old e = false) (size : Nat) :
    ∃ r, Relayout.ofReplacement a.entries name size = .ok r ∧ r.Moves a.entries name size old := by
  have hold := find_eq_ok_iff.mp hfind
  rcases Relayout.ofReplacement_cases size (rfl : a.position name = _) with
    ⟨hnone, -⟩ | ⟨old', hold', ⟨i, other, hi, hne, hshares, -⟩ | ⟨-, r, hr⟩⟩
  · exact absurd (name_of_find_eq_ok hfind) (hnone old (List.mem_of_getElem? hold))
  · obtain rfl := Option.some.inj (hold.symm.trans hold')
    rw [halone i other hi hne] at hshares
    cases hshares
  · obtain ⟨old', hm⟩ := Relayout.moves_of_ofReplacement hr
    have hold' := hm.old_at
    rw [hm.target_eq] at hold'
    obtain rfl := Option.some.inj (hold.symm.trans hold')
    exact ⟨r, hr, hm⟩

/-- As many bytes as the entries use are enough to open the archive again. -/
theorem ofBytes_own {name : String} {bytes out : Bytes} {r : Relayout} {old : Entry}
    (hopen : ofBytes f a.data = .ok a) {hfits : a.directory.endOffset ≤ out.size}
    (hab : Rebuilt a ⟨a.directory.inBytes out hfits, a.entries⟩ name bytes old.decompressedSize r old)
    (hown : old.read a.data = .ok bytes) :
    ofBytes f out = .ok ⟨a.directory.inBytes out hfits, a.entries⟩ := by
  obtain ⟨-, ha, hlimit, hextents⟩ := ofBytes_eq_ok.mp hopen
  obtain ⟨hends, hdisjoint⟩ := checkExtents_eq_ok.mp hextents
  have hrestored := hab.restored ha hown
  have hhead := ha.headerSize_le
  have hused : ∀ e ∈ a.entries, e.endOffset ≤ out.size := by
    intro e he
    rw [show out.size = a.usedLength from hrestored.size_eq]
    exact endOffset_le_usedLength he
  have hcount : f.readCount out = .ok a.directory.count := by
    rw [← ha.readCount_eq]
    apply f.readCount_congr (Nat.le_trans hhead hfits) (Nat.le_trans hhead ha.directoryEnd_le)
    intro p hp
    have hfront : a.directory.endOffset ≤ a.frontLength := Nat.le_max_left _ _
    exact hrestored.kept p (Or.inl (by omega))
  have hentries := (hab.readEntries_own ha hown rfl rfl).trans ha.readEntries_eq
  exact ofBytes_eq_ok.mpr ⟨rfl, ⟨ha.offset_eq, ha.headerLength_eq, hcount, hentries, hused⟩, hlimit,
    checkExtents_eq_ok.mpr ⟨fun e he => ⟨(hends e he).1, hused e he⟩, hdisjoint⟩⟩

/-- A payload put back in its own place: the archive opens again, keeps what lies in front of the
payloads and what they cover, and has zero bytes elsewhere. It is the same, byte for byte, exactly
when there were only zero bytes elsewhere and nothing behind the payloads; and always where each
payload reaches to the next and the last one to the end. -/
theorem replace_with_own_payload {data : Bytes} {name : String} {old : Entry}
    (hopen : ofBytes f data = .ok a) (hfind : a.find name = .ok old)
    (halone : ∀ (i : Nat) (e : Entry), a.entries[i]? = some e → i ≠ a.position name →
      Relayout.sharesBytes old e = false) :
    ∃ (bytes : Bytes) (b : FlatArchive f), old.read data = .ok bytes ∧
      a.replace name bytes old.decompressedSize = .ok b ∧ a.Restored b.data ∧
      (b.data = data ↔ data.size = a.usedLength ∧
        ∀ p, p < data.size → a.frontLength ≤ p → ¬ a.IsCovered p → data[p]? = some 0) ∧
      (f = .startDat .offsetOnly → b.data = data) := by
  obtain ⟨ha, rfl⟩ := isOpen_of_ofBytes hopen
  have hmem := List.mem_of_getElem? (find_eq_ok_iff.mp hfind)
  have hown := Entry.read_of_le (ha.endOffset_le old hmem)
  generalize a.data.extract old.offset old.endOffset = bytes at hown
  obtain ⟨r, hr, hm⟩ := exists_moves_of_unshared hfind halone bytes.size
  obtain ⟨out, hout⟩ := ha.exists_updateRecords_own hm (Entry.size_of_read hown)
    (r.assemble a.data a.directory.endOffset a.entries bytes)
  obtain ⟨hfits, hrebuilt⟩ := rebuilt_inBytes ha hr hout
  obtain ⟨old', hab⟩ := hrebuilt a.entries
  obtain rfl := Except.ok.inj (hfind.symm.trans hab.find_eq)
  have hreplace : a.replace name bytes old.decompressedSize =
      .ok ⟨a.directory.inBytes out hfits, a.entries⟩ :=
    bind_eq_ok.mpr ⟨r, hr, bind_eq_ok.mpr ⟨out, hout, ofBytes_own hopen hab hown⟩⟩
  have hrestored := hab.restored ha hown
  have hiff := hrestored.eq_data_iff
  refine ⟨bytes, _, hown, hreplace, hrestored, hiff, ?_⟩
  rintro rfl
  have hne := List.ne_nil_of_mem hmem
  apply hiff.mpr
  refine ⟨(ha.usedLength_of_starts rfl hne).symm, ?_⟩
  intro p hlt hfront hcovered
  exact absurd (ha.isCovered_of_starts rfl hne hfront hlt) hcovered

/-- An archive with a byte between its two payloads, and one behind them. -/
def gappedPayloads : Bytes :=
  (FlatFormat.dsarcMagic ++ [2, 0, 0, 0, 0, 0, 0, 0] ++
    [0x61] ++ List.replicate 39 0 ++ [1, 0, 0, 0] ++ [0x70, 0, 0, 0] ++
    [0x62] ++ List.replicate 39 0 ++ [1, 0, 0, 0] ++ [0x72, 0, 0, 0] ++ [1, 0xFF, 2, 3]).toArray

theorem replace_with_own_payload_gappedPayloads :
    ∃ (a b : FlatArchive (.startDat .dsarc)) (old : Entry),
      ofBytes (.startDat .dsarc) gappedPayloads = .ok a ∧ a.find "a" = .ok old ∧
      (∀ (i : Nat) (e : Entry), a.entries[i]? = some e → i ≠ a.position "a" →
        Relayout.sharesBytes old e = false) ∧
      a.replace "a" #[1] 1 = .ok b ∧ gappedPayloads[0x71]? = some 0xFF ∧ b.data[0x71]? = some 0 ∧
      gappedPayloads.size = 0x74 ∧ b.data.size = 0x73 := by
  obtain ⟨a, ha, hcheck⟩ := exists_ok_of_any
    (x := ofBytes (.startDat .dsarc) gappedPayloads)
    (p := fun a => a.entries == [⟨"a", 0x70, 1, 1, .none, 0⟩, ⟨"b", 0x72, 1, 1, .none, 1⟩] &&
      a.directory.endOffset == 0x70)
    (by decide +kernel)
  simp only [Bool.and_eq_true, beq_iff_eq] at hcheck
  obtain ⟨hentries, hdir⟩ := hcheck
  have hposition : a.position "a" = 0 := by rw [position, hentries]; decide +kernel
  have hfind : a.find "a" = .ok ⟨"a", 0x70, 1, 1, .none, 0⟩ := by
    rw [find_eq_ok_iff, hposition, hentries]
    rfl
  have halone : ∀ (i : Nat) (e : Entry), a.entries[i]? = some e → i ≠ a.position "a" →
      Relayout.sharesBytes ⟨"a", 0x70, 1, 1, .none, 0⟩ e = false := by
    intro i e he hi
    rw [hposition] at hi
    rw [hentries] at he
    match i, hi with
    | 1, _ => cases he; decide
    | i + 2, _ => cases he
  have hused : a.usedLength = 0x73 := by rw [usedLength, hentries, hdir]; decide
  have hfront : a.frontLength = 0x70 := by rw [frontLength, hentries, hdir]; decide
  have hgap : ¬ a.IsCovered 0x71 := by
    unfold IsCovered
    rw [hentries]
    decide
  obtain ⟨bytes, b, hread, hreplace, hrestored, -⟩ := replace_with_own_payload ha hfind halone
  obtain rfl : #[1] = bytes :=
    Except.ok.inj ((by decide +kernel : Entry.read _ gappedPayloads = .ok #[1]).symm.trans hread)
  refine ⟨a, b, _, ha, hfind, halone, hreplace, by decide, ?_, by decide, ?_⟩
  · exact hrestored.cleared 0x71 (by omega) (by omega) hgap
  · rw [hrestored.size_eq, hused]

end GameArchive.FlatArchive
