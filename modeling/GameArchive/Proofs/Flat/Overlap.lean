import GameArchive.Proofs.Flat.Rebuild
/-!
# Payloads under the directory

Opening an archive checks payloads against the end of the buffer, but not against the header and
the records. A payload may therefore lie under these. When it is replaced, its bytes are copied to
their place first and the records are written over them; nothing notices, as the archive still
opens. The theorem says exactly when the new bytes are read back all the same.
-/
namespace GameArchive.FlatArchive

variable {f : FlatFormat} {a b : FlatArchive f}

/-- Whether the bytes that are put in the place of `old` outlast the writing of the records. -/
structure Survives (a : FlatArchive f) (r : Relayout) (old : Entry) (bytes : Bytes) (n : Nat) :
    Prop where
  -- Once the payloads are copied, the header states the same count.
  count : f.readCount (r.assemble a.data a.directory.endOffset a.entries bytes) =
    .ok a.directory.count
  -- Where a new record covers the new bytes, it holds the same bytes.
  records : ∀ (i : Nat) (e : Entry) (hi : e.index < a.directory.count) (new : Record f.layout),
    a.entries[i]? = some e →
    f.updateRecord a.directory.endOffset (Relayout.placement old r.target bytes.size i e)
      (if i = r.target then some n else none) (a.directory.record ⟨e.index, hi⟩) = .ok new →
    ∀ k < f.layout.size, old.offset ≤ a.directory.recordOffset e.index + k →
      a.directory.recordOffset e.index + k < old.offset + bytes.size →
      new.raw[k]? = bytes[a.directory.recordOffset e.index + k - old.offset]?
  -- The last of payloads that state their starts reaches to the end of the directory or beyond.
  last : f = .startDat .offsetOnly → r.target + 1 = a.entries.length →
    a.directory.endOffset ≤ old.offset + bytes.size

theorem placing_ne_ends (hf : f ≠ .startDat .endOffset) (field : Field) :
    f.placing ≠ .ends field :=
  fun hends => hf (FlatFormat.eq_of_placing_ends hends)

namespace Rebuilt

variable {name : String} {bytes : Bytes} {n p : Nat} {r : Relayout} {old e' : Entry}

/-- The records are behind the header, so the count is the one that the copied payloads leave. -/
theorem readCount_assemble (hab : Rebuilt a b name bytes n r old) (ha : a.IsOpen)
    (hb : b.IsOpen) : f.readCount (r.assemble a.data a.directory.endOffset a.entries bytes) =
      .ok b.directory.count := by
  have hsize := Relayout.Moves.size_assemble r a.entries bytes ha.directoryEnd_le
  have hhead := ha.headerSize_le
  rw [← hb.readCount_eq]
  apply f.readCount_congr
  · omega
  · exact Nat.le_trans hb.headerSize_le hb.directoryEnd_le
  · exact fun p hp => (hab.outside p (Or.inl hp)).symm

theorem getElem?_target (hab : Rebuilt a b name bytes n r old) (ha : a.IsOpen)
    (hout : p < f.headerSize ∨ a.directory.endOffset ≤ p) (hle : old.offset ≤ p)
    (hlt : p < old.offset + bytes.size) : b.data[p]? = bytes[p - old.offset]? := by
  have hm := hab.moves
  have hplace : Relayout.placement old r.target bytes.size r.target old = ⟨old.offset, bytes.size⟩ :=
    Relayout.placement_target
  rw [hab.outside p hout, hm.getElem?_assemble_of_covered ha.directoryEnd_le ha.endOffset_le
    hm.old_at (by rw [hplace]; exact hle) (by rw [hplace]; exact hlt)]
  exact Entry.getElem?_splice_within (ha.endOffset_le old hm.old_mem) hle hlt

section Count

variable (hab : Rebuilt a b name bytes n r old) (ha : a.IsOpen) (hb : b.IsOpen)
  (hcount : b.directory.count = a.directory.count) (hf : f ≠ .startDat .endOffset)
  (he' : b.entries[r.target]? = some e')

include hab ha hb hcount hf he'

omit hcount in
theorem index_eq_target : e'.index = old.index := by
  rw [hb.index_eq (placing_ne_ends hf) he', ha.index_eq (placing_ne_ends hf) hab.moves.old_at]

theorem offset_eq_target : e'.offset = old.offset := by
  have hindex := hab.index_eq_target ha hb hf he'
  have hmem := List.mem_of_getElem? he'
  have hplace : (Relayout.placement old r.target bytes.size r.target old).offset = old.offset := by
    rw [Relayout.placement_target]
  rw [← hplace]
  cases hp : f.placing with
  | explicit offset size decompressed =>
    exact (hab.explicit_eq ha hb hcount hp hab.moves.old_at hmem hindex).1
  | starts field => exact hab.offset_eq ha hb hcount hp hab.moves.old_at hmem hindex
  | ends field => exact absurd hp (placing_ne_ends hf field)

theorem size_eq_target_iff : e'.size = bytes.size ↔
    (f = .startDat .offsetOnly → r.target + 1 = a.entries.length →
      a.directory.endOffset ≤ old.offset + bytes.size) := by
  have hindex := hab.index_eq_target ha hb hf he'
  have hoffset := hab.offset_eq_target ha hb hcount hf he'
  have hold := hab.moves.old_at
  have hplace : Relayout.placement old r.target bytes.size r.target old = ⟨old.offset, bytes.size⟩ :=
    Relayout.placement_target
  cases hp : f.placing with
  | explicit offset size decompressed =>
    have hsize := (hab.explicit_eq ha hb hcount hp hold (List.mem_of_getElem? he') hindex).2
    rw [hplace] at hsize
    constructor
    · rintro - rfl
      cases hp
    · exact fun _ => hsize
  | starts field =>
    cases hnext : a.entries[r.target + 1]? with
    | some d =>
      have hend := hab.endOffset_eq_of_succ ha hb hcount hp hold hnext he'
      rw [hplace, Entry.endOffset, Placement.endOffset] at hend
      dsimp only at hend
      have hlt := (List.getElem?_eq_some_iff.mp hnext).1
      constructor
      · intro _ _ hlast; omega
      · intro _; omega
    | none =>
      have hlt := (List.getElem?_eq_some_iff.mp hold).1
      have hle := List.getElem?_eq_none_iff.mp hnext
      have hlast : a.entries.length = r.target + 1 := by omega
      have hend := hab.endOffset_eq_of_last ha hb hcount hp hold hlast he'
      rw [hplace, Entry.endOffset, Placement.endOffset] at hend
      dsimp only at hend
      constructor
      · intro hsize _ _; omega
      · intro hreach
        have := hreach (FlatFormat.eq_of_placing_starts hp) hlast.symm
        omega
  | ends field => exact absurd hp (placing_ne_ends hf field)

/-- The new bytes are read back when they are as long as the entry and the records let them be. -/
theorem read_eq_ok_iff_survives : e'.read b.data = .ok bytes ↔ Survives a r old bytes n := by
  have hoffset := hab.offset_eq_target ha hb hcount hf he'
  have hfit := hb.endOffset_le e' (List.mem_of_getElem? he')
  rw [Entry.read_of_le hfit]
  constructor
  · intro hread
    have hbytes := Except.ok.inj hread
    have hlen := congrArg Array.size hbytes
    rw [Array.size_extract, Nat.min_eq_left hfit, Entry.endOffset, Nat.add_sub_cancel_left] at hlen
    refine ⟨?_, ?_, (hab.size_eq_target_iff ha hb hcount hf he').mp hlen⟩
    · rw [hab.readCount_assemble ha hb, hcount]
    · intro i e hi new he hnew k hk hle hlt
      obtain ⟨_, new', hnew', hwritten⟩ := hab.rewritten i e he
      obtain rfl := Except.ok.inj (hnew.symm.trans hnew')
      rw [← hwritten k hk, ← hbytes, Array.getElem?_extract, if_pos]
      · congr 1; omega
      · rw [Nat.min_eq_left hfit, Entry.endOffset]; omega
  · intro hsurvives
    have hsize := (hab.size_eq_target_iff ha hb hcount hf he').mpr hsurvives.last
    have hend : e'.endOffset = e'.offset + bytes.size := by rw [Entry.endOffset, hsize]
    rw [hend]
    apply congrArg
    apply Bytes.extract_eq_of_getElem? (by omega)
    intro p hle hlt
    rw [hoffset] at hle hlt ⊢
    by_cases hin : f.headerSize ≤ p ∧ p < a.directory.endOffset
    · obtain ⟨i, e, k, he, hk, rfl⟩ := exists_record_at ha hin.1 hin.2
      obtain ⟨hi, new, hnew, hwritten⟩ := hab.rewritten i e he
      rw [hwritten k hk]
      exact hsurvives.records i e hi new he hnew k hk hle hlt
    · exact hab.getElem?_target ha (by omega) hle hlt

end Count

/-- A payload behind the directory survives. -/
theorem survives_of_behind (hab : Rebuilt a b name bytes n r old) (ha : a.IsOpen) (hb : b.IsOpen)
    (hbehind : a.directory.endOffset ≤ old.offset) : Survives a r old bytes n := by
  constructor
  case count =>
    rw [hab.readCount_assemble ha hb,
      hab.count_eq ha hb (Nat.le_trans ha.headerSize_le hbehind)]
  case records =>
    intro i e hi new he hnew k hk hle hlt
    have hend := ha.recordOffset_add_size_le hi
    omega
  case last =>
    intro _ _
    omega

end Rebuilt

/-- Where records state offsets, a replacement keeps the names and reads back its bytes exactly
when these survive the writing of the records, and all bytes put behind the directory do. -/
theorem reads_back_iff_survives {data : Bytes} {name : String} {bytes : Bytes} {n : Nat}
    (hf : f ≠ .startDat .endOffset) (hopen : ofBytes f data = .ok a)
    (hreplace : a.replace name bytes n = .ok b) :
    ofBytes f b.data = .ok b ∧
      ∃ r old, Relayout.ofReplacement a.entries name bytes.size = .ok r ∧ a.find name = .ok old ∧
        ((b.entries.map (·.name) = a.entries.map (·.name) ∧ b.readName name = .ok bytes) ↔
          Survives a r old bytes n) ∧
        (a.directory.endOffset ≤ old.offset → Survives a r old bytes n) := by
  obtain ⟨ha, rfl⟩ := isOpen_of_ofBytes hopen
  obtain ⟨hb, hopen', r, old, hab⟩ := rebuilt_of_replace ha hreplace
  refine ⟨hopen', r, old, hab.relayout_eq, hab.find_eq, ?_, hab.survives_of_behind ha hb⟩
  -- With the count the entries stay, and so does the position of the name.
  have hread : b.directory.count = a.directory.count →
      b.entries.map (·.name) = a.entries.map (·.name) ∧
        (b.readName name = .ok bytes ↔ Survives a r old bytes n) := by
    intro hcount
    have hnames := hab.names_eq ha hb hcount fun he he' => by
      rw [hb.index_eq (placing_ne_ends hf) he', ha.index_eq (placing_ne_ends hf) he]
    obtain ⟨e', he'⟩ := Rebuilt.exists_getElem?_new ha hb hcount hab.moves.old_at
    have hfind' : b.find name = .ok e' := by
      rw [find_eq_ok_iff, position_eq_of_names hnames, hab.position_eq]
      exact he'
    refine ⟨hnames, ?_⟩
    rw [← hab.read_eq_ok_iff_survives ha hb hcount hf he', readName, hfind']
    rfl
  constructor
  · rintro ⟨hnames, hbytes⟩
    have hlen := congrArg List.length hnames
    rw [List.length_map, List.length_map, ha.length_entries, hb.length_entries] at hlen
    exact (hread hlen).2.mp hbytes
  · intro hsurvives
    have hcount := Except.ok.inj ((hab.readCount_assemble ha hb).symm.trans hsurvives.count)
    obtain ⟨hnames, hiff⟩ := hread hcount
    exact ⟨hnames, hiff.mpr hsurvives⟩

/-- An archive whose one payload lies over the record that lists it. -/
def payloadOverRecord : Bytes :=
  (FlatFormat.dsarcMagic ++ [1, 0, 0, 0, 0, 0, 0, 0] ++ [0x61] ++ List.replicate 39 0 ++
    [4, 0, 0, 0] ++ [0x10, 0, 0, 0]).toArray

theorem reads_back_iff_survives_payloadOverRecord :
    ∃ a b : FlatArchive (.startDat .dsarc),
      ofBytes (.startDat .dsarc) payloadOverRecord = .ok a ∧
      a.replace "a" #[1, 2, 3, 4] 0 = .ok b ∧ b.readName "a" = .ok #[0x61, 0, 0, 0] ∧
      ∃ r old, a.find "a" = .ok old ∧ ¬ Survives a r old #[1, 2, 3, 4] 0 := by
  obtain ⟨a, ha, hreplace⟩ := exists_ok_of_any
    (x := ofBytes (.startDat .dsarc) payloadOverRecord)
    (p := fun a => (a.replace "a" #[1, 2, 3, 4] 0).toOption.any fun b =>
      (b.readName "a").toOption.any fun bytes => bytes == #[0x61, 0, 0, 0])
    (by decide +kernel)
  obtain ⟨b, hb, hread⟩ := exists_ok_of_any hreplace
  obtain ⟨bytes, hbytes, heq⟩ := exists_ok_of_any hread
  obtain rfl := beq_iff_eq.mp heq
  obtain ⟨-, r, old, -, hold, hiff, -⟩ := reads_back_iff_survives (by decide) ha hb
  refine ⟨a, b, ha, hb, hbytes, r, old, hold, ?_⟩
  intro hsurvives
  have hback := hbytes.symm.trans (hiff.mpr hsurvives).2
  exact absurd (Except.ok.inj hback) (by decide)

end GameArchive.FlatArchive
