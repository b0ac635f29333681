import GameArchive.Proofs.Flat.Replace
import Mathlib.Algebra.Group.Nat.Defs
/-!
# What a replacement comes to

With all payloads behind the directory a replacement fails for three reasons: no entry has the
name, another entry shares bytes with the one to be replaced, or a number does not fit its field.
Everything else that the steps check for is settled beforehand. Nothing moves in front of where the
payloads start, every copy stays inside its buffer, and what is written opens again, since the
placements keep apart what was apart and end where the buffer does.
-/
namespace GameArchive.FlatArchive

variable {f : FlatFormat} {a b : FlatArchive f}

/-- Whether the numbers that records state of payloads fit into 32 bits once these are placed anew.
`n` is the size after decompression that is stated for the replaced one. -/
structure FieldsFit (f : FlatFormat) (directoryEnd : Nat) (placements : List Placement) (n : Nat) :
    Prop where
  offset : f ≠ .startDat .endOffset → ∀ p ∈ placements, p.offset < 2 ^ 32
  size : f ≠ .startDat .endOffset → f ≠ .startDat .offsetOnly → ∀ p ∈ placements, p.size < 2 ^ 32
  rawEnd : f = .startDat .endOffset → ∀ p ∈ placements, p.endOffset - directoryEnd < 2 ^ 32
  decompressedSize : f = .pspfs .makaiKingdom → n < 2 ^ 32

/-- Whether every range that is read or written while payloads are copied and records are rewritten
lies inside its buffer. -/
structure CopiesFit (a : FlatArchive f) (r : Relayout) (bytes : Bytes) : Prop where
  head : r.headLength a.data a.directory.endOffset a.entries ≤
    min a.data.size (r.assemble a.data a.directory.endOffset a.entries bytes).size
  source : ∀ e ∈ a.entries, e.endOffset ≤ a.data.size
  payload : ∀ (i : Nat) (e : Entry) (p : Placement), a.entries[i]? = some e →
    r.placements[i]? = some p →
    p.offset + (Relayout.payload a.data r.target bytes i e).size ≤
      (r.assemble a.data a.directory.endOffset a.entries bytes).size
  record : ∀ e ∈ a.entries, e.index < a.directory.count ∧
    a.directory.recordOffset e.index + f.layout.size ≤
      (r.assemble a.data a.directory.endOffset a.entries bytes).size

/-- The numbers that the record of a placed entry is given, by format. -/
theorem exists_setting_iff {directoryEnd value : Nat} {p : Placement} {stated : Option Nat} :
    (∃ s ∈ f.settings directoryEnd p stated, s.2 = value) ↔
      (f ≠ .startDat .endOffset ∧ value = p.offset) ∨
      (f ≠ .startDat .endOffset ∧ f ≠ .startDat .offsetOnly ∧ value = p.size) ∨
      (f = .startDat .endOffset ∧ value = p.endOffset - directoryEnd) ∨
      (f = .pspfs .makaiKingdom ∧ stated = some value) := by
  rcases f with (_ | _ | _) | (_ | _ | _) | _ <;> cases stated <;>
    simp [FlatFormat.settings, FlatFormat.placing, eq_comm]

theorem fieldsFit_iff {directoryEnd n target : Nat} {placements : List Placement}
    (htarget : target < placements.length) :
    FieldsFit f directoryEnd placements n ↔ ∀ i p, placements[i]? = some p →
      ∀ s ∈ f.settings directoryEnd p (if i = target then some n else none), s.2 < 2 ^ 32 := by
  constructor
  · intro h i p hp s hs
    have hmem := List.mem_of_getElem? hp
    rcases exists_setting_iff.mp ⟨s, hs, rfl⟩ with
      ⟨hf, hs⟩ | ⟨hf, hf', hs⟩ | ⟨hf, hs⟩ | ⟨hf, hs⟩
    · exact hs ▸ h.offset hf p hmem
    · exact hs ▸ h.size hf hf' p hmem
    · exact hs ▸ h.rawEnd hf p hmem
    · split at hs
      case isTrue => exact Option.some.inj hs ▸ h.decompressedSize hf
      case isFalse => cases hs
  · intro h
    have hvalue : ∀ (i : Nat) (p : Placement) (value : Nat), placements[i]? = some p →
        (∃ s ∈ f.settings directoryEnd p (if i = target then some n else none), s.2 = value) →
        value < 2 ^ 32 := by
      rintro i p value hp ⟨s, hs, rfl⟩
      exact h i p hp s hs
    constructor
    case offset =>
      intro hf p hp
      obtain ⟨i, hi⟩ := List.mem_iff_getElem?.mp hp
      exact hvalue i p _ hi (exists_setting_iff.mpr (Or.inl ⟨hf, rfl⟩))
    case size =>
      intro hf hf' p hp
      obtain ⟨i, hi⟩ := List.mem_iff_getElem?.mp hp
      exact hvalue i p _ hi (exists_setting_iff.mpr (Or.inr (Or.inl ⟨hf, hf', rfl⟩)))
    case rawEnd =>
      intro hf p hp
      obtain ⟨i, hi⟩ := List.mem_iff_getElem?.mp hp
      exact hvalue i p _ hi (exists_setting_iff.mpr (Or.inr (Or.inr (Or.inl ⟨hf, rfl⟩))))
    case decompressedSize =>
      intro hf
      exact hvalue target _ n (List.getElem?_eq_getElem htarget)
        (exists_setting_iff.mpr (Or.inr (Or.inr (Or.inr ⟨hf, if_pos rfl⟩))))

theorem IsOpen.copiesFit (ha : a.IsOpen) {name : String} {bytes : Bytes} {r : Relayout}
    {old : Entry} (hm : r.Moves a.entries name bytes.size old) : CopiesFit a r bytes := by
  have hsize := Relayout.Moves.size_assemble r a.entries bytes ha.directoryEnd_le
  have hhead := Relayout.headLength_le r a.entries ha.directoryEnd_le
  constructor
  case head =>
    refine Nat.le_min.mpr ⟨hhead, ?_⟩
    rw [hsize, Relayout.headLength]
    omega
  case source => exact ha.endOffset_le
  case payload =>
    intro i e p he hp
    obtain rfl := Option.some.inj ((hm.getElem?_placements he).symm.trans hp)
    rw [hsize, hm.size_payload ha.endOffset_le he]
    exact Nat.le_trans (Relayout.endOffset_le_totalLength (hm.mem_placements he))
      (Nat.le_max_left _ _)
  case record =>
    intro e he
    have hi := ha.index_lt he
    refine ⟨hi, Nat.le_trans (ha.recordOffset_add_size_le hi) ?_⟩
    rw [hsize]
    exact Nat.le_max_right _ _

namespace Rebuilt

variable {name : String} {bytes : Bytes} {n i : Nat} {r : Relayout} {old e : Entry}

section Reopening

variable (hab : Rebuilt a b name bytes n r old) (ha : a.IsOpen)
  (hoffset : b.directory.entriesOffset = a.directory.entriesOffset)
  (hcount : b.directory.count = a.directory.count)

include hab ha hoffset hcount

theorem number_of_starts {field : Field} (hf : f.placing = .starts field)
    (hi : i < b.directory.count) :
    ∃ e, a.entries[i]? = some e ∧ (b.directory.record ⟨i, hi⟩).number field =
      (Relayout.placement old r.target bytes.size i e).offset := by
  have hlt : i < a.entries.length := by rw [ha.length_entries]; omega
  have he := List.getElem?_eq_getElem hlt
  obtain ⟨_, hi', hupdate⟩ := hab.exists_record hoffset hcount he
  have hindex := ha.index_eq (by simp [hf]) he
  simp only [hindex] at hupdate
  refine ⟨_, he, ?_⟩
  exact FlatFormat.number_of_updateRecord hupdate (s := (field, _)) (by simp [FlatFormat.settings, hf])

/-- Offsets ascend as before, and none is behind the end. -/
theorem exists_readEntries : ∃ entries, f.readEntries b.directory = .ok entries := by
  unfold FlatFormat.readEntries
  cases hf : f.placing with
  | explicit offset size decompressed => exact ⟨_, rfl⟩
  | ends field => exact ⟨_, rfl⟩
  | starts field =>
    obtain ⟨start, ht⟩ := (ha.tiles_of_starts hf).1
    apply FlatFormat.exists_adjoiningEntries
    · apply List.isChain_iff_getElem.mpr
      intro k hk
      simp only [List.length_zipIdx, Table.records, List.length_ofFn] at hk
      simp only [List.getElem_zipIdx, Table.records, List.getElem_ofFn]
      obtain ⟨d, hd, hnumber⟩ := hab.number_of_starts ha hoffset hcount hf (Nat.lt_of_succ_lt hk)
      obtain ⟨e, he, hnext⟩ := hab.number_of_starts ha hoffset hcount hf hk
      rw [hnumber, hnext, hab.moves.placement_succ ht hd he]
      exact Nat.le_add_right _ _
    · intro x hx
      obtain ⟨-, hlt, hrecord⟩ := List.mem_zipIdx (List.mem_of_getLast? hx)
      simp only [Table.records, List.getElem_ofFn, List.length_ofFn, Nat.sub_zero, Nat.zero_add]
        at hlt hrecord
      obtain ⟨e, he, hnumber⟩ := hab.number_of_starts ha hoffset hcount hf hlt
      rw [hrecord, hnumber]
      have hend := Relayout.endOffset_le_totalLength (hab.moves.mem_placements he)
      have hsize : b.directory.data.size = _ := hab.size_eq
      unfold Placement.endOffset at hend
      omega

theorem endOffset_le_size (hbehind : a.IsBehindDirectory)
    (hentries : f.readEntries b.directory = .ok b.entries) :
    ∀ e' ∈ b.entries, e'.endOffset ≤ b.data.size := by
  intro e' he'
  obtain ⟨hi', hd⟩ := FlatFormat.exists_record_of_readEntries hentries he'
  obtain ⟨i, e, he, hindex⟩ := ha.exists_entry_of_lt (k := e'.index) (by omega)
  obtain ⟨_, _, hupdate⟩ := hab.exists_record hoffset hcount he
  have hdir : b.directory.endOffset = a.directory.endOffset := by
    rw [Table.endOffset, Table.endOffset, hoffset, hcount]
  simp only [hdir, ← hindex] at hd
  have hplaced := hd.placed_of_updateRecord hupdate
  have hplace := hab.moves.le_placement_offset hbehind he
  have htotal := Relayout.endOffset_le_totalLength (hab.moves.mem_placements he)
  have hsize := hab.size_eq
  unfold Placement.endOffset at hplaced htotal
  cases hf : f.placing with
  | explicit offset size decompressed =>
    rw [hf] at hplaced
    unfold Entry.endOffset
    dsimp only at hplaced
    omega
  | ends field =>
    rw [hf] at hplaced
    dsimp only at hplaced
    omega
  | starts field =>
    obtain ⟨⟨start, ht⟩, hlast⟩ := FlatFormat.tiles_of_starts hf hentries
    exact ht.endOffset_le_of_last hlast e' he'

end Reopening

/-- Payloads that were apart are placed apart. -/
theorem pairwise_apart (hab : Rebuilt a b name bytes n r old) (ha : a.IsOpen) (hb : b.IsOpen)
    (hcount : b.directory.count = a.directory.count) {offset size : Field}
    {decompressed : Option Field} (hf : f.placing = .explicit offset size decompressed)
    (hapart : a.entries.Pairwise Entry.Apart) : b.entries.Pairwise Entry.Apart := by
  have hm := hab.moves
  have hlen := length_eq ha hb hcount
  have hentry : ∀ {i : Nat} {e' : Entry}, b.entries[i]? = some e' → ∃ e, a.entries[i]? = some e ∧
      e'.offset = (Relayout.placement old r.target bytes.size i e).offset ∧
      e'.size = (Relayout.placement old r.target bytes.size i e).size := by
    intro i e' he'
    have hlt := (List.getElem?_eq_some_iff.mp he').1
    have he := List.getElem?_eq_getElem (show i < a.entries.length by omega)
    refine ⟨_, he, hab.explicit_eq ha hb hcount hf he (List.mem_of_getElem? he') ?_⟩
    rw [hb.index_eq (by simp [hf]) he', ha.index_eq (by simp [hf]) he]
  rw [List.pairwise_iff_getElem]
  intro i j hi hj hij
  obtain ⟨d, hd, hdoffset, hdsize⟩ := hentry (List.getElem?_eq_getElem hi)
  obtain ⟨e, he, heoffset, hesize⟩ := hentry (List.getElem?_eq_getElem hj)
  intro hdpos hepos
  unfold Entry.endOffset
  rw [hdoffset, hdsize, heoffset, hesize]
  apply hm.placement_apart (Nat.ne_of_lt hij) hd he
  intro hi' hj'
  obtain ⟨hilt, rfl⟩ := List.getElem?_eq_some_iff.mp hd
  obtain ⟨hjlt, rfl⟩ := List.getElem?_eq_some_iff.mp he
  apply List.pairwise_iff_getElem.mp hapart i j hilt hjlt hij
  · rwa [← (hm.before_or_after hd hi').1, ← hdsize]
  · rwa [← (hm.before_or_after he hj').1, ← hesize]

end Rebuilt

theorem exists_placing_of_isDisjoint (hf : f.isDisjoint = true) :
    ∃ offset size decompressed, f.placing = .explicit offset size decompressed := by
  rcases f with (_ | _ | _) | (_ | _ | _) | _ <;> simp [FlatFormat.isDisjoint] at hf
  all_goals exact ⟨_, _, _, rfl⟩

section Reopening

variable {name : String} {bytes out : Bytes} {n : Nat} {r : Relayout}
  (hopen : ofBytes f a.data = .ok a) (hbehind : a.IsBehindDirectory)
  (hsize : a.data.size + bytes.size < wordLimit)
  (hr : Relayout.ofReplacement a.entries name bytes.size = .ok r)

include hopen hbehind hsize hr

/-- What is written opens again. -/
theorem exists_ofBytes (hout : a.updateRecords r.target n 0 (a.entries.zip r.placements)
      (r.assemble a.data a.directory.endOffset a.entries bytes) = .ok out) :
    ∃ b, ofBytes f out = .ok b := by
  obtain ⟨-, ha, hlimit, hextents⟩ := ofBytes_eq_ok.mp hopen
  obtain ⟨hfits, hrebuilt⟩ := rebuilt_inBytes ha hr hout
  obtain ⟨entries, hentries⟩ : ∃ entries, f.readEntries (a.directory.inBytes out hfits) =
      .ok entries := by
    obtain ⟨_, hab⟩ := hrebuilt a.entries
    exact hab.exists_readEntries ha rfl rfl
  obtain ⟨old, hab⟩ := hrebuilt entries
  have hcount := hab.readCount_eq ha (Nat.le_trans ha.headerSize_le (hbehind old hab.moves.old_mem))
  have hends := hab.endOffset_le_size ha rfl rfl hbehind hentries
  have hb : IsOpen ⟨a.directory.inBytes out hfits, entries⟩ :=
    ⟨ha.offset_eq, ha.headerLength_eq, hcount, hentries, hends⟩
  have hword : out.size < wordLimit := by
    have hle := hab.moves.size_assemble_le ha.endOffset_le ha.directoryEnd_le
    rw [Relayout.Moves.size_assemble r a.entries bytes ha.directoryEnd_le, ← hab.size_eq] at hle
    exact Nat.lt_of_le_of_lt hle hsize
  refine ⟨_, ofBytes_eq_ok.mpr ⟨rfl, hb, hlimit, checkExtents_eq_ok.mpr ⟨?_, ?_⟩⟩⟩
  · exact fun e he => ⟨Nat.lt_of_le_of_lt (hends e he) hword, hends e he⟩
  · intro hf
    obtain ⟨_, _, _, hplacing⟩ := exists_placing_of_isDisjoint hf
    exact hab.pairwise_apart ha hb rfl hplacing ((checkExtents_eq_ok.mp hextents).2 hf)

/-- Once there is a layout, only the width of a field can still be in the way. -/
theorem replace_of_ofReplacement :
    (¬ FieldsFit f a.directory.endOffset r.placements n ∧
      ∃ i p, r.placements[i]? = some p ∧
        ∃ s ∈ f.settings a.directory.endOffset p (if i = r.target then some n else none),
          2 ^ 32 ≤ s.2 ∧ a.replace name bytes n =
            .error (.malformed (.numberTooWide s.2 f.layout.name s.1.name))) ∨
    (FieldsFit f a.directory.endOffset r.placements n ∧ ∃ b, a.replace name bytes n = .ok b) := by
  obtain ⟨ha, -⟩ := isOpen_of_ofBytes hopen
  obtain ⟨old, hm⟩ := Relayout.moves_of_ofReplacement hr
  have htarget := (List.getElem?_eq_some_iff.mp (hm.getElem?_placements hm.old_at)).1
  cases hout : a.updateRecords r.target n 0 (a.entries.zip r.placements)
    (r.assemble a.data a.directory.endOffset a.entries bytes) with
  | error err =>
    left
    obtain ⟨i, e, he, hi, herr⟩ := exists_failing_record ha hm hout
    have hp := hm.getElem?_placements he
    obtain ⟨s, hs, hwide, rfl⟩ := FlatFormat.exists_of_updateRecord_eq_error herr
    refine ⟨?_, i, _, hp, s, hs, hwide, ?_⟩
    · intro hfit
      exact absurd ((fieldsFit_iff htarget).mp hfit i _ hp s hs) (Nat.not_lt.mpr hwide)
    · exact bind_eq_error.mpr (Or.inr ⟨r, hr, bind_eq_error.mpr (Or.inl hout)⟩)
  | ok out =>
    right
    constructor
    · rw [fieldsFit_iff htarget]
      intro i p hp s hs
      obtain ⟨e, he, rfl⟩ := hm.exists_of_getElem?_placements hp
      obtain ⟨_, -, -, hrecords⟩ := exists_pieces hm hout
      obtain ⟨hi, new, hnew, -⟩ := hrecords i e he
      exact FlatFormat.lt_of_updateRecord hnew s hs
    · obtain ⟨b, hb⟩ := exists_ofBytes hopen hbehind hsize hr hout
      exact ⟨b, bind_eq_ok.mpr ⟨r, hr, bind_eq_ok.mpr ⟨out, hout, hb⟩⟩⟩

end Reopening

/-- What a replacement comes to in an archive with all payloads behind the directory, by the checks
in their order: the name is not there; another entry overlaps the first one of that name; a number
is too wide for its field; or else there is a new archive. Buffers in memory take no more than half
of all addresses each, so the bound on the sizes holds of every two. -/
theorem replace_outcome {data : Bytes} (hopen : ofBytes f data = .ok a)
    (hbehind : a.IsBehindDirectory) (name : String) (bytes : Bytes) (n : Nat)
    (hsize : data.size + bytes.size < wordLimit) :
    ((∀ e ∈ a.entries, e.name ≠ name) ∧ a.replace name bytes n = .error (.notFound name)) ∨
    ∃ old, a.find name = .ok old ∧
      ((∃ (i : Nat) (other : Entry), a.entries[i]? = some other ∧ i ≠ a.position name ∧
          old.Overlaps other ∧
          a.replace name bytes n = .error (.malformed (.sharedBytes name other.name))) ∨
        ((∀ (i : Nat) (e : Entry), a.entries[i]? = some e → i ≠ a.position name →
            ¬ old.Overlaps e) ∧
          ∃ r, Relayout.ofReplacement a.entries name bytes.size = .ok r ∧
            (∀ p ∈ r.placements, a.directory.endOffset ≤ p.offset) ∧ CopiesFit a r bytes ∧
            ((¬ FieldsFit f a.directory.endOffset r.placements n ∧
                ∃ i p, r.placements[i]? = some p ∧
                  ∃ s ∈ f.settings a.directory.endOffset p (if i = r.target then some n else none),
                    2 ^ 32 ≤ s.2 ∧ a.replace name bytes n =
                      .error (.malformed (.numberTooWide s.2 f.layout.name s.1.name))) ∨
              (FieldsFit f a.directory.endOffset r.placements n ∧
                ∃ b, a.replace name bytes n = .ok b)))) := by
  obtain ⟨ha, rfl⟩ := isOpen_of_ofBytes hopen
  rcases Relayout.ofReplacement_cases bytes.size (rfl : a.position name = _) with
    ⟨hnone, herr⟩ | ⟨old, hold, hcases⟩
  · exact Or.inl ⟨hnone, bind_eq_error.mpr (Or.inl herr)⟩
  · refine Or.inr ⟨old, find_eq_ok_iff.mpr hold, ?_⟩
    rcases hcases with ⟨i, other, hi, hne, hshares, herr⟩ | ⟨halone, r, hr⟩
    · exact Or.inl ⟨i, other, hi, hne, Relayout.sharesBytes_iff_overlaps.mp hshares,
        bind_eq_error.mpr (Or.inl herr)⟩
    · obtain ⟨old', hm⟩ := Relayout.moves_of_ofReplacement hr
      refine Or.inr ⟨?_, r, hr, ?_, ha.copiesFit hm, replace_of_ofReplacement hopen hbehind hsize hr⟩
      · intro i e he hi hover
        rw [← Relayout.sharesBytes_iff_overlaps, halone i e he hi] at hover
        cases hover
      · intro p hp
        obtain ⟨i, e, he, rfl⟩ := hm.exists_of_mem_placements hp
        exact hm.le_placement_offset hbehind he

/-- An archive of two payloads that states their sizes after decompression. -/
def statedSizes : Bytes :=
  (FlatFormat.pspfsMagic ++ [2, 0, 0, 0, 0, 0, 0, 0] ++
    [0x61] ++ List.replicate 19 0 ++ [2, 0, 0, 0, 2, 0, 0, 0, 0x50, 0, 0, 0] ++
    [0x62] ++ List.replicate 19 0 ++ [1, 0, 0, 0, 1, 0, 0, 0, 0x52, 0, 0, 0] ++ [1, 2, 3]).toArray

theorem replace_outcome_statedSizes :
    ∃ a : FlatArchive (.pspfs .makaiKingdom),
      ofBytes (.pspfs .makaiKingdom) statedSizes = .ok a ∧ a.IsBehindDirectory ∧
      statedSizes.size + 3 < wordLimit ∧
      a.replace "c" #[4, 5, 6] 3 = .error (.notFound "c") ∧
      (∃ value field, 2 ^ 32 ≤ value ∧ a.replace "a" #[4, 5, 6] (2 ^ 32) =
        .error (.malformed (.numberTooWide value "pspfs entry (Makai Kingdom)" field))) ∧
      ∃ b, a.replace "a" #[4, 5, 6] 3 = .ok b := by
  let entries : List Entry := [⟨"a", 0x50, 2, 2, .none, 0⟩, ⟨"b", 0x52, 1, 1, .none, 1⟩]
  obtain ⟨t, ht, hcheck⟩ := exists_ok_of_any
    (x := FlatFormat.readDirectory (.pspfs .makaiKingdom) statedSizes)
    (p := fun t => t.endOffset == 0x50 &&
      (FlatFormat.readEntries (.pspfs .makaiKingdom) t).toOption.any (· == entries))
    (by decide +kernel)
  obtain ⟨hdir, hcheck⟩ := Bool.and_eq_true_iff.mp hcheck
  obtain ⟨read, hread, heq⟩ := exists_ok_of_any hcheck
  obtain rfl := beq_iff_eq.mp heq
  obtain ⟨a, ha, rfl, hentries⟩ : ∃ a : FlatArchive (.pspfs .makaiKingdom),
      ofBytes (.pspfs .makaiKingdom) statedSizes = .ok a ∧ a.directory = t ∧ a.entries = entries :=
    ⟨⟨t, entries⟩, bind_eq_ok.mpr ⟨t, ht, bind_eq_ok.mpr ⟨entries, hread,
      bind_eq_ok.mpr ⟨(), checkExtents_eq_ok.mpr (by decide), rfl⟩⟩⟩, rfl, rfl⟩
  have hbehind : a.IsBehindDirectory := by
    rw [IsBehindDirectory, hentries, beq_iff_eq.mp hdir]
    decide
  have hsize : statedSizes.size + 3 < wordLimit := by decide
  have hposition : a.position "a" = 0 := by rw [position, hentries]; decide +kernel
  have hlayout : Relayout.ofReplacement a.entries "a" 3 = .ok ⟨[⟨0x50, 3⟩, ⟨0x53, 1⟩], 0⟩ := by
    rw [hentries]; decide +kernel
  -- An entry is called `a` and no other overlaps it, so the fields decide.
  have hfields : ∀ n, (2 ^ 32 ≤ n ∧ ∃ value field, 2 ^ 32 ≤ value ∧ a.replace "a" #[4, 5, 6] n =
        .error (.malformed (.numberTooWide value "pspfs entry (Makai Kingdom)" field))) ∨
      (n < 2 ^ 32 ∧ ∃ b, a.replace "a" #[4, 5, 6] n = .ok b) := by
    intro n
    rcases replace_outcome ha hbehind "a" #[4, 5, 6] n hsize with
      ⟨hnone, -⟩ | ⟨old, hfind, ⟨i, other, hi, hne, hover, -⟩ | ⟨-, r, hr, -, -, hcases⟩⟩
    · exact absurd rfl (hnone _ (by rw [hentries]; exact List.mem_cons_self))
    · rw [find_eq_ok_iff, hposition, hentries] at hfind
      rw [hposition] at hne
      rw [hentries] at hi
      cases hfind
      match i, hne with
      | 1, _ => cases hi; exact absurd hover (by decide)
      | i + 2, _ => cases hi
    · obtain rfl := Except.ok.inj (hlayout.symm.trans hr)
      rcases hcases with ⟨hwide, i, p, -, s, -, hs, herr⟩ | ⟨hfit, hok⟩
      · left
        refine ⟨?_, s.2, s.1.name, hs, herr⟩
        by_contra hn
        exact hwide ⟨fun _ => by decide, fun _ _ => by decide, nofun, fun _ => Nat.lt_of_not_le hn⟩
      · exact Or.inr ⟨hfit.decompressedSize rfl, hok⟩
  refine ⟨a, ha, hbehind, hsize, ?_, ?_, ?_⟩
  · rcases replace_outcome ha hbehind "c" #[4, 5, 6] 3 hsize with ⟨-, herr⟩ | ⟨old, hfind, -⟩
    · exact herr
    · have hmem := List.mem_of_getElem? (find_eq_ok_iff.mp hfind)
      have hnone : ∀ e ∈ a.entries, e.name ≠ "c" := by rw [hentries]; decide +kernel
      exact absurd (name_of_find_eq_ok hfind) (hnone old hmem)
  · exact ((hfields (2 ^ 32)).resolve_right fun h => absurd h.1 (Nat.lt_irrefl _)).2
  · exact ((hfields 3).resolve_left fun h => absurd h.1 (by decide)).2

end GameArchive.FlatArchive
