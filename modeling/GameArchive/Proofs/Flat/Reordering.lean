import GameArchive.Proofs.Flat.OwnPayload
import GameArchive.Proofs.Flat.Replace
import GameArchive.Proofs.StorageOrder
/-!
# Replacements one after another

What a replacement writes follows from where it places the payloads, from what these are, from the
sizes that it states, and from the bytes in front of the payloads. None of this tells which payloads
were replaced before, or in which order.
-/
namespace GameArchive

namespace FlatArchive

variable {f : FlatFormat} {a b c d : FlatArchive f}

/-- Whether two archives list entries of the same records and agree on what stands in front of the
payloads, the fields apart that say where these lie. -/
structure SameFront (a b : FlatArchive f) : Prop where
  indices_eq : b.entries.map (·.index) = a.entries.map (·.index)
  inPlacingField_iff : ∀ p, b.InPlacingField p ↔ a.InPlacingField p
  isBeforePayloads_iff : ∀ p, b.IsBeforePayloads p ↔ a.IsBeforePayloads p
  kept : ∀ p, a.IsBeforePayloads p → ¬ a.InPlacingField p → b.data[p]? = a.data[p]?

namespace SameFront

theorem refl (a : FlatArchive f) : SameFront a a :=
  ⟨rfl, fun _ => Iff.rfl, fun _ => Iff.rfl, fun _ _ _ => rfl⟩

theorem symm (h : SameFront a b) : SameFront b a where
  indices_eq := h.indices_eq.symm
  inPlacingField_iff p := (h.inPlacingField_iff p).symm
  isBeforePayloads_iff p := (h.isBeforePayloads_iff p).symm
  kept p hp hfield := (h.kept p ((h.isBeforePayloads_iff p).mp hp)
    (mt (h.inPlacingField_iff p).mpr hfield)).symm

theorem trans (hab : SameFront a b) (hbc : SameFront b c) : SameFront a c where
  indices_eq := hbc.indices_eq.trans hab.indices_eq
  inPlacingField_iff p := (hbc.inPlacingField_iff p).trans (hab.inPlacingField_iff p)
  isBeforePayloads_iff p := (hbc.isBeforePayloads_iff p).trans (hab.isBeforePayloads_iff p)
  kept p hp hfield := (hbc.kept p ((hab.isBeforePayloads_iff p).mpr hp)
    (mt (hab.inPlacingField_iff p).mp hfield)).trans (hab.kept p hp hfield)

theorem count_eq (h : SameFront a b) (ha : a.IsOpen) (hb : b.IsOpen) :
    b.directory.count = a.directory.count := by
  have hlength := congrArg List.length h.indices_eq
  rwa [List.length_map, List.length_map, hb.length_entries, ha.length_entries] at hlength

theorem directoryEnd_eq (h : SameFront a b) (ha : a.IsOpen) (hb : b.IsOpen) :
    b.directory.endOffset = a.directory.endOffset :=
  Rebuilt.directoryEnd_eq ha hb (h.count_eq ha hb)

theorem exists_entry (h : SameFront a b) {i : Nat} {e : Entry} (he : a.entries[i]? = some e) :
    ∃ e', b.entries[i]? = some e' ∧ e'.index = e.index := by
  have hi := congrArg (·[i]?) h.indices_eq
  simpa [he] using hi

end SameFront

/-- What stands in front of the payloads ends where the first of them starts. -/
theorem headLength_le_of_not_isBeforePayloads {r : Relayout} {data : Bytes} {p : Nat}
    (hbehind : a.IsBehindDirectory) (hp : ¬ a.IsBeforePayloads p) :
    r.headLength data a.directory.endOffset a.entries ≤ p := by
  obtain ⟨e, he, hle⟩ : ∃ e ∈ a.entries, e.offset ≤ p := by
    simpa [IsBeforePayloads] using hp
  have hdirectory := hbehind e he
  have hfirst : (a.entries.map (·.offset)).min?.getD 0 ≤ e.offset := by
    cases hmin : (a.entries.map (·.offset)).min? with
    | none => exact Nat.zero_le _
    | some m => exact (List.min?_eq_some_iff.mp hmin).2 _ (List.mem_map_of_mem he)
  unfold Relayout.headLength
  dsimp only
  omega

theorem isBeforePayloads_of_lt {p : Nat} (hbehind : a.IsBehindDirectory)
    (hp : p < a.directory.endOffset) : a.IsBeforePayloads p :=
  fun e he => Nat.lt_of_lt_of_le hp (hbehind e he)

/-- Outside the directory no position is in a field of a record. -/
theorem IsOpen.not_inPlacingField (ha : a.IsOpen) {p : Nat}
    (hp : p < f.headerSize ∨ a.directory.endOffset ≤ p) : ¬ a.InPlacingField p := by
  rintro ⟨i, hi, g, hg, hle, hlt⟩
  have hend := ha.recordOffset_add_size_le hi
  have hfit := f.endOffset_le_of_mem_placing g hg
  have hstart := ha.recordOffset_eq (i := i)
  omega

theorem IsOpen.inPlacingField_iff (ha : a.IsOpen) {i k : Nat} (hi : i < a.directory.count)
    (hk : k < f.layout.size) :
    a.InPlacingField (a.directory.recordOffset i + k) ↔ ∃ g ∈ f.placing.fields, g.Has k := by
  constructor
  · rintro ⟨j, hj, g, hg, hle, hlt⟩
    have hfit := f.endOffset_le_of_mem_placing g hg
    obtain rfl := index_eq_of_recordOffset_le ha hk (i := i) (j := j) (by omega) (by omega)
    exact ⟨g, hg, by omega, by omega⟩
  · rintro ⟨g, hg, hle, hlt⟩
    exact ⟨i, hi, g, hg, by omega, by omega⟩

namespace Rebuilt

variable {name name' : String} {bytes bytes' : Bytes} {n n' : Nat} {r r' : Relayout}
  {old old' : Entry}

section Same

variable (hab : Rebuilt a b name bytes n r old) (hcd : Rebuilt c d name' bytes' n' r' old')
  (ha : a.IsOpen) (hc : c.IsOpen) (habehind : a.IsBehindDirectory) (hfront : SameFront a c)
  (hplacements : r.placements = r'.placements)

include hab hcd hplacements

theorem placement_eq {i : Nat} {e e' : Entry} (he : a.entries[i]? = some e)
    (he' : c.entries[i]? = some e') : Relayout.placement old r.target bytes.size i e =
      Relayout.placement old' r'.target bytes'.size i e' := by
  have hp := hab.moves.getElem?_placements he
  rw [hplacements, hcd.moves.getElem?_placements he'] at hp
  exact (Option.some.inj hp).symm

include ha hc habehind hfront

/-- The records of an entry come out the same if they are to state the same size. -/
theorem getElem?_record_eq {i k : Nat} {e e' : Entry} (he : a.entries[i]? = some e)
    (he' : c.entries[i]? = some e') (hk : k < f.layout.size)
    (hstated : f = .pspfs .makaiKingdom → (if i = r.target then n else e.decompressedSize) =
      if i = r'.target then n' else e'.decompressedSize) :
    b.data[a.directory.recordOffset e.index + k]? =
      d.data[a.directory.recordOffset e.index + k]? := by
  have hindex : e'.index = e.index := by
    obtain ⟨d, hd, hindex⟩ := hfront.exists_entry he
    rwa [← Option.some.inj (hd.symm.trans he')]
  have hdirectory := hfront.directoryEnd_eq ha hc
  have hoffset : ∀ i, c.directory.recordOffset i = a.directory.recordOffset i := fun i =>
    hc.recordOffset_eq.trans ha.recordOffset_eq.symm
  obtain ⟨hi, new, hnew, hbytes⟩ := hab.rewritten i e he
  obtain ⟨hi', new', hnew', hbytes'⟩ := hcd.rewritten i e' he'
  have hplace := hab.placement_eq hcd hplacements he he'
  have hstate := (ha.describes (List.mem_of_getElem? he)).decompressed
  have hstate' := (hc.describes (List.mem_of_getElem? he')).decompressed
  simp only [hindex] at hnew' hbytes' hstate'
  rw [hdirectory, ← hplace] at hnew'
  obtain rfl : new = new' := by
    refine FlatFormat.updateRecord_congr hnew hnew' ?_ ?_
    · intro k hk hnone
      have hend := ha.recordOffset_add_size_le hi
      rw [a.directory.getElem?_record ⟨e.index, hi⟩ hk,
        c.directory.getElem?_record ⟨e.index, hindex ▸ hi'⟩ hk, hoffset]
      dsimp only
      refine (hfront.kept _ (isBeforePayloads_of_lt habehind (by omega)) ?_).symm
      rw [ha.inPlacingField_iff hi hk]
      rintro ⟨g, hg, hhas⟩
      exact hnone g hg hhas
    · intro offset size decompressed hf
      have hgetD : ∀ (j : Nat) (m : Nat) (x : Nat),
          (if i = j then some m else none).getD x = if i = j then m else x := by
        intro j m x
        split <;> rfl
      simp only [hf] at hstate hstate'
      rw [hgetD, hgetD, ← hstate, ← hstate']
      exact hstated (FlatFormat.eq_of_placing_decompressed hf)
  rw [hbytes k hk, ← hbytes' k hk, hoffset]

/-- Payloads that are the same and lie at the same places, with the same bytes in front, fill the
archive alike outside the directory. -/
theorem getElem?_assemble_eq (hcbehind : c.IsBehindDirectory)
    (hpayload : ∀ (i : Nat) (e e' : Entry), a.entries[i]? = some e → c.entries[i]? = some e' →
      Relayout.payload a.data r.target bytes i e = Relayout.payload c.data r'.target bytes' i e')
    {p : Nat} (hp : p < f.headerSize ∨ a.directory.endOffset ≤ p) :
    (r.assemble a.data a.directory.endOffset a.entries bytes)[p]? =
      (r'.assemble c.data c.directory.endOffset c.entries bytes')[p]? := by
  have hdirectory := hfront.directoryEnd_eq ha hc
  have htotal : r'.totalLength = r.totalLength := by
    rw [Relayout.totalLength, ← hplacements, Relayout.totalLength]
  by_cases hcovered : ∃ i e, a.entries[i]? = some e ∧
      (Relayout.placement old r.target bytes.size i e).offset ≤ p ∧
      p < (Relayout.placement old r.target bytes.size i e).endOffset
  · obtain ⟨i, e, he, hle, hlt⟩ := hcovered
    obtain ⟨e', he', -⟩ := hfront.exists_entry he
    have hplace := hab.placement_eq hcd hplacements he he'
    rw [hab.moves.getElem?_assemble_eq_payload ha.directoryEnd_le ha.endOffset_le he hle hlt]
    rw [hplace] at hle hlt
    rw [hcd.moves.getElem?_assemble_eq_payload hc.directoryEnd_le hc.endOffset_le he' hle hlt,
      hplace, hpayload i e e' he he']
  have hfree : ∀ i e, a.entries[i]? = some e →
      ¬ ((Relayout.placement old r.target bytes.size i e).offset ≤ p ∧
        p < (Relayout.placement old r.target bytes.size i e).endOffset) :=
    fun i e he hc => hcovered ⟨i, e, he, hc⟩
  have hfree' : ∀ i e, c.entries[i]? = some e →
      ¬ ((Relayout.placement old' r'.target bytes'.size i e).offset ≤ p ∧
        p < (Relayout.placement old' r'.target bytes'.size i e).endOffset) := by
    intro i e' he'
    obtain ⟨e, he, -⟩ := hfront.symm.exists_entry he'
    rw [← hab.placement_eq hcd hplacements he he']
    exact hfree i e he
  by_cases hbefore : a.IsBeforePayloads p
  · have hbefore' := (hfront.isBeforePayloads_iff p).mpr hbefore
    rw [hab.moves.getElem?_assemble_of_head ha.endOffset_le hfree ha.directoryEnd_le
        (hab.moves.lt_headLength ha.endOffset_le hbefore),
      hcd.moves.getElem?_assemble_of_head hc.endOffset_le hfree' hc.directoryEnd_le
        (hcd.moves.lt_headLength hc.endOffset_le hbefore')]
    exact (hfront.kept p hbefore (ha.not_inPlacingField hp)).symm
  · have hbefore' := mt (hfront.isBeforePayloads_iff p).mp hbefore
    rcases Nat.lt_or_ge p (max r.totalLength a.directory.endOffset) with hlt | hge
    · rw [hab.moves.getElem?_assemble_of_gap ha.endOffset_le hfree
          (headLength_le_of_not_isBeforePayloads habehind hbefore) hlt,
        hcd.moves.getElem?_assemble_of_gap hc.endOffset_le hfree'
          (headLength_le_of_not_isBeforePayloads hcbehind hbefore')
          (by rw [htotal, hdirectory]; exact hlt)]
    · rw [Array.getElem?_eq_none, Array.getElem?_eq_none]
      · rw [Relayout.Moves.size_assemble r' c.entries bytes' hc.directoryEnd_le, htotal, hdirectory]
        exact hge
      · rw [Relayout.Moves.size_assemble r a.entries bytes ha.directoryEnd_le]
        exact hge

/-- Two replacements write the same bytes if they place payloads that are the same at the same
places, state the same sizes, and find the same bytes in front. -/
theorem data_eq (hcbehind : c.IsBehindDirectory)
    (hpayload : ∀ (i : Nat) (e e' : Entry), a.entries[i]? = some e → c.entries[i]? = some e' →
      Relayout.payload a.data r.target bytes i e = Relayout.payload c.data r'.target bytes' i e')
    (hstated : f = .pspfs .makaiKingdom → ∀ (i : Nat) (e e' : Entry), a.entries[i]? = some e →
      c.entries[i]? = some e' → (if i = r.target then n else e.decompressedSize) =
        if i = r'.target then n' else e'.decompressedSize) : b.data = d.data := by
  have hdirectory := hfront.directoryEnd_eq ha hc
  apply Array.ext_getElem?
  intro p
  by_cases hp : f.headerSize ≤ p ∧ p < a.directory.endOffset
  · obtain ⟨i, e, k, he, hk, rfl⟩ := exists_record_at ha hp.1 hp.2
    obtain ⟨e', he', -⟩ := hfront.exists_entry he
    exact hab.getElem?_record_eq hcd ha hc habehind hfront hplacements he he' hk
      fun hf => hstated hf i e e' he he'
  · rw [hab.outside p (by omega), hcd.outside p (by omega)]
    exact hab.getElem?_assemble_eq hcd ha hc habehind hfront hplacements hcbehind hpayload
      (by omega)

end Same

section Filled

variable (hab : Rebuilt a b name bytes n r old) (ha : a.IsOpen) (hb : b.IsOpen)
  (hbehind : a.IsBehindDirectory) (hfilled : 0 < bytes.size)

include hab ha hb hbehind hfilled

theorem map_placement : b.entries.map Entry.placement = r.placements := by
  have hcount : b.directory.count = a.directory.count :=
    hab.count_eq ha hb (Nat.le_trans ha.headerSize_le (hbehind old hab.moves.old_mem))
  rw [hab.moves.placements_eq]
  apply List.ext_getElem
  · rw [List.length_map, List.length_mapIdx, length_eq ha hb hcount]
  · intro i hi hi'
    rw [List.length_mapIdx] at hi'
    rw [List.length_map] at hi
    obtain ⟨e', he', -, hoffset, hsize⟩ :=
      hab.exists_entry ha hb hbehind (fun _ => hfilled) (List.getElem?_eq_getElem hi')
    obtain rfl := Option.some.inj ((List.getElem?_eq_getElem hi).symm.trans he')
    rw [List.getElem_map, List.getElem_mapIdx]
    exact Placement.ext hoffset hsize

/-- What stands in front of the payloads is what stood there. -/
theorem sameFront {s : Replacement} (hs : Replaced a b s) : SameFront a b := by
  refine ⟨hs.indices_eq, hs.inPlacingField_iff, fun p => ⟨?_, hs.isBeforePayloads p⟩, hs.kept⟩
  intro hp e he
  have hplaced := hab.map_placement ha hb hbehind hfilled
  have hlength := hab.moves.length_of_placed hplaced
  have hentry : ∀ {i : Nat} {e : Entry}, a.entries[i]? = some e →
      p < (Relayout.placement old r.target bytes.size i e).offset := by
    intro i e he
    have hlt := (List.getElem?_eq_some_iff.mp he).1
    have he' := List.getElem?_eq_getElem (hlength ▸ hlt)
    rw [hab.moves.placement_eq_of_placed hplaced he he']
    exact hp _ (List.getElem_mem _)
  have hold := hentry hab.moves.old_at
  rw [Relayout.placement_target] at hold
  obtain ⟨i, hi⟩ := List.mem_iff_getElem?.mp he
  have hplace := hentry hi
  rcases hab.moves.placement_cases hi with ⟨-, rfl, -⟩ | ⟨-, hend, -⟩ | ⟨-, -, hkept⟩
  · exact hold
  · unfold Entry.endOffset at hend
    dsimp only at hold
    omega
  · rwa [hkept] at hplace

end Filled
end Rebuilt

/-- What is known of `b` when it is `a` with a payload replaced by one that is not empty. -/
structure Refilled (a b : FlatArchive f) (s : Replacement) (r : Relayout) (old : Entry) : Prop where
  isOpen : b.IsOpen
  opens : ofBytes f b.data = .ok b
  rebuilt : Rebuilt a b s.name s.bytes s.decompressedSize r old
  replaced : Replaced a b s
  placed : b.entries.map Entry.placement = r.placements
  sameFront : SameFront a b

theorem exists_refilled (ha : a.IsOpen) (hbehind : a.IsBehindDirectory) {s : Replacement}
    (hfilled : 0 < s.bytes.size) (h : a.replace s.name s.bytes s.decompressedSize = .ok b) :
    ∃ r old, Refilled a b s r old := by
  obtain ⟨hb, hopen, r, old, hab⟩ := rebuilt_of_replace ha h
  obtain ⟨-, hreplaced⟩ := replaced_of_replace ha hbehind (fun _ => hfilled) h
  exact ⟨r, old, hb, hopen, hab, hreplaced, hab.map_placement ha hb hbehind hfilled,
    hab.sameFront ha hb hbehind hfilled hreplaced⟩

namespace Refilled

variable {s : Replacement} {r : Relayout} {old e e' : Entry} {i : Nat}

theorem extract_eq (h : Refilled a b s r old) (ha : a.IsOpen) (he : a.entries[i]? = some e)
    (he' : b.entries[i]? = some e') :
    b.data.extract e'.offset e'.endOffset = Relayout.payload a.data r.target s.bytes i e := by
  have hread := h.replaced.read_eq he he'
  rw [Entry.read_of_le (h.isOpen.endOffset_le e' (List.mem_of_getElem? he')),
    Entry.read_of_le (ha.endOffset_le e (List.mem_of_getElem? he)), h.rebuilt.position_eq] at hread
  unfold Relayout.payload
  split at hread
  case isTrue hi => rw [if_pos hi, Except.ok.inj hread]
  case isFalse hi => rw [if_neg hi, Except.ok.inj hread]

theorem target_eq (h : Refilled a b s r old) {name : String} {size : Nat} {r' : Relayout}
    {old' : Entry} (hm : r'.Moves b.entries name size old') : r'.target = a.position name := by
  rw [hm.target_eq]
  exact position_eq_of_names h.replaced.names_eq name

end Refilled

/-- Records can be rewritten as soon as the numbers fit that they are to state. -/
theorem exists_updateRecords (ha : a.IsOpen) {name : String} {size n : Nat} {r : Relayout}
    {old : Entry} (hm : r.Moves a.entries name size old)
    (hfit : ∀ i e, a.entries[i]? = some e → ∀ s ∈ f.settings a.directory.endOffset
      (Relayout.placement old r.target size i e) (if i = r.target then some n else none),
      s.2 < numberBound 4) (out : Bytes) :
    ∃ out', a.updateRecords r.target n 0 (a.entries.zip r.placements) out = .ok out' := by
  cases hout : a.updateRecords r.target n 0 (a.entries.zip r.placements) out with
  | ok out' => exact ⟨out', rfl⟩
  | error err =>
    obtain ⟨i, e, he, hi, herr⟩ := exists_failing_record ha hm hout
    obtain ⟨s, hs, hwide, -⟩ := FlatFormat.exists_of_updateRecord_eq_error herr
    exact absurd (hfit i e he s hs) (Nat.not_lt.mpr hwide)

/-- An archive whose records state their ends, the later end first: the payload of `b`, which is
empty, starts where that of `a` does. -/
def sharedStart : Bytes :=
  ([2, 0, 0, 0] ++ List.replicate 12 0 ++ [3, 0, 0, 0, 0x61] ++ List.replicate 27 0 ++
    [0, 0, 0, 0, 0x62] ++ List.replicate 27 0 ++ [1, 2, 3] : List UInt8).toArray

/-- Of two replacements under one name, the first not empty, the second one decides: it gives the
same archive, byte for byte, as if it had been made alone. -/
theorem replace_again {data : Bytes} {name : String} {x y : Bytes} {m n : Nat}
    (hopen : ofBytes f data = .ok a) (hbehind : a.IsBehindDirectory) (hfilled : 0 < x.size)
    (hfirst : a.replace name x m = .ok b) (hsecond : b.replace name y n = .ok c) :
    ofBytes f b.data = .ok b ∧ a.replace name y n = .ok c := by
  obtain ⟨ha, rfl⟩ := isOpen_of_ofBytes hopen
  obtain ⟨r, old, hab⟩ := exists_refilled ha hbehind (s := ⟨name, x, m⟩) hfilled hfirst
  obtain ⟨-, hcopen, r', old', hbc⟩ := rebuilt_of_replace hab.isOpen hsecond
  have hm := hab.rebuilt.moves
  have hposition : a.position name = r.target := hab.rebuilt.position_eq
  have htarget : r'.target = r.target := (hab.target_eq hbc.moves).trans hposition
  -- The one replacement places the payloads where the two do.
  obtain ⟨s, hs, hms⟩ := exists_moves_of_unshared hab.rebuilt.find_eq
    (fun i e he hi => hm.unshared he (hposition ▸ hi)) y.size
  have hstarget : s.target = r.target := hms.target_eq.trans hposition
  have hplacements : r'.placements = s.placements :=
    hm.placements_eq_of_again hfilled hab.placed hbc.moves hms htarget hstarget
  have hdirectory := hab.sameFront.directoryEnd_eq ha hab.isOpen
  have hentry : ∀ {i : Nat} {e : Entry}, a.entries[i]? = some e → ∃ e', b.entries[i]? = some e' :=
    exists_entry_of_names hab.replaced.names_eq
  obtain ⟨out, hout⟩ := exists_updateRecords ha hms (n := n) (fun i e he => by
    obtain ⟨e', he'⟩ := hentry he
    obtain ⟨hi, new, hnew, -⟩ := hbc.rewritten i e' he'
    have hp := hbc.moves.getElem?_placements he'
    rw [hplacements, hms.getElem?_placements he] at hp
    rw [Option.some.inj hp, hstarget, ← htarget, ← hdirectory]
    exact FlatFormat.lt_of_updateRecord hnew) (s.assemble a.data a.directory.endOffset a.entries y)
  obtain ⟨hfits, hrebuilt⟩ := rebuilt_inBytes ha hs hout
  obtain ⟨old'', had⟩ := hrebuilt a.entries
  have hdata : c.data = out := by
    refine hbc.data_eq had hab.isOpen ha hab.replaced.behind hab.sameFront.symm hplacements hbehind
      ?_ ?_
    · intro i e' e he' he
      have hextract := hab.extract_eq ha he he'
      unfold Relayout.payload at hextract ⊢
      rw [htarget, hstarget]
      split
      case isTrue => rfl
      case isFalse hi => rwa [if_neg hi] at hextract
    · intro hf i e' e he' he
      have hstated := hab.replaced.stated_eq hf he he'
      rw [hposition] at hstated
      rw [htarget, hstarget]
      split
      case isTrue => rfl
      case isFalse hi => rwa [if_neg hi] at hstated
  exact ⟨hab.opens, bind_eq_ok.mpr ⟨s, hs, bind_eq_ok.mpr ⟨out, hout, hdata ▸ hcopen⟩⟩⟩

theorem replace_again_of_sharedStart :
    ∃ a b c : FlatArchive (.startDat .endOffset),
      ofBytes (.startDat .endOffset) sharedStart = .ok a ∧ a.IsBehindDirectory ∧
      a.replace "b" #[7, 8, 9] 0 = .ok b ∧ b.replace "b" #[] 0 = .ok c ∧
      ofBytes (.startDat .endOffset) b.data = .ok b ∧ a.replace "b" #[] 0 = .ok c ∧
      b.entries.map (·.size) = [3, 3] ∧ c.entries.map (·.size) = [0, 3] := by
  obtain ⟨a, ha, hcheck⟩ := exists_ok_of_any (x := ofBytes (.startDat .endOffset) sharedStart)
    (p := fun a => decide a.IsBehindDirectory && (a.replace "b" #[7, 8, 9] 0).toOption.any fun b =>
      b.entries.map (·.size) == [3, 3] &&
        (b.replace "b" #[] 0).toOption.any fun c => c.entries.map (·.size) == [0, 3])
    (by
      simp only [replace, ofBytes, FlatFormat.readEntries, FlatFormat.placing,
        FlatFormat.byEnd_zipIdx_eq_insertionSort]
      decide +kernel)
  simp only [Bool.and_eq_true, decide_eq_true_eq] at hcheck
  obtain ⟨hbehind, hrun⟩ := hcheck
  obtain ⟨b, hb, hcheck⟩ := exists_ok_of_any hrun
  simp only [Bool.and_eq_true, beq_iff_eq] at hcheck
  obtain ⟨hsizes, hrun⟩ := hcheck
  obtain ⟨c, hc, hsizes'⟩ := exists_ok_of_any hrun
  obtain ⟨hopens, halone⟩ := replace_again ha hbehind (by decide) hb hc
  exact ⟨a, b, c, ha, hbehind, hb, hc, hopens, halone, hsizes, beq_iff_eq.mp hsizes'⟩

/-- Replacements under two names that are not empty can be made in either order: the archives in the
end are the same, byte for byte. -/
theorem replace_comm {data : Bytes} {name name' : String} {x y : Bytes} {m n : Nat}
    {d e : FlatArchive f} (hopen : ofBytes f data = .ok a) (hbehind : a.IsBehindDirectory)
    (hne : name ≠ name') (hx : 0 < x.size) (hy : 0 < y.size)
    (hb : a.replace name x m = .ok b) (hd : b.replace name' y n = .ok d)
    (hc : a.replace name' y n = .ok c) (he : c.replace name x m = .ok e) :
    ofBytes f b.data = .ok b ∧ ofBytes f c.data = .ok c ∧ d = e := by
  obtain ⟨ha, rfl⟩ := isOpen_of_ofBytes hopen
  obtain ⟨r, old, hab⟩ := exists_refilled ha hbehind (s := ⟨name, x, m⟩) hx hb
  obtain ⟨s, other, hac⟩ := exists_refilled ha hbehind (s := ⟨name', y, n⟩) hy hc
  obtain ⟨-, hdopen, r', other', hbd⟩ := rebuilt_of_replace hab.isOpen hd
  obtain ⟨-, heopen, s', old', hce⟩ := rebuilt_of_replace hac.isOpen he
  have hposition : a.position name = r.target := hab.rebuilt.position_eq
  have hposition' : a.position name' = s.target := hac.rebuilt.position_eq
  have htarget : r'.target = s.target := (hab.target_eq hbd.moves).trans hposition'
  have htarget' : s'.target = r.target := (hac.target_eq hce.moves).trans hposition
  have hapart : r.target ≠ s.target := by
    intro heq
    have hold := hab.rebuilt.moves.old_at
    rw [heq, hac.rebuilt.moves.old_at] at hold
    have hnames := hab.rebuilt.moves.name_eq
    rw [← Option.some.inj hold, hac.rebuilt.moves.name_eq] at hnames
    exact hne hnames.symm
  have hplacements : r'.placements = s'.placements :=
    hab.rebuilt.moves.placements_eq_of_swapped hx hab.placed hbd.moves hac.rebuilt.moves hy
      hac.placed hce.moves htarget htarget' hapart
  have hentry : ∀ {i : Nat} {g : Entry}, b.entries[i]? = some g → ∃ g', a.entries[i]? = some g' :=
    exists_entry_of_names hab.replaced.names_eq.symm
  have hdata : d.data = e.data := by
    refine hbd.data_eq hce hab.isOpen hac.isOpen hab.replaced.behind
      (hab.sameFront.symm.trans hac.sameFront) hplacements hac.replaced.behind ?_ ?_
    · intro i eb ec heb hec
      obtain ⟨ea, hea⟩ := hentry heb
      have hextract := hab.extract_eq ha hea heb
      have hextract' := hac.extract_eq ha hea hec
      unfold Relayout.payload at hextract hextract' ⊢
      rw [htarget, htarget', hextract, hextract']
      by_cases hi : i = r.target
      · rw [if_neg (hi ▸ hapart), if_pos hi, if_pos hi]
      · rw [if_neg hi, if_neg hi]
    · intro hf i eb ec heb hec
      obtain ⟨ea, hea⟩ := hentry heb
      rw [htarget, htarget', hab.replaced.stated_eq hf hea heb, hac.replaced.stated_eq hf hea hec,
        hposition, hposition']
      by_cases hi : i = r.target
      · rw [if_neg (hi ▸ hapart), if_pos hi, if_pos hi]
      · rw [if_neg hi, if_neg hi]
  rw [hdata, heopen] at hdopen
  exact ⟨hab.opens, hac.opens, (Except.ok.inj hdopen).symm⟩

theorem replace_comm_of_sharedStart :
    ∃ a b c d : FlatArchive (.startDat .endOffset),
      ofBytes (.startDat .endOffset) sharedStart = .ok a ∧ a.IsBehindDirectory ∧
      a.replace "b" #[7, 8] 0 = .ok b ∧ b.replace "a" #[9] 0 = .ok d ∧
      a.replace "a" #[9] 0 = .ok c ∧ c.replace "b" #[7, 8] 0 = .ok d ∧
      d.entries.map (fun e => (e.read d.data).toOption) = [some #[7, 8], some #[9]] := by
  obtain ⟨a, ha, hcheck⟩ := exists_ok_of_any (x := ofBytes (.startDat .endOffset) sharedStart)
    (p := fun a => decide a.IsBehindDirectory &&
      ((a.replace "b" #[7, 8] 0).toOption.any fun b => (b.replace "a" #[9] 0).toOption.any
        fun d => d.entries.map (fun e => (e.read d.data).toOption) == [some #[7, 8], some #[9]]) &&
      (a.replace "a" #[9] 0).toOption.any fun c => (c.replace "b" #[7, 8] 0).toOption.isSome)
    (by
      simp only [replace, ofBytes, FlatFormat.readEntries, FlatFormat.placing,
        FlatFormat.byEnd_zipIdx_eq_insertionSort]
      decide +kernel)
  simp only [Bool.and_eq_true, decide_eq_true_eq] at hcheck
  obtain ⟨⟨hbehind, hrun⟩, hrun'⟩ := hcheck
  obtain ⟨b, hb, hrun⟩ := exists_ok_of_any hrun
  obtain ⟨d, hd, hreads⟩ := exists_ok_of_any hrun
  obtain ⟨c, hc, hrun'⟩ := exists_ok_of_any hrun'
  cases he : c.replace "b" #[7, 8] 0 with
  | error err => simp [he, Except.toOption] at hrun'
  | ok e =>
    obtain ⟨-, -, rfl⟩ := replace_comm ha hbehind (by decide) (by decide) (by decide) hb hd hc he
    exact ⟨a, b, c, d, ha, hbehind, hb, hd, hc, he, beq_iff_eq.mp hreads⟩

end FlatArchive
end GameArchive
