import GameArchive.Proofs.Assembly
import GameArchive.Proofs.StorageOrder
/-!
# What a replacement does to the places of payloads

Entries may be listed in any order and may share bytes with each other, as long as none shares
bytes with the replaced one. Those stored behind it move together, so what they shared they share
still, and the last of them ends where the last one ended, moved by the difference of the sizes.
-/
namespace GameArchive

/-- Whether two placements have a byte in common. -/
def Placement.Meets (p q : Placement) : Prop :=
  ∃ k, (p.offset ≤ k ∧ k < p.endOffset) ∧ q.offset ≤ k ∧ k < q.endOffset

theorem Placement.meets_iff {p q : Placement} : p.Meets q ↔
    p.size ≠ 0 ∧ q.size ≠ 0 ∧ p.offset < q.endOffset ∧ q.offset < p.endOffset := by
  unfold Meets endOffset
  constructor
  · rintro ⟨k, hp, hq⟩
    omega
  · intro h
    exact ⟨max p.offset q.offset, by omega, by omega⟩

namespace Relayout

/-- What becomes of the places of `entries` when `old`, the entry at the target, takes `size`
bytes. -/
structure Displaces (r : Relayout) (entries : List Entry) (old : Entry) (size : Nat) : Prop where
  length_eq : r.placements.length = entries.length
  /-- The replaced entry stays where it is. -/
  target_eq : r.placements[r.target]? = some ⟨old.offset, size⟩
  /-- Any other entry keeps its size and its offset, or moves by the difference of the sizes. -/
  moved : ∀ {i : Nat} {e : Entry} {p : Placement}, i ≠ r.target → entries[i]? = some e →
    r.placements[i]? = some p → p.size = e.size ∧
      (p.offset = e.offset ∨ (p.offset : Int) = e.offset + ((size : Int) - old.size))
  /-- No other placement reaches into the one of the replaced entry. -/
  apart : ∀ {i : Nat} {p : Placement}, i ≠ r.target → r.placements[i]? = some p →
    p.endOffset ≤ old.offset ∨ old.offset + size ≤ p.offset
  /-- Two other placements have a byte in common if the entries had one. -/
  meets_iff : ∀ {i j : Nat} {d e : Entry} {p q : Placement}, i ≠ r.target → j ≠ r.target →
    entries[i]? = some d → entries[j]? = some e → r.placements[i]? = some p →
    r.placements[j]? = some q → (p.Meets q ↔ d.placement.Meets e.placement)
  /-- They then lie to each other as before. -/
  distance_eq : ∀ {i j : Nat} {d e : Entry} {p q : Placement}, i ≠ r.target → j ≠ r.target →
    entries[i]? = some d → entries[j]? = some e → r.placements[i]? = some p →
    r.placements[j]? = some q → d.placement.Meets e.placement →
    (q.offset : Int) - p.offset = (e.offset : Int) - d.offset
  /-- The last placement ends where the last entry did, moved by the difference of the sizes. -/
  totalLength_eq : ∃ last, (entries.map Entry.endOffset).max? = some last ∧
    (r.totalLength : Int) = last + ((size : Int) - old.size)

namespace Moves

variable {r : Relayout} {entries : List Entry} {name : String} {size i j last : Nat}
  {old d e : Entry}

theorem old_getElem? (hm : r.Moves entries name size old) :
    r.placements[r.target]? = some ⟨old.offset, size⟩ := by
  rw [hm.getElem?_placements hm.old_at, placement_target]

/-- Entries on the two sides of the replaced one had no byte in common, and those on one side move
alike. -/
theorem meets_placement_iff (hm : r.Moves entries name size old) (hi : i ≠ r.target)
    (hj : j ≠ r.target) (hd : entries[i]? = some d) (he : entries[j]? = some e) :
    (placement old r.target size i d).Meets (placement old r.target size j e) ↔
      d.placement.Meets e.placement := by
  obtain ⟨hdsize, hdside⟩ := hm.before_or_after hd hi
  obtain ⟨hesize, heside⟩ := hm.before_or_after he hj
  rw [Placement.meets_iff, Placement.meets_iff]
  unfold Placement.endOffset
  rw [hdsize, hesize]
  unfold Entry.endOffset at hdside heside
  dsimp only [Entry.placement]
  omega

theorem distance_placement (hm : r.Moves entries name size old) (hi : i ≠ r.target)
    (hj : j ≠ r.target) (hd : entries[i]? = some d) (he : entries[j]? = some e)
    (hmeets : d.placement.Meets e.placement) :
    ((placement old r.target size j e).offset : Int) - (placement old r.target size i d).offset =
      (e.offset : Int) - d.offset := by
  obtain ⟨-, hdside⟩ := hm.before_or_after hd hi
  obtain ⟨-, heside⟩ := hm.before_or_after he hj
  rw [Placement.meets_iff] at hmeets
  unfold Placement.endOffset at hmeets
  unfold Entry.endOffset at hdside heside
  dsimp only [Entry.placement] at hmeets
  omega

/-- Nothing ends behind the last end moved by the difference. -/
theorem placement_endOffset_add_le (hm : r.Moves entries name size old)
    (hlast : ∀ e ∈ entries, e.endOffset ≤ last) (he : entries[i]? = some e) :
    (placement old r.target size i e).endOffset + old.size ≤ last + size := by
  have hold := hlast old hm.old_mem
  have hend := hlast e (List.mem_of_getElem? he)
  unfold Placement.endOffset
  unfold Entry.endOffset at hold hend
  rcases hm.placement_cases he with ⟨-, rfl, hp⟩ | ⟨-, -, hoffset, hsize⟩ | ⟨-, hbefore, hp⟩
  · rw [hp]
    dsimp only
    omega
  · omega
  · unfold Entry.endOffset at hbefore
    rw [hp]
    dsimp only
    omega

/-- The last end is that of the replaced entry or of one stored behind it, so it moves. -/
theorem exists_placement_endOffset_eq (hm : r.Moves entries name size old)
    (hlast : ∀ e ∈ entries, e.endOffset ≤ last) (he : e ∈ entries) (hend : e.endOffset = last) :
    ∃ p ∈ r.placements, p.endOffset + old.size = last + size := by
  obtain ⟨i, hi⟩ := List.mem_iff_getElem?.mp he
  have hold := hlast old hm.old_mem
  have htarget : old.endOffset = last → ∃ p ∈ r.placements, p.endOffset + old.size = last + size := by
    rintro rfl
    refine ⟨_, List.mem_of_getElem? hm.old_getElem?, ?_⟩
    unfold Placement.endOffset Entry.endOffset
    dsimp only
    omega
  rcases hm.placement_cases hi with ⟨-, rfl, -⟩ | ⟨-, -, hoffset, hsize⟩ | ⟨-, hbefore, -⟩
  · exact htarget hend
  · refine ⟨_, hm.mem_placements hi, ?_⟩
    unfold Entry.endOffset at hend
    unfold Placement.endOffset
    omega
  · apply htarget
    unfold Entry.endOffset at *
    omega

theorem totalLength_add_eq (hm : r.Moves entries name size old)
    (hlast : (entries.map Entry.endOffset).max? = some last) :
    r.totalLength + old.size = last + size := by
  obtain ⟨hmem, hle⟩ := List.max?_eq_some_iff.mp hlast
  obtain ⟨e, he, hend⟩ := List.mem_map.mp hmem
  have hends : ∀ e ∈ entries, e.endOffset ≤ last := fun e he => hle _ (List.mem_map_of_mem he)
  have hold := hends old hm.old_mem
  unfold Entry.endOffset at hold
  apply Nat.le_antisymm
  · have hupper : r.totalLength ≤ last + size - old.size := by
      apply totalLength_le
      intro p hp
      obtain ⟨i, d, hd, rfl⟩ := hm.exists_of_mem_placements hp
      have := hm.placement_endOffset_add_le hends hd
      omega
    omega
  · obtain ⟨p, hp, hpend⟩ := hm.exists_placement_endOffset_eq hends he hend
    rw [← hpend]
    exact Nat.add_le_add_right (endOffset_le_totalLength hp) _

theorem exists_last (hm : r.Moves entries name size old) :
    ∃ last, (entries.map Entry.endOffset).max? = some last := by
  cases hmax : (entries.map Entry.endOffset).max? with
  | some last => exact ⟨last, rfl⟩
  | none =>
    rw [List.max?_eq_none_iff, List.map_eq_nil_iff] at hmax
    exact absurd hm.old_mem (by rw [hmax]; exact List.not_mem_nil)

theorem displaces (hm : r.Moves entries name size old) : r.Displaces entries old size := by
  have hplace : ∀ {i : Nat} {e : Entry} {p : Placement}, entries[i]? = some e →
      r.placements[i]? = some p → p = placement old r.target size i e := fun he hp =>
    Option.some.inj (hp.symm.trans (hm.getElem?_placements he))
  constructor
  case length_eq => rw [hm.placements_eq, List.length_mapIdx]
  case target_eq => exact hm.old_getElem?
  case moved =>
    intro i e p hi he hp
    obtain ⟨hsize, hside⟩ := hm.before_or_after he hi
    rw [hplace he hp]
    exact ⟨hsize, by omega⟩
  case apart =>
    intro i p hi hp
    obtain ⟨e, he, rfl⟩ := hm.exists_of_getElem?_placements hp
    obtain ⟨hsize, hside⟩ := hm.before_or_after he hi
    unfold Entry.endOffset at hside
    unfold Placement.endOffset
    omega
  case meets_iff =>
    intro i j d e p q hi hj hd he hp hq
    rw [hplace hd hp, hplace he hq]
    exact hm.meets_placement_iff hi hj hd he
  case distance_eq =>
    intro i j d e p q hi hj hd he hp hq hmeets
    rw [hplace hd hp, hplace he hq]
    exact hm.distance_placement hi hj hd he hmeets
  case totalLength_eq =>
    obtain ⟨last, hlast⟩ := hm.exists_last
    have := hm.totalLength_add_eq hlast
    exact ⟨last, hlast, by omega⟩

end Moves

/-- A name that is not there and an entry that shares bytes with the replaced one are all that is
refused. Else there is a layout, which moves everything stored behind the replaced entry together;
with offsets, sizes and ends below the given bounds, all ends in it are words. -/
theorem ofReplacement_displaces {entries : List Entry} {size : Nat} (name : String)
    (hentries : ∀ e ∈ entries, e.endOffset < 0x8000000000000000)
    (hsize : size < 0x4000000000000000) :
    ((∀ e ∈ entries, e.name ≠ name) ∧
        ofReplacement entries name size = .error (.notFound name)) ∨
      ∃ old, entries[entries.findIdx fun e => e.name == name]? = some old ∧ old.name = name ∧
        ((∃ (i : Nat) (other : Entry), entries[i]? = some other ∧
            i ≠ (entries.findIdx fun e => e.name == name) ∧ old.Overlaps other ∧
            ofReplacement entries name size =
              .error (.malformed (.sharedBytes name other.name))) ∨
          ((∀ (i : Nat) (e : Entry), entries[i]? = some e →
              i ≠ (entries.findIdx fun e => e.name == name) → ¬ old.Overlaps e) ∧
            ∃ r, ofReplacement entries name size = .ok r ∧
              r.target = (entries.findIdx fun e => e.name == name) ∧
              r.Displaces entries old size ∧ ∀ p ∈ r.placements, p.endOffset < wordLimit)) := by
  rcases ofReplacement_cases size (rfl : _ = entries.findIdx fun e => e.name == name) with
    hnone | ⟨old, hold, hcases⟩
  · exact Or.inl hnone
  · right
    have hname : old.name = name := by
      obtain ⟨hlt, rfl⟩ := List.getElem?_eq_some_iff.mp hold
      simpa using List.findIdx_getElem (w := hlt)
    refine ⟨old, hold, hname, ?_⟩
    rcases hcases with ⟨i, other, hi, hne, hshares, herr⟩ | ⟨halone, r, hr⟩
    · exact Or.inl ⟨i, other, hi, hne, sharesBytes_iff_overlaps.mp hshares, herr⟩
    · right
      obtain ⟨old', hm⟩ := moves_of_ofReplacement hr
      obtain rfl : old = old' := by
        rw [← hm.target_eq, hm.old_at] at hold
        exact (Option.some.inj hold).symm
      refine ⟨?_, r, hr, hm.target_eq, hm.displaces, ?_⟩
      · intro i e he hi hover
        rw [← sharesBytes_iff_overlaps, halone i e he hi] at hover
        cases hover
      · intro p hp
        obtain ⟨i, e, he, rfl⟩ := hm.exists_of_mem_placements hp
        have hend := hm.placement_endOffset_le (fun e he => Nat.le_of_lt (hentries e he)) he
        unfold wordLimit
        omega

/-- Payloads in no order, two of which share bytes before the target and two behind it, with an
empty one at the place of the target. -/
def scattered : List Entry :=
  [⟨"d", 20, 4, 4, .none, 0⟩, ⟨"t", 10, 5, 5, .none, 1⟩, ⟨"z", 10, 0, 0, .none, 2⟩,
    ⟨"a", 4, 6, 6, .none, 3⟩, ⟨"b", 6, 3, 3, .none, 4⟩, ⟨"e", 22, 7, 7, .none, 5⟩]

theorem ofReplacement_displaces_scattered :
    (∀ e ∈ scattered, e.endOffset < 0x8000000000000000) ∧ 2 < 0x4000000000000000 ∧
      ∃ r, ofReplacement scattered "t" 2 = .ok r ∧
        r.Displaces scattered ⟨"t", 10, 5, 5, .none, 1⟩ 2 ∧
        r.placements = [⟨17, 4⟩, ⟨10, 2⟩, ⟨10, 0⟩, ⟨4, 6⟩, ⟨6, 3⟩, ⟨19, 7⟩] ∧
        r.totalLength = 26 := by
  have hentries : ∀ e ∈ scattered, e.endOffset < 0x8000000000000000 := by decide
  have hlayout : ofReplacement scattered "t" 2 =
      .ok ⟨[⟨17, 4⟩, ⟨10, 2⟩, ⟨10, 0⟩, ⟨4, 6⟩, ⟨6, 3⟩, ⟨19, 7⟩], 1⟩ := by cbv
  refine ⟨hentries, by decide, ?_⟩
  rcases ofReplacement_displaces "t" hentries (by decide : 2 < 0x4000000000000000) with
    ⟨-, herr⟩ |
    ⟨old, hold, -, ⟨i, other, -, -, -, herr⟩ | ⟨-, r, hr, -, hdisplaces, -⟩⟩
  · cases hlayout.symm.trans herr
  · cases hlayout.symm.trans herr
  · have hat : scattered[scattered.findIdx fun e => e.name == "t"]? =
        some ⟨"t", 10, 5, 5, .none, 1⟩ := by decide +kernel
    obtain rfl := Option.some.inj (hat.symm.trans hold)
    obtain rfl := Except.ok.inj (hlayout.symm.trans hr)
    exact ⟨_, hr, hdisplaces, rfl, by decide⟩

end Relayout
end GameArchive
