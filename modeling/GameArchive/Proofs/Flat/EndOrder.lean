import GameArchive.Proofs.Flat.Rebuild
import Mathlib.Data.List.Sort
/-!
# Entries in the order of their ends

Where a directory states ends alone, the entries are sorted by end, equal ends by number, and each
starts where the one before it ends. An empty replacement can make two ends equal that were not,
and then the numbers decide which of the entries gets the bytes in front of that end: the entry
that owned them keeps them unless the emptied entry has the lesser number and so overtakes it.
-/
namespace GameArchive

/-- Whether an entry is listed before another by end, or at equal ends by number. -/
def Entry.EndsBefore (d e : Entry) : Prop :=
  d.endOffset < e.endOffset ∨ (d.endOffset = e.endOffset ∧ d.index < e.index)

theorem Entry.EndsBefore.asymm {d e : Entry} (h : d.EndsBefore e) : ¬ e.EndsBefore d := by
  unfold EndsBefore at *
  omega

namespace FlatFormat

/-- The sort is stable, so records of equal ends stay in the order of their numbers. -/
theorem byEnd_zipIdx_pairwise {l : Layout} (field : Field) (records : List (Record l)) :
    (byEnd field records.zipIdx).Pairwise fun x y =>
      x.1.number field < y.1.number field ∨
        (x.1.number field = y.1.number field ∧ x.2 < y.2) := by
  let le := fun x y : Record l × Nat => decide (x.1.number field ≤ y.1.number field)
  have htrans : ∀ x y z, le x y → le y z → le x z := by
    intro x y z; simp only [le, decide_eq_true_eq]; omega
  have htotal : ∀ x y, le x y || le y x := by
    intro x y; simp only [le, Bool.or_eq_true, decide_eq_true_eq]; omega
  have hstable : ((records.zipIdx.zipIdx.mergeSort (List.zipIdxLE le)).map (·.1)) =
      byEnd field records.zipIdx := List.mergeSort_zipIdx
  have hsorted := List.pairwise_mergeSort (List.zipIdxLE_trans htrans) (List.zipIdxLE_total htotal)
    records.zipIdx.zipIdx
  have hdistinct : (records.zipIdx.zipIdx.mergeSort (List.zipIdxLE le)).Pairwise
      fun x y => x.2 ≠ y.2 := by
    have hperm := (List.mergeSort_perm records.zipIdx.zipIdx (List.zipIdxLE le)).map (·.2)
    rw [List.zipIdx_map_snd] at hperm
    exact List.pairwise_map.mp (hperm.nodup_iff.mpr List.nodup_range')
  -- A record's number is its position before the sort.
  have hnumber : ∀ x ∈ records.zipIdx.zipIdx.mergeSort (List.zipIdxLE le), x.1.2 = x.2 := by
    intro x hx
    obtain ⟨-, hlt, hget⟩ := List.mem_zipIdx ((List.mergeSort_perm _ _).subset hx)
    rw [hget, List.getElem_zipIdx]
    simp
  rw [← hstable, List.pairwise_map]
  refine (hsorted.and hdistinct).imp_of_mem ?_
  intro x y hx hy hxy
  obtain ⟨hle, hne⟩ := hxy
  rw [hnumber x hx, hnumber y hy]
  simp only [List.zipIdxLE, le] at hle
  grind

/-- The same order by a sort that evaluates. -/
theorem byEnd_zipIdx_eq_insertionSort {l : Layout} (field : Field) (records : List (Record l)) :
    byEnd field records.zipIdx = records.zipIdx.insertionSort fun x y =>
      x.1.number field < y.1.number field ∨
        (x.1.number field = y.1.number field ∧ x.2 ≤ y.2) := by
  let r : Record l × Nat → Record l × Nat → Prop := fun x y =>
    x.1.number field < y.1.number field ∨ (x.1.number field = y.1.number field ∧ x.2 ≤ y.2)
  have : Std.Total r := ⟨fun x y => by simp only [r]; omega⟩
  have : IsTrans _ r := ⟨fun x y z => by simp only [r]; omega⟩
  have hsort := List.mergeSort_perm records.zipIdx
    fun x y => decide (x.1.number field ≤ y.1.number field)
  have hinsert := List.perm_insertionSort r records.zipIdx
  refine List.Perm.eq_of_pairwise ?_ ((byEnd_zipIdx_pairwise field records).imp ?_)
    (List.pairwise_insertionSort r records.zipIdx) (hsort.trans hinsert.symm)
  · -- Records of one number are one record.
    rintro ⟨x, i⟩ ⟨y, j⟩ hx hy hxy hyx
    obtain rfl : i = j := by simp only [r] at hxy hyx; omega
    have hx := List.mem_zipIdx_iff_getElem?.mp (hsort.subset hx)
    have hy := List.mem_zipIdx_iff_getElem?.mp (hinsert.subset hy)
    exact congrArg (·, i) (Option.some.inj (hx.symm.trans hy))
  · intro x y hxy
    simp only [r]
    omega

end FlatFormat

namespace FlatArchive

variable {f : FlatFormat} {a b : FlatArchive f} {field : Field}

namespace IsOpen

theorem pairwise_endsBefore (h : a.IsOpen) (hf : f.placing = .ends field) :
    a.entries.Pairwise Entry.EndsBefore := by
  have horder := FlatFormat.byEnd_zipIdx_pairwise field a.directory.records
  have heq : f.order a.directory = FlatFormat.byEnd field a.directory.records.zipIdx := by
    unfold FlatFormat.order; rw [hf]
  obtain ⟨hlen, hlists⟩ := List.forall₂_iff_get.mp h.forall₂_lists
  rw [heq] at hlen hlists
  rw [List.pairwise_iff_getElem] at horder ⊢
  intro i j hi hj hij
  have hlt := horder i j (by omega) (by omega) hij
  obtain ⟨hindex, hd⟩ := hlists i (by omega) hi
  obtain ⟨hindex', hd'⟩ := hlists j (by omega) hj
  have hend := hd.placed
  have hend' := hd'.placed
  simp only [hf, List.get_eq_getElem] at hend hend' hindex hindex'
  unfold Entry.EndsBefore
  rw [hend, hend', hindex, hindex']
  omega

theorem endsBefore_of_lt (h : a.IsOpen) (hf : f.placing = .ends field) {i j : Nat}
    {d e : Entry} (hd : a.entries[i]? = some d) (he : a.entries[j]? = some e) (hij : i < j) :
    d.EndsBefore e := by
  obtain ⟨hi, rfl⟩ := List.getElem?_eq_some_iff.mp hd
  obtain ⟨hj, rfl⟩ := List.getElem?_eq_some_iff.mp he
  exact List.pairwise_iff_getElem.mp (h.pairwise_endsBefore hf) i j hi hj hij

/-- An entry starts no earlier than all those before it end. -/
theorem endOffset_le_offset (h : a.IsOpen) (hf : f.placing = .ends field) {d e : Entry}
    (hd : d ∈ a.entries) (he : e ∈ a.entries) (hde : d.EndsBefore e) :
    d.endOffset ≤ e.offset := by
  obtain ⟨i, hi⟩ := List.mem_iff_getElem?.mp hd
  obtain ⟨j, hj⟩ := List.mem_iff_getElem?.mp he
  rcases Nat.lt_trichotomy i j with hij | rfl | hij
  · exact (h.tiles_of_ends hf).endOffset_le hi hj hij
  · obtain rfl := Option.some.inj (hi.symm.trans hj)
    exact absurd hde hde.asymm
  · exact absurd (h.endsBefore_of_lt hf hj hi hij) hde.asymm

/-- An entry starts where the directory ends, or where one before it ends. -/
theorem offset_cases (h : a.IsOpen) (hf : f.placing = .ends field) {e : Entry}
    (he : e ∈ a.entries) :
    e.offset = a.directory.endOffset ∨
      ∃ d ∈ a.entries, d.EndsBefore e ∧ d.endOffset = e.offset := by
  obtain ⟨i, hi⟩ := List.mem_iff_getElem?.mp he
  cases i with
  | zero => exact Or.inl ((h.tiles_of_ends hf).head hi)
  | succ i =>
    obtain ⟨d, hd⟩ := exists_getElem?_of_succ hi
    exact Or.inr ⟨d, List.mem_of_getElem? hd, h.endsBefore_of_lt hf hd hi (Nat.lt_succ_self i),
      ((h.tiles_of_ends hf).succ hd hi).symm⟩

end IsOpen

/-- Whether emptying `old` lets it overtake the entry that owns the bytes in front of it: that
entry has the greater number, so at the end that they now share it is listed second. -/
def Overtakes (entries : List Entry) (old : Entry) (bytes : Bytes) : Prop :=
  bytes.size = 0 ∧ old.size ≠ 0 ∧
    ∃ e ∈ entries, e.size ≠ 0 ∧ e.endOffset = old.offset ∧ old.index < e.index

instance (entries : List Entry) (old : Entry) (bytes : Bytes) :
    Decidable (Overtakes entries old bytes) :=
  inferInstanceAs (Decidable (_ ∧ _ ∧ ∃ e ∈ entries, _))

namespace Rebuilt

variable {name : String} {bytes : Bytes} {n i j : Nat} {r : Relayout} {old d e e' : Entry}

/-- When a payload and an empty one behind it come to end alike, their numbers ascend, unless the
replaced entry overtakes one. -/
theorem index_lt_of_tie (hab : Rebuilt a b name bytes n r old) (ha : a.IsOpen)
    (hf : f.placing = .ends field) (hover : ¬ Overtakes a.entries old bytes)
    (he : a.entries[i]? = some e) (hd : a.entries[j]? = some d) (hij : i < j)
    (hsize : (Relayout.placement old r.target bytes.size i e).size ≠ 0)
    (htie : (Relayout.placement old r.target bytes.size i e).endOffset =
      (Relayout.placement old r.target bytes.size j d).endOffset) : e.index < d.index := by
  have ht := ha.tiles_of_ends hf
  have hm := hab.moves
  have hbefore := ha.endsBefore_of_lt hf he hd hij
  unfold Entry.EndsBefore at hbefore
  rcases Nat.lt_or_ge j r.target with hj | hj
  · -- Both stay, so they ended alike before.
    obtain ⟨hei, -⟩ := hm.endOffset_of_lt_target ht he (by omega)
    obtain ⟨hdj, -⟩ := hm.endOffset_of_lt_target ht hd hj
    omega
  obtain ⟨hdj, holdd⟩ := hm.endOffset_of_target_le ht hd hj
  rcases Nat.lt_or_ge i r.target with hi | hi
  · -- The payload stays and the other moves up to it: the replaced entry has been emptied.
    obtain ⟨hei, heold⟩ := hm.endOffset_of_lt_target ht he hi
    have hesize : e.size ≠ 0 := by
      rwa [(hm.offset_of_lt_target ht he hi).2] at hsize
    by_contra hle
    have hend : e.endOffset < d.endOffset := by omega
    unfold Entry.endOffset at hei heold hdj holdd hend
    have hnumber : old.index ≤ d.index := by
      rcases Nat.eq_or_lt_of_le hj with rfl | hj
      · obtain rfl := Option.some.inj (hm.old_at.symm.trans hd)
        exact Nat.le_refl _
      · have holdbefore := ha.endsBefore_of_lt hf hm.old_at hd hj
        unfold Entry.EndsBefore Entry.endOffset at holdbefore
        omega
    refine hover ⟨by omega, by omega, e, List.mem_of_getElem? he, hesize, ?_, ?_⟩
    · unfold Entry.endOffset; omega
    · have hne : e.index ≠ old.index := by
        intro heq
        have := eq_of_index_eq ha he hm.old_at heq
        omega
      omega
  · -- Both move, so they ended alike before.
    obtain ⟨hei, -⟩ := hm.endOffset_of_target_le ht he hi
    omega

/-- Where a placement ends there is one that is not empty, unless that is where all start. -/
theorem exists_nonempty_endOffset_eq (hab : Rebuilt a b name bytes n r old) (ha : a.IsOpen)
    (hf : f.placing = .ends field) (he : a.entries[i]? = some e) :
    (Relayout.placement old r.target bytes.size i e).endOffset = a.directory.endOffset ∨
      ∃ j d, j ≤ i ∧ a.entries[j]? = some d ∧
        (Relayout.placement old r.target bytes.size j d).size ≠ 0 ∧
        (Relayout.placement old r.target bytes.size j d).endOffset =
          (Relayout.placement old r.target bytes.size i e).endOffset := by
  have ht := ha.tiles_of_ends hf
  by_cases hsize : (Relayout.placement old r.target bytes.size i e).size = 0
  · have hempty : (Relayout.placement old r.target bytes.size i e).endOffset =
        (Relayout.placement old r.target bytes.size i e).offset := by
      rw [Placement.endOffset, hsize, Nat.add_zero]
    rw [hempty]
    induction i generalizing e with
    | zero => exact Or.inl (hab.moves.offset_head ht he)
    | succ i ih =>
      obtain ⟨c, hc⟩ := exists_getElem?_of_succ he
      rw [hab.moves.placement_succ ht hc he]
      by_cases hcsize : (Relayout.placement old r.target bytes.size i c).size = 0
      · have hcempty : (Relayout.placement old r.target bytes.size i c).endOffset =
            (Relayout.placement old r.target bytes.size i c).offset := by
          rw [Placement.endOffset, hcsize, Nat.add_zero]
        rw [hcempty]
        rcases ih hc hcsize hcempty with hstart | ⟨j, d, hj, hd⟩
        · exact Or.inl hstart
        · exact Or.inr ⟨j, d, Nat.le_succ_of_le hj, hd⟩
      · exact Or.inr ⟨i, c, Nat.le_succ i, hc, hcsize, rfl⟩
  · exact Or.inr ⟨i, e, Nat.le_refl i, he, hsize, rfl⟩

section Count

variable (hab : Rebuilt a b name bytes n r old) (ha : a.IsOpen) (hb : b.IsOpen)
  (hcount : b.directory.count = a.directory.count) (hf : f.placing = .ends field)

include hab ha hb hcount hf

/-- Every entry ends where its placement does. -/
theorem endOffset_eq_placement (he : a.entries[i]? = some e) (he' : e' ∈ b.entries)
    (hindex : e'.index = e.index) :
    e'.endOffset = (Relayout.placement old r.target bytes.size i e).endOffset := by
  have ht := ha.tiles_of_ends hf
  refine hab.endOffset_eq ha hb hcount hf he he' hindex ?_
  exact Nat.le_trans (hab.moves.start_le_offset ht he) (Nat.le_add_right _ _)

/-- An entry that is left without bytes starts where it ends: one that ends there, is not empty and
has a lesser number comes before it. -/
theorem offset_eq_of_empty (hover : ¬ Overtakes a.entries old bytes) (he : a.entries[i]? = some e)
    (he' : e' ∈ b.entries) (hindex : e'.index = e.index)
    (hsize : (Relayout.placement old r.target bytes.size i e).size = 0) :
    e'.offset = (Relayout.placement old r.target bytes.size i e).offset := by
  have hend := hab.endOffset_eq_placement ha hb hcount hf he he' hindex
  have hstart := (hb.tiles_of_ends hf).le_offset e' he'
  rw [directoryEnd_eq ha hb hcount] at hstart
  have hle : e'.offset ≤ e'.endOffset := Nat.le_add_right _ _
  have hempty : (Relayout.placement old r.target bytes.size i e).endOffset =
      (Relayout.placement old r.target bytes.size i e).offset := by
    rw [Placement.endOffset, hsize, Nat.add_zero]
  rcases hab.exists_nonempty_endOffset_eq ha hf he with hfirst | ⟨j, d, hj, hd, hdsize, htie⟩
  · omega
  · have hji : j < i := by
      rcases Nat.lt_or_eq_of_le hj with hj | rfl
      · exact hj
      · rw [Option.some.inj (hd.symm.trans he)] at hdsize
        exact absurd hsize hdsize
    have hnumber := hab.index_lt_of_tie ha hf hover hd he hji hdsize htie
    obtain ⟨d', hd', hdindex⟩ := exists_new_entry ha hb hcount hd
    have hdend := hab.endOffset_eq_placement ha hb hcount hf hd hd' hdindex
    have := hb.endOffset_le_offset hf hd' he' (Or.inr ⟨by omega, by omega⟩)
    omega

/-- The entry listed before one that keeps bytes ends no later than its placement starts. -/
theorem offset_le_of_nonempty (hover : ¬ Overtakes a.entries old bytes)
    (he : a.entries[i]? = some e) (he' : e' ∈ b.entries) (hindex : e'.index = e.index)
    (hsize : (Relayout.placement old r.target bytes.size i e).size ≠ 0) :
    e'.offset ≤ (Relayout.placement old r.target bytes.size i e).offset := by
  have ht := ha.tiles_of_ends hf
  have hend := hab.endOffset_eq_placement ha hb hcount hf he he' hindex
  rcases hb.offset_cases hf he' with hfirst | ⟨d', hd', hbefore, hdend'⟩
  · rw [hfirst, directoryEnd_eq ha hb hcount]
    exact hab.moves.start_le_offset ht he
  · obtain ⟨j, d, hd, hdindex⟩ := exists_old_entry ha hb hcount hd'
    have hdend := hab.endOffset_eq_placement ha hb hcount hf hd hd' hdindex
    unfold Entry.EndsBefore at hbefore
    rcases Nat.lt_trichotomy i j with hij | rfl | hji
    · -- Then the two end alike, and `d` has the lesser number against `index_lt_of_tie`.
      have hlater := hab.moves.endOffset_le_offset ht he hd hij
      have hdle : (Relayout.placement old r.target bytes.size j d).offset ≤
          (Relayout.placement old r.target bytes.size j d).endOffset := Nat.le_add_right _ _
      have := hab.index_lt_of_tie ha hf hover he hd hij hsize (by omega)
      omega
    · obtain rfl := Option.some.inj (he.symm.trans hd)
      omega
    · have := hab.moves.endOffset_le_offset ht hd he hji
      omega

/-- Entries that stood before one that keeps bytes are listed before it again. -/
theorem le_offset_of_nonempty (he : a.entries[i]? = some e) (he' : e' ∈ b.entries)
    (hindex : e'.index = e.index)
    (hsize : (Relayout.placement old r.target bytes.size i e).size ≠ 0) :
    (Relayout.placement old r.target bytes.size i e).offset ≤ e'.offset := by
  have ht := ha.tiles_of_ends hf
  have hend := hab.endOffset_eq_placement ha hb hcount hf he he' hindex
  have hpos : (Relayout.placement old r.target bytes.size i e).offset <
      (Relayout.placement old r.target bytes.size i e).endOffset := by
    unfold Placement.endOffset; omega
  cases i with
  | zero =>
    rw [hab.moves.offset_head ht he, ← directoryEnd_eq ha hb hcount]
    exact (hb.tiles_of_ends hf).le_offset e' he'
  | succ i =>
    obtain ⟨d, hd⟩ := exists_getElem?_of_succ he
    obtain ⟨d', hd', hdindex⟩ := exists_new_entry ha hb hcount hd
    have hdend := hab.endOffset_eq_placement ha hb hcount hf hd hd' hdindex
    rw [hab.moves.placement_succ ht hd he] at hpos ⊢
    rw [← hdend]
    exact hb.endOffset_le_offset hf hd' he' (Or.inl (by omega))

/-- Unless the replaced entry overtakes one, every entry starts where its placement does. -/
theorem offset_eq_placement (hover : ¬ Overtakes a.entries old bytes) (he : a.entries[i]? = some e)
    (he' : e' ∈ b.entries) (hindex : e'.index = e.index) :
    e'.offset = (Relayout.placement old r.target bytes.size i e).offset := by
  by_cases hsize : (Relayout.placement old r.target bytes.size i e).size = 0
  · exact hab.offset_eq_of_empty ha hb hcount hf hover he he' hindex hsize
  · exact Nat.le_antisymm (hab.offset_le_of_nonempty ha hb hcount hf hover he he' hindex hsize)
      (hab.le_offset_of_nonempty ha hb hcount hf he he' hindex hsize)

/-- A replacement that is not empty leaves the entries in their order. -/
theorem map_index_eq (hfilled : 0 < bytes.size) :
    b.entries.map (·.index) = a.entries.map (·.index) := by
  have ht := ha.tiles_of_ends hf
  have hm := hab.moves
  -- Numbers are ordered as the entries of `b` that carry them.
  let before : Nat → Nat → Prop := fun j k =>
    ∀ d' ∈ b.entries, ∀ e' ∈ b.entries, d'.index = j → e'.index = k → d'.EndsBefore e'
  have hnew : (b.entries.map (·.index)).Pairwise before := by
    rw [List.pairwise_map, List.pairwise_iff_getElem]
    intro i j hi hj hij d' hd' e' he' hdi hej
    obtain ⟨x, hx⟩ := List.mem_iff_getElem?.mp hd'
    obtain ⟨y, hy⟩ := List.mem_iff_getElem?.mp he'
    obtain rfl := eq_of_index_eq hb hx (List.getElem?_eq_getElem hi) hdi
    obtain rfl := eq_of_index_eq hb hy (List.getElem?_eq_getElem hj) hej
    exact hb.endsBefore_of_lt hf hx hy hij
  have hold : (a.entries.map (·.index)).Pairwise before := by
    rw [List.pairwise_map, List.pairwise_iff_getElem]
    intro i j hi hj hij d' hd' e' he' hdi hej
    have hd := List.getElem?_eq_getElem hi
    have he := List.getElem?_eq_getElem hj
    have hbefore := ha.endsBefore_of_lt hf hd he hij
    have hdend := hab.endOffset_eq_placement ha hb hcount hf hd hd' hdi
    have heend := hab.endOffset_eq_placement ha hb hcount hf he he' hej
    unfold Entry.EndsBefore at hbefore ⊢
    rw [hdi, hej, hdend, heend]
    rcases Nat.lt_or_ge j r.target with hjt | hjt
    · rw [(hm.endOffset_of_lt_target ht hd (by omega)).1, (hm.endOffset_of_lt_target ht he hjt).1]
      exact hbefore
    · obtain ⟨hej', hejold⟩ := hm.endOffset_of_target_le ht he hjt
      rcases Nat.lt_or_ge i r.target with hit | hit
      · obtain ⟨hdi', hdiold⟩ := hm.endOffset_of_lt_target ht hd hit
        left
        unfold Entry.endOffset at hejold hdi' hdiold hej'
        omega
      · obtain ⟨hdi', -⟩ := hm.endOffset_of_target_le ht hd hit
        omega
  refine List.Perm.eq_of_pairwise ?_ hnew hold ?_
  · intro j k hj hk hjk hkj
    obtain ⟨d', hd', rfl⟩ := List.mem_map.mp hj
    obtain ⟨e, he, rfl⟩ := List.mem_map.mp hk
    obtain ⟨i, hi⟩ := List.mem_iff_getElem?.mp he
    obtain ⟨e', he', hindex⟩ := exists_new_entry ha hb hcount hi
    exact absurd (hkj e' he' d' hd' hindex rfl) (hjk d' hd' e' he' rfl hindex).asymm
  · refine hb.index_perm.trans ?_
    rw [hcount]
    exact ha.index_perm.symm

end Count

end Rebuilt

/-- An archive whose records state their ends, the later end first. -/
def descendingEnds : Bytes :=
  ([2, 0, 0, 0] ++ List.replicate 12 0 ++ [6, 0, 0, 0, 0x61] ++ List.replicate 27 0 ++
    [3, 0, 0, 0, 0x62] ++ List.replicate 27 0 ++ [1, 2, 3, 4, 5, 6] : List UInt8).toArray

end FlatArchive
end GameArchive
