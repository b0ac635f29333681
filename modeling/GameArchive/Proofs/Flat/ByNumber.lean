import GameArchive.Proofs.Flat.EndOrder
/-!
# Reading by number where ends alone are stated

A replacement is read back, and every other number as before, exactly when the replaced entry does
not overtake the one in front of it. If it does, the two swap: the bytes that the one in front owns
are read from the emptied entry, and the owner reads nothing.
-/
namespace GameArchive.FlatArchive

variable {f : FlatFormat} {a b : FlatArchive f} {field : Field}

/-- The bytes of the entry that record `number` lists. -/
def readNumber (a : FlatArchive f) (number : Nat) : Option Bytes :=
  (a.entries.find? fun e => e.index == number).bind fun e => (e.read a.data).toOption

theorem IsOpen.readNumber_index (ha : a.IsOpen) {i : Nat} {e : Entry}
    (he : a.entries[i]? = some e) : a.readNumber e.index = (e.read a.data).toOption := by
  unfold readNumber
  cases hfound : a.entries.find? fun d => d.index == e.index with
  | none =>
    have hne := List.find?_eq_none.mp hfound e (List.mem_of_getElem? he)
    exact absurd BEq.rfl hne
  | some d =>
    have hindex : d.index = e.index := by simpa using List.find?_some hfound
    obtain ⟨j, hd⟩ := List.mem_iff_getElem?.mp (List.mem_of_find?_eq_some hfound)
    obtain rfl := eq_of_index_eq ha hd he hindex
    rw [Option.some.inj (hd.symm.trans he)]
    rfl

theorem IsOpen.readNumber_of_count_le (ha : a.IsOpen) {k : Nat} (hk : a.directory.count ≤ k) :
    a.readNumber k = none := by
  have hnone : (a.entries.find? fun e => e.index == k) = none := by
    apply List.find?_eq_none.mpr
    intro e he
    have hlt := ha.index_lt he
    simp only [beq_iff_eq]
    omega
  unfold readNumber
  rw [hnone]
  rfl

namespace Rebuilt

variable {name : String} {bytes : Bytes} {n i : Nat} {r : Relayout} {old e : Entry}

section Ends

variable (hab : Rebuilt a b name bytes n r old) (ha : a.IsOpen) (hb : b.IsOpen)
  (hf : f.placing = .ends field)

include hab ha hb hf

theorem count_eq_of_ends : b.directory.count = a.directory.count :=
  hab.count_eq ha hb (Nat.le_trans ha.headerSize_le
    ((ha.tiles_of_ends hf).le_offset old hab.moves.old_mem))

/-- Unless an entry is overtaken, each number reads the payload that was copied for it. -/
theorem readNumber_eq_payload (hover : ¬ Overtakes a.entries old bytes)
    (he : a.entries[i]? = some e) :
    b.readNumber e.index = some (Relayout.payload a.data r.target bytes i e) := by
  have hcount := hab.count_eq_of_ends ha hb hf
  obtain ⟨e', he', hindex⟩ := exists_new_entry ha hb hcount he
  have hoffset := hab.offset_eq_placement ha hb hcount hf hover he he' hindex
  have hend := hab.endOffset_eq_placement ha hb hcount hf he he' hindex
  have hsize : e'.size = (Relayout.placement old r.target bytes.size i e).size := by
    unfold Entry.endOffset Placement.endOffset at hend
    omega
  have hread := hab.read_eq_payload ha hb he he' hoffset hsize
    (hab.moves.start_le_offset (ha.tiles_of_ends hf) he)
  obtain ⟨j, hj⟩ := List.mem_iff_getElem?.mp he'
  rw [← hindex, hb.readNumber_index hj, hread]
  rfl

/-- An entry that is overtaken is empty: the emptied one ends where it does and is listed first. -/
theorem size_eq_zero_of_overtaken {e' : Entry} (hempty : bytes.size = 0) (hsize : old.size ≠ 0)
    (he : a.entries[i]? = some e) (hend : e.endOffset = old.offset) (hless : old.index < e.index)
    (he' : e' ∈ b.entries) (hindex : e'.index = e.index) : e'.size = 0 := by
  have hcount := hab.count_eq_of_ends ha hb hf
  have ht := ha.tiles_of_ends hf
  have hm := hab.moves
  obtain ⟨old', hold', hindex'⟩ := exists_new_entry ha hb hcount hm.old_at
  have hend' := hab.endOffset_eq_placement ha hb hcount hf he he' hindex
  have holdend' := hab.endOffset_eq_placement ha hb hcount hf hm.old_at hold' hindex'
  have hfront : i < r.target := by
    rcases Nat.lt_trichotomy i r.target with hi | rfl | hi
    · exact hi
    · have heq := Option.some.inj (he.symm.trans hm.old_at)
      rw [heq] at hless
      omega
    · have hbefore := ha.endsBefore_of_lt hf hm.old_at he hi
      unfold Entry.EndsBefore Entry.endOffset at hbefore
      unfold Entry.endOffset at hend
      omega
  rw [(hm.endOffset_of_lt_target ht he hfront).1, hend] at hend'
  rw [Relayout.placement_target, Placement.endOffset] at holdend'
  dsimp only at holdend'
  have hle := hb.endOffset_le_offset hf hold' he' (Or.inr ⟨by omega, by omega⟩)
  unfold Entry.endOffset at hend' hle holdend'
  omega

end Ends
end Rebuilt

/-- A replacement among stated ends is read back under its number, and every other number reads as
before, exactly when the replaced entry does not overtake one. -/
theorem reads_back_iff_not_overtakes {a b : FlatArchive (.startDat .endOffset)} {data : Bytes}
    {name : String} {bytes : Bytes} {n : Nat} {old : Entry}
    (hopen : ofBytes (.startDat .endOffset) data = .ok a) (hfind : a.find name = .ok old)
    (hreplace : a.replace name bytes n = .ok b) :
    ofBytes (.startDat .endOffset) b.data = .ok b ∧
      ((b.readNumber old.index = some bytes ∧
          ∀ k, k ≠ old.index → b.readNumber k = a.readNumber k) ↔
        ¬ Overtakes a.entries old bytes) := by
  obtain ⟨ha, rfl⟩ := isOpen_of_ofBytes hopen
  obtain ⟨hb, hopen', r, old', hab⟩ := rebuilt_of_replace ha hreplace
  have hm := hab.moves
  have hf : (FlatFormat.startDat .endOffset).placing = .ends (FlatFormat.endAt 0x00) := rfl
  have hcount := hab.count_eq_of_ends ha hb hf
  obtain rfl := Except.ok.inj (hab.find_eq.symm.trans hfind)
  refine ⟨hopen', ?_, ?_⟩
  · rintro ⟨-, hothers⟩ ⟨hempty, hsize, e, he, hesize, hend, hless⟩
    obtain ⟨i, hi⟩ := List.mem_iff_getElem?.mp he
    obtain ⟨e', he', hindex⟩ := Rebuilt.exists_new_entry ha hb hcount hi
    obtain ⟨j, hj⟩ := List.mem_iff_getElem?.mp he'
    have hzero := hab.size_eq_zero_of_overtaken ha hb hf hempty hsize hi hend hless he' hindex
    have hread := hothers e.index (by omega)
    rw [ha.readNumber_index hi, ← hindex, hb.readNumber_index hj,
      Entry.read_of_le (ha.endOffset_le e he), Entry.read_of_le (hb.endOffset_le e' he')] at hread
    have hlen := congrArg Array.size (Option.some.inj hread)
    have hfit := ha.endOffset_le e he
    have hfit' := hb.endOffset_le e' he'
    rw [Array.size_extract, Array.size_extract, Nat.min_eq_left hfit, Nat.min_eq_left hfit'] at hlen
    unfold Entry.endOffset at hlen
    omega
  · intro hover
    constructor
    · rw [hab.readNumber_eq_payload ha hb hf hover hm.old_at, Relayout.payload, if_pos rfl]
    · intro k hk
      rcases Nat.lt_or_ge k a.directory.count with hlt | hge
      · obtain ⟨i, e, he, rfl⟩ := ha.exists_entry_of_lt hlt
        have hi : i ≠ r.target := by
          rintro rfl
          rw [Option.some.inj (he.symm.trans hm.old_at)] at hk
          exact hk rfl
        rw [hab.readNumber_eq_payload ha hb hf hover he, Relayout.payload, if_neg hi,
          ha.readNumber_index he, Entry.read_of_le (ha.endOffset_le e (List.mem_of_getElem? he))]
        rfl
      · rw [ha.readNumber_of_count_le hge, hb.readNumber_of_count_le (by omega)]

theorem reads_back_iff_not_overtakes_descendingEnds :
    ∃ (a b : FlatArchive (.startDat .endOffset)) (old : Entry),
      ofBytes (.startDat .endOffset) descendingEnds = .ok a ∧ a.find "a" = .ok old ∧
      a.replace "a" #[] 0 = .ok b ∧ Overtakes a.entries old #[] ∧
      ¬ (b.readNumber old.index = some #[] ∧
        ∀ k, k ≠ old.index → b.readNumber k = a.readNumber k) := by
  obtain ⟨a, ha, hcheck⟩ := exists_ok_of_any
    (x := ofBytes (.startDat .endOffset) descendingEnds)
    (p := fun a => ((a.find "a").toOption.any fun old => decide (Overtakes a.entries old #[])) &&
      (a.replace "a" #[] 0).toOption.isSome)
    (by
      simp only [replace, ofBytes, FlatFormat.readEntries, FlatFormat.placing,
        FlatFormat.byEnd_zipIdx_eq_insertionSort]
      decide +kernel)
  obtain ⟨hfind, hreplace⟩ := Bool.and_eq_true_iff.mp hcheck
  obtain ⟨old, hold, hover⟩ := exists_ok_of_any hfind
  rw [← Option.any_true] at hreplace
  obtain ⟨b, hb, -⟩ := exists_ok_of_any hreplace
  have hovertakes := of_decide_eq_true hover
  refine ⟨a, b, old, ha, hold, hb, hovertakes, ?_⟩
  exact fun hreads => (reads_back_iff_not_overtakes ha hold hb).2.mp hreads hovertakes

end GameArchive.FlatArchive
