import GameArchive.Archive.Extents
import GameArchive.Proofs.Bytes
import Mathlib.Data.List.Chain
/-!
# Extents that are accepted

Neighbours are compared after a sort by offset. As each entry starts at or before its own end, an
entry that ends in front of its neighbour ends in front of all that follow, so comparing neighbours
is enough to find every pair of entries that share a byte.
-/
namespace GameArchive

/-- Whether two entries have no byte in common. -/
def Entry.Apart (d e : Entry) : Prop :=
  0 < d.size → 0 < e.size → d.endOffset ≤ e.offset ∨ e.endOffset ≤ d.offset

instance Entry.decidableApart (d e : Entry) : Decidable (d.Apart e) :=
  inferInstanceAs (Decidable (_ → _ → _))

theorem Entry.read_of_le {e : Entry} {data : Bytes} (h : e.endOffset ≤ data.size) :
    e.read data = .ok (data.extract e.offset e.endOffset) :=
  Bytes.slice_of_le h

theorem Entry.size_of_read {e : Entry} {data bytes : Bytes} (h : e.read data = .ok bytes) :
    bytes.size = e.size := by
  obtain ⟨hfit, rfl⟩ := Bytes.slice_eq_ok.mp h
  rw [Array.size_extract, Nat.min_eq_left hfit, Nat.add_sub_cancel_left]

theorem checkRanges_eq_ok {size : Nat} {entries : List Entry} :
    checkRanges size entries = .ok () ↔ ∀ e ∈ entries, e.endOffset < wordLimit ∧ e.endOffset ≤ size := by
  induction entries with
  | nil => simp [checkRanges]
  | cons d rest ih =>
    rw [List.forall_mem_cons, ← ih, checkRanges]
    have hd : checkRange size d = .ok () ↔ d.endOffset < wordLimit ∧ d.endOffset ≤ size := by
      unfold checkRange
      split_ifs <;> simp <;> omega
    rw [← hd]
    cases checkRange size d with
    | error e => simp
    | ok u => simp

theorem findAdjacent?_eq_none {α : Type} {related : α → α → Bool} {l : List α} :
    findAdjacent? related l = none ↔ l.IsChain fun a b => related a b = false := by
  induction l with
  | nil => simp [findAdjacent?]
  | cons a rest ih =>
    cases rest with
    | nil => simp [findAdjacent?]
    | cons b rest =>
      rw [findAdjacent?, List.isChain_cons_cons, ← ih]
      cases related a b <;> simp

theorem pairwise_mergeSort_key {α : Type} (key : α → Nat) (l : List α) :
    (l.mergeSort fun a b => decide (key a ≤ key b)).Pairwise fun a b => key a ≤ key b := by
  let le := fun a b : α => decide (key a ≤ key b)
  have htrans : ∀ a b c, le a b → le b c → le a c := by
    intro a b c; simp only [le, decide_eq_true_eq]; omega
  have htotal : ∀ a b, le a b || le b a := by
    intro a b; simp only [le, Bool.or_eq_true, decide_eq_true_eq]; omega
  exact (List.pairwise_mergeSort htrans htotal l).imp of_decide_eq_true

theorem byOffset_pairwise (entries : List Entry) :
    (byOffset entries).Pairwise fun d e => d.offset ≤ e.offset :=
  pairwise_mergeSort_key Entry.offset _

theorem size_pos_of_mem_byOffset {entries : List Entry} {e : Entry} (he : e ∈ byOffset entries) :
    0 < e.size := by
  have h := (List.mergeSort_perm _ _).subset he
  simpa using (List.mem_filter.mp h).2

theorem checkDisjoint_eq_ok {entries : List Entry} :
    checkDisjoint entries = .ok () ↔ entries.Pairwise Entry.Apart := by
  have hchain : checkDisjoint entries = .ok () ↔
      (byOffset entries).Pairwise fun d e => d.endOffset ≤ e.offset := by
    have : IsTrans Entry fun d e => d.endOffset ≤ e.offset :=
      ⟨fun a b c hab hbc => by unfold Entry.endOffset at *; omega⟩
    rw [← List.isChain_iff_pairwise, checkDisjoint]
    have hnone := @findAdjacent?_eq_none Entry (fun d e => decide (e.offset < d.endOffset))
      (byOffset entries)
    simp only [decide_eq_false_iff_not, Nat.not_lt] at hnone
    rw [← hnone]
    cases findAdjacent? (fun d e : Entry => decide (e.offset < d.endOffset)) (byOffset entries) with
    | none => simp
    | some pair => simp
  have hperm : (byOffset entries).Pairwise (fun d e => d.endOffset ≤ e.offset ∨ e.endOffset ≤ d.offset) ↔
      entries.Pairwise Entry.Apart := by
    rw [byOffset, (List.mergeSort_perm _ _).pairwise_iff fun h => h.symm, List.pairwise_filter]
    simp only [decide_eq_true_eq]
    rfl
  rw [hchain, ← hperm]
  constructor
  · exact fun h => h.imp Or.inl
  · intro h
    refine ((byOffset_pairwise entries).and h).imp_of_mem ?_
    rintro d e hd he ⟨hle, hside⟩
    have hpos := size_pos_of_mem_byOffset he
    unfold Entry.endOffset at *
    omega

theorem checkExtents_eq_ok {size : Nat} {disjoint : Bool} {entries : List Entry} :
    checkExtents size disjoint entries = .ok () ↔
      (∀ e ∈ entries, e.endOffset < wordLimit ∧ e.endOffset ≤ size) ∧
        (disjoint = true → entries.Pairwise Entry.Apart) := by
  rw [← checkRanges_eq_ok, ← checkDisjoint_eq_ok, checkExtents, bind_eq_ok]
  constructor
  · rintro ⟨⟨⟩, hranges, h⟩
    exact ⟨hranges, fun hdisjoint => by rwa [if_pos hdisjoint] at h⟩
  · rintro ⟨hranges, h⟩
    refine ⟨(), hranges, ?_⟩
    split
    case isTrue hdisjoint => exact h hdisjoint
    case isFalse => rfl

end GameArchive
