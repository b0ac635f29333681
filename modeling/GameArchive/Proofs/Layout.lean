import GameArchive.Proofs.Extents
import GameArchive.Proofs.Record
import Mathlib.Data.List.Pairwise
/-!
# Layouts whose fields lie apart

The fields of a layout are sorted by where they stand, and only neighbours are compared. As each
field starts at or before its own end, a field that ends in front of its neighbour ends in front of
all that follow, so no two fields of a consistent layout have a byte in common.
-/
namespace GameArchive

namespace Field

variable {f g : Field}

instance : Std.Symm Field.Apart :=
  ⟨fun _ _ h => h.symm⟩

theorem Apart.not_has (h : f.Apart g) {k : Nat} (hk : g.Has k) : ¬ f.Has k := by
  unfold Apart at h
  unfold Has at *
  omega

/-- Fields that take bytes lie apart when they share none. -/
theorem apart_iff (hf : 0 < f.kind.width) (hg : 0 < g.kind.width) :
    f.Apart g ↔ ∀ k, ¬ (f.Has k ∧ g.Has k) := by
  constructor
  · exact fun h k ⟨hk, hk'⟩ => h.not_has hk' hk
  · intro h
    have hk := h (max f.offset g.offset)
    unfold Has endOffset at hk
    unfold Apart endOffset
    omega

end Field

namespace Layout

variable {l : Layout} {f g : Field} {name other : String}

theorem field_eq_ok (h : l.field name = .ok f) : f ∈ l.fields ∧ f.name = name := by
  unfold field at h
  split at h
  case h_1 f' hfind =>
    cases h
    exact ⟨List.mem_of_find?_eq_some hfind, by simpa using List.find?_some hfind⟩
  case h_2 => cases h

/-- The fields by where they start, and then by where they end. -/
def byPlace (l : Layout) : List Field :=
  l.fields.mergeSort fun f g =>
    decide (f.offset < g.offset ∨ (f.offset = g.offset ∧ f.endOffset ≤ g.endOffset))

theorem spans_eq (l : Layout) : l.spans = l.byPlace.map fun f => (f.offset, f.endOffset) := by
  rw [spans, byPlace, List.map_mergeSort]
  exact fun _ _ _ _ => rfl

theorem byPlace_perm (l : Layout) : l.byPlace.Perm l.fields :=
  List.mergeSort_perm _ _

theorem byPlace_pairwise (l : Layout) : l.byPlace.Pairwise fun f g => f.offset ≤ g.offset := by
  refine (List.pairwise_mergeSort ?_ ?_ l.fields).imp ?_
  · intro f g h
    simp only [decide_eq_true_eq]
    omega
  · intro f g
    simp only [Bool.or_eq_true, decide_eq_true_eq]
    omega
  · intro f g h
    have := of_decide_eq_true h
    omega

/-- Comparing neighbours is comparing all. -/
theorem isConsistent_iff : l.isConsistent = true ↔
    (∀ f ∈ l.fields, f.endOffset ≤ l.size) ∧
      l.byPlace.Pairwise fun f g => f.endOffset ≤ g.offset := by
  have : IsTrans Field fun f g => f.endOffset ≤ g.offset :=
    ⟨fun f g h hfg hgh => by unfold Field.endOffset at *; omega⟩
  have hinside : l.spans.all (fun s => decide (s.2 ≤ l.size)) = true ↔
      ∀ f ∈ l.fields, f.endOffset ≤ l.size := by
    rw [spans_eq, List.all_map, List.all_eq_true]
    simp only [Function.comp, decide_eq_true_eq, l.byPlace_perm.mem_iff]
  rw [isConsistent, Bool.and_eq_true, hinside, Option.isNone_iff_eq_none, findAdjacent?_eq_none,
    spans_eq, List.isChain_map, ← List.isChain_iff_pairwise]
  simp only [decide_eq_false_iff_not, Nat.not_lt]

theorem apart_of_isConsistent (h : l.isConsistent = true) : l.fields.Pairwise Field.Apart :=
  (l.byPlace_perm.pairwise_iff fun h => h.symm).mp ((isConsistent_iff.mp h).2.imp Or.inl)

/-- Fields that are found under different names lie apart. -/
theorem apart_of_field (h : l.isConsistent = true) (hname : other ≠ name)
    (hf : l.field name = .ok f) (hg : l.field other = .ok g) : f.Apart g := by
  obtain ⟨hmem, rfl⟩ := field_eq_ok hf
  obtain ⟨hmem', rfl⟩ := field_eq_ok hg
  apply (apart_of_isConsistent h).forall hmem hmem'
  intro hsame
  exact hname (congrArg Field.name hsame.symm)

/-- Of two fields that lie apart, the one that starts first ends first, if it takes bytes. -/
theorem isConsistent_iff_apart (hpos : ∀ f ∈ l.fields, 0 < f.kind.width) :
    l.isConsistent = true ↔
      (∀ f ∈ l.fields, f.endOffset ≤ l.size) ∧ l.fields.Pairwise Field.Apart := by
  constructor
  · intro h
    exact ⟨(isConsistent_iff.mp h).1, apart_of_isConsistent h⟩
  · intro h
    obtain ⟨hinside, hapart⟩ := h
    rw [← l.byPlace_perm.pairwise_iff fun h => h.symm] at hapart
    refine isConsistent_iff.mpr ⟨hinside, (l.byPlace_pairwise.and hapart).imp_of_mem ?_⟩
    intro f g hf hg hfg
    obtain ⟨hle, hside⟩ := hfg
    have hg' := hpos g (l.byPlace_perm.subset hg)
    unfold Field.Apart at hside
    unfold Field.endOffset at *
    omega

/-- Where all fields take bytes, a layout is consistent when they lie inside the record and no two
of them share a byte. -/
theorem isConsistent_iff_of_pos (hpos : ∀ f ∈ l.fields, 0 < f.kind.width) :
    l.isConsistent = true ↔ (∀ f ∈ l.fields, f.endOffset ≤ l.size) ∧
      l.fields.Pairwise fun f g => ∀ k, ¬ (f.Has k ∧ g.Has k) := by
  have happart : l.fields.Pairwise Field.Apart ↔
      l.fields.Pairwise fun f g => ∀ k, ¬ (f.Has k ∧ g.Has k) :=
    List.Pairwise.iff_of_mem fun {f g} hf hg => Field.apart_iff (hpos f hf) (hpos g hg)
  rw [isConsistent_iff_apart hpos, happart]

end Layout
end GameArchive
