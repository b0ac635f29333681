import GameArchive.Proofs.Extents
import GameArchive.Proofs.Flat.Directory
import GameArchive.Proofs.Relayout
import Mathlib.Data.List.Forall2
/-!
# The entries that a directory lists

Every entry is described by the record of its number, and every record describes one entry. In the
formats that leave out sizes or starts the entries tile: each starts where the one before it ends.
-/
namespace GameArchive

namespace FlatFormat

variable {f : FlatFormat}

/-- Whether a numbered record describes the entry of that number. -/
def Lists (f : FlatFormat) (directoryEnd : Nat) (x : Record f.layout × Nat) (e : Entry) : Prop :=
  e.index = x.2 ∧ f.Describes directoryEnd x.1 e

/-- The numbered records in the order in which the format lists their entries. -/
def order (f : FlatFormat) (t : Table f.layout) : List (Record f.layout × Nat) :=
  match f.placing with
  | .ends field => byEnd field t.records.zipIdx
  | _ => t.records.zipIdx

theorem order_perm (t : Table f.layout) : (f.order t).Perm t.records.zipIdx := by
  unfold order
  cases f.placing with
  | explicit offset size decompressed => exact List.Perm.refl _
  | ends field => exact List.mergeSort_perm _ _
  | starts field => exact List.Perm.refl _

theorem lists_explicitEntry {offset size : Field} {decompressed : Option Field} {directoryEnd : Nat}
    (hf : f.placing = .explicit offset size decompressed) (x : Record f.layout × Nat) :
    f.Lists directoryEnd x (f.explicitEntry offset size decompressed x.1 x.2) := by
  cases decompressed with
  | none => exact ⟨rfl, rfl, by rw [hf]; exact ⟨rfl, rfl⟩, by rw [hf]; rfl⟩
  | some field => exact ⟨rfl, rfl, by rw [hf]; exact ⟨rfl, rfl⟩, by rw [hf]; rfl⟩

theorem byEnd_pairwise {l : Layout} (field : Field) (records : List (Record l × Nat)) :
    (byEnd field records).Pairwise fun a b => a.1.number field ≤ b.1.number field :=
  pairwise_mergeSort_key (fun x : Record l × Nat => x.1.number field) records

theorem consecutiveEntries_spec {field : Field} {base start : Nat}
    {records : List (Record f.layout × Nat)} (hf : f.placing = .ends field)
    (hsorted : records.Pairwise fun a b => a.1.number field ≤ b.1.number field)
    (hstart : ∀ x ∈ records, start ≤ base + x.1.number field) :
    List.Forall₂ (f.Lists base) records (f.consecutiveEntries field base start records) ∧
      Tiles start (f.consecutiveEntries field base start records) := by
  induction records generalizing start with
  | nil => exact ⟨List.Forall₂.nil, trivial⟩
  | cons x rest ih =>
    obtain ⟨hhead, htail⟩ := List.pairwise_cons.mp hsorted
    have hx := hstart x List.mem_cons_self
    obtain ⟨hlists, htiles⟩ := @ih (base + x.1.number field) htail fun y hy =>
      Nat.add_le_add_left (hhead y hy) base
    have hend : start + (base + x.1.number field - start) = base + x.1.number field := by omega
    refine ⟨List.Forall₂.cons ⟨rfl, rfl, ?_, by rw [hf]; rfl⟩ hlists, rfl, ?_⟩
    · rw [hf]; exact hend
    · have : Tiles (start + (base + x.1.number field - start))
          (f.consecutiveEntries field base (base + x.1.number field) rest) := by
        rw [hend]; exact htiles
      exact this

theorem adjoiningEntries_spec {field : Field} (directoryEnd : Nat) {size : Nat}
    {records : List (Record f.layout × Nat)} {entries : List Entry} (hf : f.placing = .starts field)
    (h : f.adjoiningEntries field size records = .ok entries) :
    List.Forall₂ (f.Lists directoryEnd) records entries ∧
      (∃ start, Tiles start entries) ∧
      ∀ e, entries.getLast? = some e → e.endOffset = size := by
  induction records generalizing entries with
  | nil => cases h; exact ⟨List.Forall₂.nil, ⟨0, trivial⟩, by simp⟩
  | cons x rest ih =>
    obtain ⟨r, index⟩ := x
    cases rest with
    | nil =>
      unfold adjoiningEntries at h
      dsimp only at h
      split at h
      case isTrue => cases h
      case isFalse hle =>
        cases h
        refine ⟨List.Forall₂.cons ⟨rfl, rfl, by rw [hf]; rfl, by rw [hf]; rfl⟩ .nil,
          ⟨r.number field, rfl, trivial⟩, ?_⟩
        intro e he
        cases he
        show r.number field + (size - r.number field) = size
        omega
    | cons y rest =>
      unfold adjoiningEntries at h
      dsimp only at h
      split at h
      case isTrue => cases h
      case isFalse hle =>
        obtain ⟨others, hothers, rfl⟩ := map_eq_ok.mp h
        obtain ⟨hlists, ⟨start, htiles⟩, hlast⟩ := ih hothers
        cases hlists with
        | @cons _ e _ es hy hys =>
          have hplaced := hy.2.placed
          rw [hf] at hplaced
          have hend : r.number field + (y.1.number field - r.number field) = e.offset := by
            dsimp only at hplaced
            omega
          refine ⟨List.Forall₂.cons ⟨rfl, rfl, by rw [hf]; rfl, by rw [hf]; rfl⟩
            (List.Forall₂.cons hy hys), ⟨r.number field, rfl, hend.symm, htiles.2⟩, ?_⟩
          intro d hd
          exact hlast d (by rwa [List.getLast?_cons_cons] at hd)

/-- Offsets that ascend and stay within the archive are accepted. -/
theorem exists_adjoiningEntries {field : Field} {size : Nat} {records : List (Record f.layout × Nat)}
    (hsorted : records.IsChain fun x y => x.1.number field ≤ y.1.number field)
    (hlast : ∀ x ∈ records.getLast?, x.1.number field ≤ size) :
    ∃ entries, f.adjoiningEntries field size records = .ok entries := by
  induction records with
  | nil => exact ⟨[], rfl⟩
  | cons x rest ih =>
    obtain ⟨r, index⟩ := x
    cases rest with
    | nil =>
      have hle := hlast (r, index) rfl
      exact ⟨_, by rw [adjoiningEntries, if_neg (Nat.not_lt.mpr hle)]; rfl⟩
    | cons y rest =>
      obtain ⟨hle, htail⟩ := List.isChain_cons_cons.mp hsorted
      obtain ⟨entries, hentries⟩ := ih htail fun z hz => hlast z (by rwa [List.getLast?_cons_cons])
      refine ⟨f.entryAt r index (r.number field) (y.1.number field - r.number field) :: entries, ?_⟩
      rw [adjoiningEntries, hentries]
      exact if_neg (Nat.not_lt.mpr hle)

/-- The entries that are read are those that the records describe. -/
theorem lists_of_readEntries {t : Table f.layout} {entries : List Entry}
    (h : f.readEntries t = .ok entries) :
    List.Forall₂ (f.Lists t.endOffset) (f.order t) entries := by
  unfold readEntries at h
  unfold order
  cases hf : f.placing with
  | explicit offset size decompressed =>
    rw [hf] at h
    cases h
    exact List.forall₂_map_right_iff.mpr
      (List.forall₂_same.mpr fun x _ => lists_explicitEntry hf x)
  | ends field =>
    rw [hf] at h
    cases h
    exact (consecutiveEntries_spec hf (byEnd_pairwise _ _) fun _ _ => Nat.le_add_right _ _).1
  | starts field =>
    rw [hf] at h
    exact (adjoiningEntries_spec _ hf h).1

theorem tiles_of_starts {t : Table f.layout} {entries : List Entry} {field : Field}
    (hf : f.placing = .starts field) (h : f.readEntries t = .ok entries) :
    (∃ start, Tiles start entries) ∧
      ∀ e, entries.getLast? = some e → e.endOffset = t.data.size := by
  unfold readEntries at h
  rw [hf] at h
  exact (adjoiningEntries_spec 0 hf h).2

/-- Every entry is described by the record of its number. -/
theorem exists_record_of_readEntries {t : Table f.layout} {entries : List Entry} {e : Entry}
    (h : f.readEntries t = .ok entries) (he : e ∈ entries) :
    ∃ hi : e.index < t.count, f.Describes t.endOffset (t.record ⟨e.index, hi⟩) e := by
  obtain ⟨i, hi, rfl⟩ := List.mem_iff_getElem.mp he
  obtain ⟨hlen, hlists⟩ := List.forall₂_iff_get.mp (lists_of_readEntries h)
  obtain ⟨hindex, hdescribes⟩ := hlists i (by rw [hlen]; exact hi) hi
  have hmem : (f.order t).get ⟨i, by rw [hlen]; exact hi⟩ ∈ t.records.zipIdx :=
    (order_perm t).subset (List.get_mem _ _)
  generalize (f.order t).get ⟨i, _⟩ = x at hindex hdescribes hmem
  obtain ⟨r, k⟩ := x
  obtain ⟨-, hk, hr⟩ := List.mem_zipIdx hmem
  simp only [Table.records, List.getElem_ofFn, Nat.sub_zero, List.length_ofFn, Nat.zero_add] at hk hr
  dsimp only at hindex
  subst hindex
  rw [hr] at hdescribes
  exact ⟨hk, hdescribes⟩

end FlatFormat
end GameArchive
