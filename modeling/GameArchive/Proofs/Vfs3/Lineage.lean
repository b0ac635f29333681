import GameArchive.Proofs.Vfs3.Folders
import Mathlib.Data.List.Nodup
import Mathlib.Data.List.Perm.Subperm
/-!
# Chains of parents

A folder has a path exactly when its chain of parents ends at a folder that lies in none, with a
name for each folder on the way. A chain that ends holds no folder twice, so it is no longer than
the list of folders, and the bound on its length refuses none.
-/
namespace GameArchive.Vfs3

variable {folders : List Folder} {names : NameTable} {folder parent : Folder}

/-- The folders from one up to a folder that lies in none. -/
inductive Lineage (folders : List Folder) : Folder → List Folder → Prop
  | root {folder : Folder} (hroot : folder.parent = rootParent) : Lineage folders folder [folder]
  | nested {folder parent : Folder} {number : Nat} {above : List Folder}
      (hnested : folder.parent ≠ rootParent)
      (hparent : lastWithId? folders folder.parent = some (parent, number))
      (habove : Lineage folders parent above) : Lineage folders folder (folder :: above)

namespace Lineage

variable {l l' : List Folder}

theorem unique (h : Lineage folders folder l) (h' : Lineage folders folder l') : l = l' := by
  induction h generalizing l' with
  | root hroot =>
    cases h' with
    | root => rfl
    | nested hnested => exact absurd hroot hnested
  | nested hnested hparent _ ih =>
    cases h' with
    | root hroot => exact absurd hroot hnested
    | nested _ hparent' habove' =>
      cases hparent.symm.trans hparent'
      rw [ih habove']

/-- The chain of a folder goes on as that of each folder on it. -/
theorem exists_of_mem (h : Lineage folders folder l) (hmem : parent ∈ l) :
    ∃ l', Lineage folders parent l' ∧ l'.length ≤ l.length := by
  induction h with
  | root hroot =>
    obtain rfl := List.mem_singleton.mp hmem
    exact ⟨_, .root hroot, Nat.le_refl _⟩
  | nested hnested hparent habove ih =>
    rcases List.mem_cons.mp hmem with rfl | hmem
    · exact ⟨_, .nested hnested hparent habove, Nat.le_refl _⟩
    · obtain ⟨l', h', hle⟩ := ih hmem
      exact ⟨l', h', Nat.le_succ_of_le hle⟩

theorem nodup (h : Lineage folders folder l) : l.Nodup := by
  induction h with
  | root => exact List.nodup_singleton _
  | nested hnested hparent habove ih =>
    refine List.nodup_cons.mpr ⟨fun hmem => ?_, ih⟩
    -- A folder above itself would have two chains, one shorter than the other.
    obtain ⟨l', h', hle⟩ := habove.exists_of_mem hmem
    rw [h'.unique (.nested hnested hparent habove), List.length_cons] at hle
    omega

theorem subset (h : Lineage folders folder l) (hmem : folder ∈ folders) : l ⊆ folders := by
  induction h with
  | root => exact List.cons_subset.mpr ⟨hmem, List.nil_subset _⟩
  | nested _ hparent _ ih =>
    have hnumber := (of_lastWithId?_eq_some hparent).1
    exact List.cons_subset.mpr ⟨hmem, ih (List.mem_of_getElem? hnumber)⟩

theorem length_le (h : Lineage folders folder l) (hmem : folder ∈ folders) :
    l.length ≤ folders.length :=
  (List.subperm_of_subset h.nodup (h.subset hmem)).length_le

end Lineage

/-- Whether a folder has a path: its name where it lies in none, and otherwise its name below the
path of its parent. -/
inductive HasPath (folders : List Folder) (names : NameTable) : Folder → String → Prop
  | root {folder : Folder} {name : String} (hroot : folder.parent = rootParent)
      (hname : names.folderName folder.id = .ok name) : HasPath folders names folder name
  | nested {folder parent : Folder} {number : Nat} {name base : String}
      (hnested : folder.parent ≠ rootParent) (hname : names.folderName folder.id = .ok name)
      (hparent : lastWithId? folders folder.parent = some (parent, number))
      (hbase : HasPath folders names parent base) :
      HasPath folders names folder (joinPath base name)

theorem HasPath.exists_lineage {path : String} (h : HasPath folders names folder path) :
    ∃ l, Lineage folders folder l := by
  induction h with
  | root hroot => exact ⟨_, .root hroot⟩
  | nested hnested _ hparent _ ih =>
    obtain ⟨above, habove⟩ := ih
    exact ⟨_, .nested hnested hparent habove⟩

theorem HasPath.pathWithin_eq {path : String} {start : Int} {fuel : Nat} {l : List Folder}
    (h : HasPath folders names folder path) (hl : Lineage folders folder l)
    (hfuel : l.length ≤ fuel) : pathWithin folders names start fuel folder = .ok path := by
  induction h generalizing l fuel with
  | root hroot hname =>
    cases hl with
    | nested hnested => exact absurd hroot hnested
    | root =>
      obtain ⟨fuel, rfl⟩ := Nat.exists_eq_add_of_le' hfuel
      exact bind_eq_ok.mpr ⟨_, hname, if_pos hroot⟩
  | nested hnested hname hparent _ ih =>
    cases hl with
    | root hroot => exact absurd hroot hnested
    | nested _ hparent' habove =>
      cases hparent.symm.trans hparent'
      obtain ⟨fuel, rfl⟩ := Nat.exists_eq_add_of_le' (Nat.le_trans (Nat.succ_pos _) hfuel)
      refine bind_eq_ok.mpr ⟨_, hname, ?_⟩
      rw [if_neg hnested, hparent]
      exact bind_eq_ok.mpr ⟨_, ih habove (Nat.le_of_succ_le_succ hfuel), rfl⟩

theorem hasPath_of_pathWithin {path : String} {start : Int} {fuel : Nat}
    (h : pathWithin folders names start fuel folder = .ok path) :
    HasPath folders names folder path := by
  induction fuel generalizing folder path with
  | zero => cases h
  | succ fuel ih =>
    obtain ⟨name, hname, h⟩ := bind_eq_ok.mp h
    split at h
    case isTrue hroot =>
      cases h
      exact .root hroot hname
    case isFalse hnested =>
      split at h
      case h_1 => cases h
      case h_2 parent number hparent =>
        obtain ⟨base, hbase, h⟩ := bind_eq_ok.mp h
        cases h
        exact .nested hnested hname hparent (ih hbase)

/-- A folder of the list is given the path that it has, and refused only if it has none. -/
theorem pathOf_eq_ok_iff {path : String} (hmem : folder ∈ folders) :
    pathOf folders names folder = .ok path ↔ HasPath folders names folder path := by
  constructor
  · exact hasPath_of_pathWithin
  · intro h
    obtain ⟨l, hl⟩ := h.exists_lineage
    exact h.pathWithin_eq hl (Nat.le_succ_of_le (hl.length_le hmem))

/-- Where no id stands twice, the last folder with an id is the only one. -/
theorem lastWithId?_eq_some_iff (hnodup : (folders.map Folder.id).Nodup) {id : Int} {i : Nat} :
    lastWithId? folders id = some (folder, i) ↔ folders[i]? = some folder ∧ folder.id = id := by
  constructor
  · exact of_lastWithId?_eq_some
  · rintro ⟨hfolder, rfl⟩
    have hmem : (folder, i) ∈ folders.zipIdx.reverse :=
      List.mem_reverse.mpr (List.mem_zipIdx_iff_getElem?.mpr hfolder)
    have hfound : (lastWithId? folders folder.id).isSome :=
      List.find?_isSome.mpr ⟨_, hmem, beq_iff_eq.mpr rfl⟩
    obtain ⟨⟨last, j⟩, hlast⟩ := Option.isSome_iff_exists.mp hfound
    obtain ⟨hposition, hid⟩ := of_lastWithId?_eq_some hlast
    have hj : j < (folders.map Folder.id).length := by
      rw [List.length_map]
      exact (List.getElem?_eq_some_iff.mp hposition).1
    have hids : (folders.map Folder.id)[j]? = (folders.map Folder.id)[i]? := by
      rw [List.getElem?_map, List.getElem?_map, hposition, hfolder, Option.map_some,
        Option.map_some, hid]
    obtain rfl := (List.getElem?_inj hj hnodup).mp hids
    cases hposition.symm.trans hfolder
    exact hlast

end GameArchive.Vfs3
