import GameArchive.Proofs.Vfs3.Lineage
import Mathlib.Logic.Relation
/-!
# Folders as a forest

Where no id stands twice, every folder has a path exactly when each one has a name and, by going
from parent to parent, leads to a folder that lies in none. The path of a folder then is its name
below that of its parent, in whatever order the folders are listed.
-/
namespace GameArchive.Vfs3

open Relation (ReflTransGen)

variable {folders folders' : List Folder} {names : NameTable} {folder parent : Folder}
  {path : String}

/-- Whether `folder` lies in the folder `parent` of the list. -/
def LiesIn (folders : List Folder) (folder parent : Folder) : Prop :=
  folder.parent ≠ rootParent ∧ parent ∈ folders ∧ parent.id = folder.parent

theorem liesIn_iff (hids : (folders.map Folder.id).Nodup) :
    LiesIn folders folder parent ↔ folder.parent ≠ rootParent ∧
      ∃ number, lastWithId? folders folder.parent = some (parent, number) := by
  simp only [LiesIn, lastWithId?_eq_some_iff hids, List.mem_iff_getElem?, exists_and_right]

/-- Whether `paths` holds for each folder its name, behind the path of the folder that it lies in if
there is one. -/
structure FollowParents (folders : List Folder) (names : NameTable) (paths : List String) :
    Prop where
  length_eq : paths.length = folders.length
  path_eq : ∀ (i : Nat) (folder : Folder) (path : String),
    folders[i]? = some folder → paths[i]? = some path →
    ∃ name, names.folders[folder.id.toNat]? = some name ∧
      (folder.parent = rootParent → path = name) ∧
      (folder.parent ≠ rootParent → ∃ (j : Nat) (parent : Folder) (base : String),
        folders[j]? = some parent ∧ parent.id = folder.parent ∧ paths[j]? = some base ∧
        path = if base = "" then name else base ++ "/" ++ name)

/-! ### Failures -/

/-- An id has a name exactly when it is a number of the list. -/
theorem folderName_cases (names : NameTable) (id : Int) :
    (∃ name, names.folderName id = .ok name ∧ (0 ≤ id ∧ id < names.folders.length) ∧
        names.folders[id.toNat]? = some name) ∨
      ¬ (0 ≤ id ∧ id < names.folders.length) ∧
        ∃ cause, names.folderName id = .error (.malformed cause) := by
  by_cases hid : 0 ≤ id ∧ id < names.folders.length
  · have hname := List.getElem?_eq_getElem (l := names.folders) (i := id.toNat) (by omega)
    refine Or.inl ⟨_, ?_, hid, hname⟩
    rw [NameTable.folderName, lookup?, if_neg (by omega), hname]
  · refine Or.inr ⟨hid, .unnamedId "folder" id names.folders.length, ?_⟩
    have hnone : lookup? names.folders id = none := by
      rw [lookup?]
      split
      case isTrue => rfl
      case isFalse hneg => exact List.getElem?_eq_none (by omega)
    rw [NameTable.folderName, hnone]

theorem of_folderName_eq_ok {id : Int} {name : String} (h : names.folderName id = .ok name) :
    (0 ≤ id ∧ id < names.folders.length) ∧ names.folders[id.toNat]? = some name := by
  rcases folderName_cases names id with ⟨name', hname', hid, hget⟩ | ⟨-, cause, herror⟩
  · exact ⟨hid, by rw [hget, Except.ok.inj (hname'.symm.trans h)]⟩
  · cases h.symm.trans herror

theorem pathWithin_cases (names : NameTable) (start : Int) (fuel : Nat) (folder : Folder) :
    (∃ path, pathWithin folders names start fuel folder = .ok path) ∨
      ∃ cause, pathWithin folders names start fuel folder = .error (.malformed cause) := by
  induction fuel generalizing folder with
  | zero => exact Or.inr ⟨_, rfl⟩
  | succ fuel ih =>
    rw [pathWithin]
    rcases folderName_cases names folder.id with ⟨name, hname, -⟩ | ⟨-, cause, hname⟩
    case inr => exact Or.inr ⟨cause, by rw [hname]; rfl⟩
    rw [hname]
    simp only [bind, Except.bind]
    split
    case isTrue => exact Or.inl ⟨name, rfl⟩
    case isFalse =>
      split
      case h_1 => exact Or.inr ⟨_, rfl⟩
      case h_2 parent _ _ =>
        rcases ih parent with ⟨base, hbase⟩ | ⟨cause, hbase⟩
        · exact Or.inl ⟨_, by rw [hbase]⟩
        · exact Or.inr ⟨cause, by rw [hbase]⟩

theorem pathsOf_cases {l : List Folder} (hsub : l ⊆ folders) :
    (∃ paths, pathsOf folders names l = .ok paths) ∨
      (∃ folder ∈ l, ∀ path, ¬ HasPath folders names folder path) ∧
        ∃ cause, pathsOf folders names l = .error (.malformed cause) := by
  induction l with
  | nil => exact Or.inl ⟨[], rfl⟩
  | cons folder rest ih =>
    obtain ⟨hmem, hrest⟩ := List.cons_subset.mp hsub
    rw [pathsOf]
    rcases pathWithin_cases names folder.id (folders.length + 1) folder with
      ⟨path, hpath⟩ | ⟨cause, herror⟩
    · rw [pathOf, hpath]
      rcases ih hrest with ⟨paths, hpaths⟩ | ⟨⟨other, hother, hnone⟩, cause, herror⟩
      · exact Or.inl ⟨path :: paths, by rw [hpaths]; rfl⟩
      · exact Or.inr ⟨⟨other, List.mem_cons_of_mem _ hother, hnone⟩, cause, by rw [herror]; rfl⟩
    · rw [pathOf, herror]
      refine Or.inr ⟨⟨folder, List.mem_cons_self, fun path h => ?_⟩, cause, rfl⟩
      cases ((pathOf_eq_ok_iff hmem).mpr h).symm.trans herror

/-- Paths are given, or refused for a folder that has none. -/
theorem exists_folderPaths_iff : (∃ paths, folderPaths folders names = .ok paths) ↔
    ∀ folder ∈ folders, ∃ path, HasPath folders names folder path := by
  constructor
  · rintro ⟨paths, hpaths⟩ folder hmem
    obtain ⟨i, hfolder⟩ := List.mem_iff_getElem?.mp hmem
    obtain ⟨path, -, hpath⟩ := exists_getElem?_of_forall₂ (pathsOf_eq_ok.mp hpaths) hfolder
    exact ⟨path, (pathOf_eq_ok_iff hmem).mp hpath⟩
  · intro h
    rcases pathsOf_cases (List.Subset.refl folders) with hok | ⟨⟨folder, hmem, hnone⟩, -⟩
    · exact hok
    · obtain ⟨path, hpath⟩ := h folder hmem
      exact absurd hpath (hnone path)

/-- Each folder is given the path that it has. -/
theorem getElem?_folderPaths {paths : List String} {i : Nat}
    (h : folderPaths folders names = .ok paths) (hfolder : folders[i]? = some folder) :
    paths[i]? = some path ↔ HasPath folders names folder path := by
  obtain ⟨path', hpath', heq⟩ := exists_getElem?_of_forall₂ (pathsOf_eq_ok.mp h) hfolder
  rw [← pathOf_eq_ok_iff (List.mem_of_getElem? hfolder), hpath', heq, Option.some.injEq,
    Except.ok.injEq]

/-! ### Forests -/

/-- Names and chains of parents that end are all that paths need. -/
theorem exists_hasPath_iff (hids : (folders.map Folder.id).Nodup)
    (hnames : ∀ folder ∈ folders, 0 ≤ folder.id ∧ folder.id < names.folders.length)
    (hmem : folder ∈ folders) :
    (∃ path, HasPath folders names folder path) ↔
      ∃ top, ReflTransGen (LiesIn folders) folder top ∧ top.parent = rootParent := by
  have hname : ∀ folder ∈ folders, ∃ name, names.folderName folder.id = .ok name := by
    intro folder hmem
    rcases folderName_cases names folder.id with ⟨name, hname, -⟩ | ⟨hnone, -⟩
    · exact ⟨name, hname⟩
    · exact absurd (hnames folder hmem) hnone
  constructor
  · rintro ⟨path, h⟩
    induction h with
    | root hroot => exact ⟨_, .refl, hroot⟩
    | nested hnested hname hparent _ ih =>
      obtain ⟨top, htop, hroot⟩ := ih (List.mem_of_getElem? (of_lastWithId?_eq_some hparent).1)
      exact ⟨top, .head ((liesIn_iff hids).mpr ⟨hnested, _, hparent⟩) htop, hroot⟩
  · rintro ⟨top, htop, hroot⟩
    induction htop using ReflTransGen.head_induction_on with
    | refl =>
      obtain ⟨name, hname⟩ := hname _ hmem
      exact ⟨name, .root hroot hname⟩
    | head hlies _ ih =>
      obtain ⟨name, hname⟩ := hname _ hmem
      obtain ⟨base, hbase⟩ := ih hlies.2.1
      obtain ⟨hnested, number, hparent⟩ := (liesIn_iff hids).mp hlies
      exact ⟨_, .nested hnested hname hparent hbase⟩

theorem HasPath.named (h : HasPath folders names folder path) :
    0 ≤ folder.id ∧ folder.id < names.folders.length := by
  cases h with
  | root _ hname => exact (of_folderName_eq_ok hname).1
  | nested _ hname => exact (of_folderName_eq_ok hname).1

theorem HasPath.perm (hids : (folders.map Folder.id).Nodup) (hperm : folders'.Perm folders)
    (h : HasPath folders names folder path) : HasPath folders' names folder path := by
  have hids' : (folders'.map Folder.id).Nodup := (hperm.map Folder.id).nodup_iff.mpr hids
  induction h with
  | root hroot hname => exact .root hroot hname
  | nested hnested hname hparent _ ih =>
    obtain ⟨-, hmem, hid⟩ := (liesIn_iff hids).mpr ⟨hnested, _, hparent⟩
    obtain ⟨-, number, hparent'⟩ := (liesIn_iff hids').mp ⟨hnested, hperm.mem_iff.mpr hmem, hid⟩
    exact .nested hnested hname hparent' ih

theorem followParents_of_folderPaths {paths : List String}
    (h : folderPaths folders names = .ok paths) : FollowParents folders names paths where
  length_eq := (pathsOf_eq_ok.mp h).length_eq.symm
  path_eq i folder path hfolder hpath := by
    cases (getElem?_folderPaths h hfolder).mp hpath with
    | root hroot hname =>
      exact ⟨path, (of_folderName_eq_ok hname).2, fun _ => rfl,
        fun hnested => absurd hroot hnested⟩
    | nested hnested hname hparent hbase =>
      obtain ⟨hget, hid⟩ := of_lastWithId?_eq_some hparent
      refine ⟨_, (of_folderName_eq_ok hname).2, fun hroot => absurd hroot hnested, fun _ => ?_⟩
      refine ⟨_, _, _, hget, hid, (getElem?_folderPaths h hget).mpr hbase, ?_⟩
      simp only [joinPath, String.isEmpty_iff]

/-- Listed in another order, the folders have paths as before, and the same ones. -/
theorem folderPaths_perm (hids : (folders.map Folder.id).Nodup) (hperm : folders'.Perm folders) :
    ((∃ paths, folderPaths folders' names = .ok paths) ↔
        ∃ paths, folderPaths folders names = .ok paths) ∧
      ∀ paths paths', folderPaths folders names = .ok paths →
        folderPaths folders' names = .ok paths' →
        ∀ (i j : Nat) (id : Int), (folders.map Folder.id)[i]? = some id →
          (folders'.map Folder.id)[j]? = some id → paths[i]? = paths'[j]? := by
  have hids' : (folders'.map Folder.id).Nodup := (hperm.map Folder.id).nodup_iff.mpr hids
  constructor
  · rw [exists_folderPaths_iff, exists_folderPaths_iff]
    constructor
    · intro h folder hmem
      obtain ⟨path, hpath⟩ := h folder (hperm.mem_iff.mpr hmem)
      exact ⟨path, hpath.perm hids' hperm.symm⟩
    · intro h folder hmem
      obtain ⟨path, hpath⟩ := h folder (hperm.mem_iff.mp hmem)
      exact ⟨path, hpath.perm hids hperm⟩
  · intro paths paths' h h' i j id hi hj
    rw [List.getElem?_map, Option.map_eq_some_iff] at hi hj
    obtain ⟨folder, hfolder, hid⟩ := hi
    obtain ⟨folder', hfolder', hid'⟩ := hj
    obtain rfl : folder = folder' := List.inj_on_of_nodup_map hids (List.mem_of_getElem? hfolder)
      (hperm.mem_iff.mp (List.mem_of_getElem? hfolder')) (hid.trans hid'.symm)
    obtain ⟨path, hpath, -⟩ := exists_getElem?_of_forall₂ (pathsOf_eq_ok.mp h) hfolder
    have hhas := (getElem?_folderPaths h hfolder).mp hpath
    rw [hpath, (getElem?_folderPaths h' hfolder').mpr (hhas.perm hids hperm)]

/-- Where no id stands twice, paths are given exactly when each folder has a name and a chain of
parents that ends, and refused as a header that is wrong otherwise. The path of a folder that lies
in none is its name; that of another one is its name behind the path of its parent. Listed in
another order, the folders have the same paths. -/
theorem folderPaths_follow_parents (hids : (folders.map Folder.id).Nodup) (names : NameTable) :
    ((∃ paths, folderPaths folders names = .ok paths) ↔
        ∀ folder ∈ folders, (0 ≤ folder.id ∧ folder.id < names.folders.length) ∧
          ∃ top, ReflTransGen (LiesIn folders) folder top ∧ top.parent = rootParent) ∧
      ((∀ paths, folderPaths folders names ≠ .ok paths) →
        ∃ cause, folderPaths folders names = .error (.malformed cause)) ∧
      (∀ paths, folderPaths folders names = .ok paths → FollowParents folders names paths) ∧
      ∀ folders' : List Folder, folders'.Perm folders →
        ((∃ paths, folderPaths folders' names = .ok paths) ↔
          ∃ paths, folderPaths folders names = .ok paths) ∧
        ∀ paths paths', folderPaths folders names = .ok paths →
          folderPaths folders' names = .ok paths' →
          ∀ (i j : Nat) (id : Int), (folders.map Folder.id)[i]? = some id →
            (folders'.map Folder.id)[j]? = some id → paths[i]? = paths'[j]? := by
  refine ⟨?_, fun hnone => ?_, fun paths h => followParents_of_folderPaths h,
    fun folders' hperm => folderPaths_perm hids hperm⟩
  · rw [exists_folderPaths_iff]
    constructor
    · intro h
      have hnames : ∀ folder ∈ folders, 0 ≤ folder.id ∧ folder.id < names.folders.length :=
        fun folder hmem => (h folder hmem).elim fun path hpath => hpath.named
      exact fun folder hmem =>
        ⟨hnames folder hmem, (exists_hasPath_iff hids hnames hmem).mp (h folder hmem)⟩
    · intro h folder hmem
      exact (exists_hasPath_iff hids (fun folder hmem => (h folder hmem).1) hmem).mpr
        (h folder hmem).2
  · rcases pathsOf_cases (List.Subset.refl folders) with ⟨paths, hok⟩ | ⟨-, herror⟩
    · exact absurd hok (hnone paths)
    · exact herror

/-- Three folders, each below the next one to the right of it, with no name at the top. -/
def nestedFolders : List Folder :=
  [⟨0, 2, 1, 0, 0, 0⟩, ⟨0, 1, 0, 0, 0, 0⟩, ⟨0, 0, rootParent, 0, 0, 0⟩]

theorem folderPaths_follow_parents_nestedFolders : (nestedFolders.map Folder.id).Nodup ∧
    (∀ folder ∈ nestedFolders, ∃ top, ReflTransGen (LiesIn nestedFolders) folder top ∧
      top.parent = rootParent) ∧
    FollowParents nestedFolders ⟨[], ["", "data", "sub"]⟩ ["data/sub", "data", ""] ∧
    ∃ paths, folderPaths nestedFolders.reverse ⟨[], ["", "data", "sub"]⟩ = .ok paths := by
  have hids : (nestedFolders.map Folder.id).Nodup := by decide
  have hpaths : folderPaths nestedFolders ⟨[], ["", "data", "sub"]⟩ =
      .ok ["data/sub", "data", ""] := by decide +kernel
  obtain ⟨hiff, -, hfollow, hperm⟩ :=
    folderPaths_follow_parents hids ⟨[], ["", "data", "sub"]⟩
  exact ⟨hids, fun folder hmem => (hiff.mp ⟨_, hpaths⟩ folder hmem).2, hfollow _ hpaths,
    (hperm _ (List.reverse_perm nestedFolders)).1.mpr ⟨_, hpaths⟩⟩

end GameArchive.Vfs3
