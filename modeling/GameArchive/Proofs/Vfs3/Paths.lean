import GameArchive.Proofs.Vfs3.Opening
import Mathlib.Data.List.Nodup
/-!
# Paths of files and paths of folders

The path of a file is built on that of the last folder with the id that its record gives, while a
folder asked for by its id is the first one. Both have a path, and where no id stands twice they
are one folder. Where one does, the two paths may differ.
-/
namespace GameArchive.Vfs3.Archive

variable {a : Archive} {data : Bytes} {e : Entry} {folder : Folder} {i : Nat}

namespace IsOpen

/-- The path that stands at the number of a folder is the one that follows from its parents. -/
theorem pathOf_eq (h : a.IsOpen) (hfolder : a.tables.directory.folders[i]? = some folder) :
    ∃ path, a.tables.paths[i]? = some path ∧
      pathOf a.tables.directory.folders a.tables.names folder = .ok path :=
  exists_getElem?_of_forall₂ (pathsOf_eq_ok.mp h.isRead.folderPaths_eq) hfolder

/-- A folder asked for by its id is the first one with this id. -/
theorem folderPath_eq {id : Int} (h : a.IsOpen) (hmem : folder ∈ a.tables.directory.folders)
    (hid : folder.id = id) :
    ∃ first path, a.tables.directory.folders.find? (fun g => g.id == id) = some first ∧
      pathOf a.tables.directory.folders a.tables.names first = .ok path ∧
      a.folderPath id = .ok path := by
  have hfound : (a.tables.directory.folders.find? fun g => g.id == id).isSome :=
    List.find?_isSome.mpr ⟨folder, hmem, beq_iff_eq.mpr hid⟩
  obtain ⟨first, hfirst⟩ := Option.isSome_iff_exists.mp hfound
  have hposition := hfirst
  rw [List.find?_eq_getElem?_findIdx] at hposition
  obtain ⟨path, hpath, hpathOf⟩ := h.pathOf_eq hposition
  refine ⟨first, path, hfirst, hpathOf, ?_⟩
  simp only [folderPath, hpath]

end IsOpen

/-- The name of a file stands in its entry behind the path of the last folder with the id that its
record gives. The first such folder is the one found by this id, and it always is found; its path
is the one in the entry exactly when the two folders have the same path, as they have where no id
stands twice. -/
theorem name_eq_joinPath_iff (h : ofBytes data = .ok a) (he : e ∈ a.entries) :
    ∃ file name first last number path base, a.file e = .ok file ∧
      a.tables.names.fileName file.id = .ok name ∧
      a.tables.directory.folders.find? (fun folder => folder.id == file.folder) = some first ∧
      lastWithId? a.tables.directory.folders file.folder = some (last, number) ∧
      pathOf a.tables.directory.folders a.tables.names first = .ok path ∧
      pathOf a.tables.directory.folders a.tables.names last = .ok base ∧
      a.folderPath file.folder = .ok path ∧ e.name = joinPath base name ∧
      (e.name = joinPath path name ↔ base = path) ∧
      ((a.tables.directory.folders.map Folder.id).Nodup → e.name = joinPath path name) := by
  obtain ⟨ha, rfl⟩ := isOpen_of_ofBytes h
  obtain ⟨file, hfile, hlisted⟩ := ha.exists_file he
  obtain ⟨name, chunks, last, number, base, hname, -, -, hlast, hbase, hentry⟩ :=
    Tables.filePath_eq_ok.mp hlisted.filePath_eq
  obtain ⟨hnumber, hid⟩ := of_lastWithId?_eq_some hlast
  have hmem := List.mem_of_getElem? hnumber
  obtain ⟨first, path, hfirst, hpath, hfolderPath⟩ := ha.folderPath_eq hmem hid
  obtain ⟨base', hbase', hbaseOf⟩ := ha.pathOf_eq hnumber
  obtain rfl : base = base' := Option.some.inj (hbase.symm.trans hbase')
  have hiff : e.name = joinPath path name ↔ base = path := by
    rw [hentry]
    exact joinPath_inj
  refine ⟨file, name, first, last, number, path, base, hfile, hname, hfirst, hlast, hpath, hbaseOf,
    hfolderPath, hentry, hiff, fun hnodup => hiff.mpr ?_⟩
  have hfirstId : first.id = file.folder := by simpa using List.find?_some hfirst
  have hsame : first = last := List.inj_on_of_nodup_map hnodup (List.mem_of_find?_eq_some hfirst)
    hmem (hfirstId.trans hid.symm)
  rw [hsame, hbaseOf] at hpath
  exact Except.ok.inj hpath

/-- An archive with a file in folder 0. This id stands twice: first for a folder below folder 1, and
then for one below none. -/
def repeatedId : Bytes :=
  (magic ++ numbersToBytes [(4, 7),
      (4, 3), (4, 0), (4, 0), (4, 1), (4, 0xFFFFFFFF), (4, 0), (4, 0), (4, 1),
      (4, 0), (4, 0), (4, 0xFFFFFFFF), (4, 0xFFFFFFFF), (4, 0), (4, 0), (4, 0),
      (4, 0), (4, 1), (4, 0xFFFFFFFF), (4, 0xFFFFFFFF), (4, 0), (4, 0), (4, 0),
      (4, 1), (8, 0), (8, 2), (8, 2), (4, 0), (4, 0), (4, 0), (2, 0), (2, 0xFFFF),
      (8, 202), (8, 0), (8, 178), (8, 0), (4, 0)] ++
    [1, 2] ++
    numbersToBytes [(4, 1), (2, 0x66), (2, 0), (4, 3), (2, 0x64), (2, 0), (2, 0x70), (2, 0),
      (2, 0x78), (2, 0)] ++
    numbersToBytes [(4, 4), (4, 0)]).toArray

/-- The file of `repeatedId` is named after the second folder, while the first one is found. -/
theorem name_eq_joinPath_iff_repeatedId :
    ∃ a e file, ofBytes repeatedId = .ok a ∧ e ∈ a.entries ∧ a.file e = .ok file ∧
      a.tables.names.fileName file.id = .ok "f" ∧ a.folderPath file.folder = .ok "p/d" ∧
      e.name = "d/f" ∧ e.name ≠ joinPath "p/d" "f" := by
  let e : Entry := ⟨"d/f", 176, 2, 2, ⟨0⟩, 0⟩
  have hrun : ((Tables.read repeatedId).toOption.any fun t => decide
      (List.Forall₂ t.Lists t.directory.files.zipIdx [e] ∧
        t.directory.files.map (fun file => (file.id, file.folder)) = [(0, 0)] ∧
        t.names.fileName 0 = .ok "f" ∧
        (t.directory.folders.find? fun folder => folder.id == 0).map
          (pathOf t.directory.folders t.names) = some (.ok "p/d"))) = true := by
    decide +kernel
  have hends : ∀ d ∈ [e], d.endOffset < wordLimit ∧ d.endOffset ≤ repeatedId.size := by
    decide +kernel
  obtain ⟨t, htables, hcheck⟩ := exists_ok_of_any hrun
  obtain ⟨hlists, hfiles, hfileName, hfirstPath⟩ := of_decide_eq_true hcheck
  obtain ⟨a, ha, rfl, hentries⟩ :=
    exists_ofBytes htables hlists (by decide) hends (List.pairwise_singleton _ _)
  have he : e ∈ a.entries := hentries ▸ List.mem_singleton_self e
  obtain ⟨file, name, first, last, number, path, base, hfile, hname, hfirst, -, hpath, -,
    hfolderPath, -⟩ := name_eq_joinPath_iff ha he
  obtain ⟨only, honly, hids⟩ := List.map_eq_singleton_iff.mp hfiles
  have hrecord : a.file e = .ok only := by simp [Archive.file, honly, e]
  obtain rfl : only = file := Except.ok.inj (hrecord.symm.trans hfile)
  obtain ⟨hid, hfolder⟩ := Prod.mk.inj hids
  rw [hfolder] at hfirst
  rw [hfirst, Option.map_some, hpath, Option.some.injEq, Except.ok.injEq] at hfirstPath
  refine ⟨a, e, only, ha, he, hfile, ?_, hfirstPath ▸ hfolderPath, rfl, by decide⟩
  rw [hid, hfileName]

end GameArchive.Vfs3.Archive
