import GameArchive.Archive.Vfs3.Folders
import GameArchive.Proofs.Bytes
import Mathlib.Data.List.Forall2
/-!
# Folders by id

Ids may repeat. A parent is the last folder with an id, while a search from the front finds the
first one; the two are the same folder where no id stands twice.
-/
namespace GameArchive

theorem exists_getElem?_of_forall₂ {α β : Type} {R : α → β → Prop} {l : List α} {l' : List β}
    {i : Nat} {x : α} (h : List.Forall₂ R l l') (hx : l[i]? = some x) :
    ∃ y, l'[i]? = some y ∧ R x y := by
  obtain ⟨hlen, hrel⟩ := List.forall₂_iff_get.mp h
  obtain ⟨hi, rfl⟩ := List.getElem?_eq_some_iff.mp hx
  exact ⟨_, List.getElem?_eq_getElem (hlen ▸ hi), hrel i hi (hlen ▸ hi)⟩

namespace Vfs3

variable {folders : List Folder} {names : NameTable} {id : Int} {folder : Folder} {i : Nat}

theorem of_lastWithId?_eq_some (h : lastWithId? folders id = some (folder, i)) :
    folders[i]? = some folder ∧ folder.id = id := by
  have hid := List.find?_some h
  have hmem := List.mem_reverse.mp (List.mem_of_find?_eq_some h)
  exact ⟨List.mem_zipIdx_iff_getElem?.mp hmem, beq_iff_eq.mp hid⟩

theorem pathsOf_eq_ok {l : List Folder} {paths : List String} :
    pathsOf folders names l = .ok paths ↔
      List.Forall₂ (fun folder path => pathOf folders names folder = .ok path) l paths := by
  induction l generalizing paths with
  | nil => simp [pathsOf, eq_comm]
  | cons folder rest ih =>
    simp only [pathsOf, bind_eq_ok, List.forall₂_cons_left_iff, ← ih, Except.ok.injEq]
    constructor
    · rintro ⟨path, hpath, others, hothers, rfl⟩
      exact ⟨path, others, hpath, hothers, rfl⟩
    · rintro ⟨path, others, hpath, hothers, rfl⟩
      exact ⟨path, hpath, others, hothers, rfl⟩

/-- Paths below different folders differ. -/
theorem joinPath_inj {base base' name : String} :
    joinPath base name = joinPath base' name ↔ base = base' := by
  constructor
  · intro h
    have hlength := congrArg String.length h
    unfold joinPath at h hlength
    split at h <;> split at h
    case isTrue.isTrue hempty hempty' =>
      rw [String.isEmpty_iff.mp hempty, String.isEmpty_iff.mp hempty']
    case isTrue.isFalse hempty hfull =>
      simp [hempty, hfull] at hlength
    case isFalse.isTrue hfull hempty =>
      simp [hempty, hfull] at hlength
    case isFalse.isFalse =>
      rwa [String.append_left_inj, String.append_left_inj] at h
  · intro h
    rw [h]

end Vfs3
end GameArchive
