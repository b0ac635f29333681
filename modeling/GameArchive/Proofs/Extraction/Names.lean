import GameArchive.Extraction.RelativePath
/-!
# Names as paths

A name is a path when none of its parts leads elsewhere: the parts that stand between separators,
empty ones left out, are then the path, and followed from any folder it ends below that folder.
-/
namespace GameArchive

namespace RelativePath

variable {name part : String} {path : RelativePath}

/-- Whether `path` is what `name` stands for: the parts between its separators, none of which names
the folder itself, the one above or a drive. -/
structure IsPathOf (name : String) (path : RelativePath) : Prop where
  toList_eq : path.map String.toList = (name.toList.splitOnP isSeparator).filter (!·.isEmpty)
  ne_nil : path ≠ []
  part_safe : ∀ part ∈ path, part ≠ "." ∧ part ≠ ".." ∧ ':' ∉ part.toList

/-- Where one gets from `place` by `part`: to the place itself, up, to a drive, or down. -/
def step (place : List String) (part : String) : List String :=
  if part = "" ∨ part = "." then place
  else if part = ".." then place.dropLast
  else if ':' ∈ part.toList then [part]
  else place ++ [part]

/-- Where the path written as `text` leads from `folder`. -/
def follow (folder : List String) (text : String) : List String :=
  ((text.toList.splitOnP isSeparator).map String.ofList).foldl step folder

/-! ### Parts -/

theorem runs_eq_splitOnP (l : List Char) : runs l = l.splitOnP isSeparator := by
  induction l with
  | nil => rfl
  | cons c rest ih =>
    rw [runs, List.splitOnP_cons_eq_if_modifyHead, ih]
    split
    case isTrue => rfl
    case isFalse =>
      split
      case h_1 hnil => exact absurd hnil (List.splitOnP_ne_nil _ _)
      case h_2 run others hruns => rw [hruns, List.modifyHead_cons]

theorem isSeparator_of_mem_splitOnP {l run : List Char} (hrun : run ∈ l.splitOnP isSeparator)
    {c : Char} (hc : c ∈ run) : isSeparator c = false := by
  induction l generalizing run with
  | nil =>
    obtain rfl := List.mem_singleton.mp hrun
    cases hc
  | cons d rest ih =>
    rw [List.splitOnP_cons_eq_if_modifyHead] at hrun
    split at hrun
    case isTrue =>
      rcases List.mem_cons.mp hrun with rfl | hrun
      · cases hc
      · exact ih hrun hc
    case isFalse hd =>
      obtain ⟨first, others, hruns⟩ :=
        List.exists_cons_of_ne_nil (List.splitOnP_ne_nil isSeparator rest)
      rw [hruns] at ih hrun
      rcases List.mem_cons.mp hrun with rfl | hrun
      · rcases List.mem_cons.mp hc with rfl | hc
        · exact Bool.not_eq_true _ ▸ hd
        · exact ih List.mem_cons_self hc
      · exact ih (List.mem_cons_of_mem _ hrun) hc

theorem map_toList_parts (name : String) :
    (parts name).map String.toList = (name.toList.splitOnP isSeparator).filter (!·.isEmpty) := by
  rw [parts, runs_eq_splitOnP, List.map_map]
  simp [Function.comp_def]

theorem toList_inj {path' : RelativePath} :
    path.map String.toList = path'.map String.toList ↔ path = path' :=
  List.map_inj_right fun _ _ => String.toList_injective

theorem isUnsafe_eq_false_iff :
    isUnsafe part = false ↔ part ≠ "." ∧ part ≠ ".." ∧ ':' ∉ part.toList := by
  simp [isUnsafe, and_assoc]

/-- A name is read as its parts, or refused if it is no path. -/
theorem ofName_cases (name : String) :
    (IsPathOf name (parts name) ∧ ofName name = .ok (parts name)) ∨
      ((∀ path, ¬ IsPathOf name path) ∧ ∃ cause, ofName name = .error (.malformed cause)) := by
  have hparts : ∀ path, IsPathOf name path → path = parts name := fun path h =>
    toList_inj.mp (h.toList_eq.trans (map_toList_parts name).symm)
  by_cases hunsafe : (parts name).any isUnsafe = true
  · refine Or.inr ⟨fun path h => ?_, _, if_pos hunsafe⟩
    obtain ⟨part, hpart, hbad⟩ := List.any_eq_true.mp hunsafe
    rw [isUnsafe_eq_false_iff.mpr (h.part_safe part (hparts path h ▸ hpart))] at hbad
    cases hbad
  by_cases hempty : (parts name).isEmpty = true
  · refine Or.inr ⟨fun path h => h.ne_nil ?_, _, (if_neg hunsafe).trans (if_pos hempty)⟩
    exact (hparts path h).trans (List.isEmpty_iff.mp hempty)
  · refine Or.inl ⟨⟨map_toList_parts name, fun h => hempty (List.isEmpty_iff.mpr h), ?_⟩,
      (if_neg hunsafe).trans (if_neg hempty)⟩
    intro part hpart
    exact isUnsafe_eq_false_iff.mp
      (Bool.eq_false_iff.mpr fun hbad => hunsafe (List.any_eq_true.mpr ⟨part, hpart, hbad⟩))

theorem ofName_eq_ok_iff : ofName name = .ok path ↔ IsPathOf name path := by
  rcases ofName_cases name with ⟨hpath, hok⟩ | ⟨hnone, cause, herror⟩
  · rw [hok, Except.ok.injEq]
    constructor
    · rintro rfl
      exact hpath
    · intro h
      exact toList_inj.mp (hpath.toList_eq.trans h.toList_eq.symm)
  · simp [herror, hnone path]

/-- A part has a character, and none of its characters is a separator. -/
theorem IsPathOf.part_ne_empty (h : IsPathOf name path) (hpart : part ∈ path) :
    part ≠ "" ∧ ∀ c ∈ part.toList, isSeparator c = false := by
  have hmem : part.toList ∈ path.map String.toList := List.mem_map_of_mem hpart
  rw [h.toList_eq] at hmem
  obtain ⟨hrun, hne⟩ := List.mem_filter.mp hmem
  refine ⟨fun hempty => ?_, fun c hc => isSeparator_of_mem_splitOnP hrun hc⟩
  rw [hempty] at hne
  cases hne

/-! ### Places -/

theorem splitOnP_intercalate {runs : List (List Char)} (hne : runs ≠ [])
    (hruns : ∀ run ∈ runs, ∀ c ∈ run, isSeparator c = false) :
    (['/'].intercalate runs).splitOnP isSeparator = runs := by
  induction runs with
  | nil => exact absurd rfl hne
  | cons run rest ih =>
    obtain ⟨hrun, hrest⟩ := List.forall_mem_cons.mp hruns
    cases rest with
    | nil => rw [List.intercalate_singleton, List.splitOnP_eq_singleton hrun]
    | cons next rest =>
      rw [List.intercalate_cons_cons, List.append_assoc, List.singleton_append,
        List.splitOnP_append_cons_of_forall_mem hrun _ rfl, ih (List.cons_ne_nil _ _) hrest]

theorem foldl_step {parts : List String}
    (hparts : ∀ part ∈ parts, part ≠ "" ∧ part ≠ "." ∧ part ≠ ".." ∧ ':' ∉ part.toList)
    (place : List String) : parts.foldl step place = place ++ parts := by
  induction parts generalizing place with
  | nil => rw [List.foldl_nil, List.append_nil]
  | cons part rest ih =>
    obtain ⟨⟨hempty, hdot, hup, hdrive⟩, hrest⟩ := List.forall_mem_cons.mp hparts
    have hstep : step place part = place ++ [part] := by
      simp only [step, hempty, hdot, hup, hdrive, or_self, if_false]
    rw [List.foldl_cons, hstep, ih hrest, List.append_assoc, List.singleton_append]

/-- Followed from a folder, a path leads to the place below this folder that its parts name. -/
theorem IsPathOf.follow_text (h : IsPathOf name path) (folder : List String) :
    follow folder path.text = folder ++ path := by
  have hsplit : path.text.toList.splitOnP isSeparator = path.map String.toList := by
    rw [text, String.toList_intercalate]
    refine splitOnP_intercalate (mt List.map_eq_nil_iff.mp h.ne_nil) ?_
    rw [List.forall_mem_map]
    exact fun part hpart => (h.part_ne_empty hpart).2
  have hparts : (path.map String.toList).map String.ofList = path := by
    simp [Function.comp_def]
  rw [follow, hsplit, hparts]
  exact foldl_step (fun part hpart => ⟨(h.part_ne_empty hpart).1, h.part_safe part hpart⟩) folder

end RelativePath
end GameArchive
