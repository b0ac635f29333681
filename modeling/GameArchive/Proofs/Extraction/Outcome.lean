import GameArchive.Container
import GameArchive.Proofs.Bytes
import GameArchive.Proofs.Extraction.Names
import Mathlib.Data.List.Nodup
/-!
# What extraction leaves

Entries are written one after another, so the tree holds at each path what the last of them with
this path has written. An entry is written exactly when it decompresses, its path fits, and none of
the paths before it has to be a folder where this one is a file, or the other way round.
-/
namespace GameArchive

open RelativePath (IsPathOf)

/-! ### One file -/

namespace FileTree

variable {t t' : FileTree} {path outer inner : RelativePath} {bytes : Bytes}

theorem isAbove_iff : isAbove outer inner = true ↔ outer <+: inner ∧ outer ≠ inner := by
  rw [isAbove, Bool.and_eq_true, List.isPrefixOf_iff_prefix, decide_eq_true_eq]
  constructor
  · rintro ⟨hbegins, hlt⟩
    exact ⟨hbegins, fun h => Nat.lt_irrefl _ (h ▸ hlt)⟩
  · rintro ⟨hbegins, hne⟩
    exact ⟨hbegins, Nat.lt_of_le_of_ne hbegins.length_le fun h => hne (hbegins.eq_of_length h)⟩

theorem makeFolders_eq_ok_iff : t.makeFolders path = .ok () ↔
    (∀ part ∈ path.dropLast, part.utf8ByteSize ≤ partLimit) ∧
      ∀ other ∈ t.files.map Prod.fst, ¬ (other <+: path ∧ other ≠ path) := by
  unfold makeFolders
  split <;> rename_i h <;> simpa [isAbove_iff, fits, List.all_eq_true] using h

theorem write_eq_ok_iff : t.write path bytes = .ok t' ↔
    ((∀ part ∈ path, part.utf8ByteSize ≤ partLimit) ∧
      ∀ other ∈ t.files.map Prod.fst, ¬ (path <+: other ∧ path ≠ other)) ∧
      ⟨(path, bytes) :: t.files.filter fun file => file.1 != path⟩ = t' := by
  have hfits : (path.all fits && !t.files.any fun file => isAbove path file.1) = true ↔
      (∀ part ∈ path, part.utf8ByteSize ≤ partLimit) ∧
        ∀ other ∈ t.files.map Prod.fst, ¬ (path <+: other ∧ path ≠ other) := by
    simp [isAbove_iff, fits]
  rw [← hfits, write]
  split
  case isTrue h => simp [h]
  case isFalse h => simp [h]

end FileTree

namespace Extraction

variable {decompress : Entry → Except Error Bytes} {e : Entry} {path : RelativePath}
  {t t' : FileTree} {bytes : Bytes} {done all : List (Entry × RelativePath)}

/-- Whether entries can be extracted together: each decompresses, none of the paths is that of a
folder around another one, and their parts are not too long. -/
structure IsExtractable (decompress : Entry → Except Error Bytes)
    (all : List (Entry × RelativePath)) : Prop where
  decompresses : ∀ target ∈ all, ∃ bytes, decompress target.1 = .ok bytes
  apart : ∀ path ∈ all.map Prod.snd, ∀ other ∈ all.map Prod.snd,
    ¬ (path <+: other ∧ path ≠ other)
  fits : ∀ path ∈ all.map Prod.snd, ∀ part ∈ path, part.utf8ByteSize ≤ FileTree.partLimit

/-- Whether `t` is what extracting `done` leaves: at each path the bytes of the last entry that has
it, and nothing else. -/
structure IsLeftBy (decompress : Entry → Except Error Bytes)
    (done : List (Entry × RelativePath)) (t : FileTree) : Prop where
  nodup : (t.files.map Prod.fst).Nodup
  mem_files : ∀ path bytes, (path, bytes) ∈ t.files ↔
    ∃ e, done.reverse.find? (fun target => target.2 == path) = some (e, path) ∧
      decompress e = .ok bytes

theorem IsExtractable.nil : IsExtractable decompress [] :=
  ⟨nofun, nofun, nofun⟩

theorem IsExtractable.mono (h : IsExtractable decompress all) (hsub : done ⊆ all) :
    IsExtractable decompress done where
  decompresses target htarget := h.decompresses target (hsub htarget)
  apart path hpath other hother :=
    h.apart path (List.map_subset _ hsub hpath) other (List.map_subset _ hsub hother)
  fits path hpath := h.fits path (List.map_subset _ hsub hpath)

theorem isExtractable_append_singleton (h : IsExtractable decompress done) :
    IsExtractable decompress (done ++ [(e, path)]) ↔
      (∃ bytes, decompress e = .ok bytes) ∧
        (∀ part ∈ path, part.utf8ByteSize ≤ FileTree.partLimit) ∧
        ∀ other ∈ done.map Prod.snd,
          ¬ (other <+: path ∧ other ≠ path) ∧ ¬ (path <+: other ∧ path ≠ other) := by
  have hlast : (e, path) ∈ done ++ [(e, path)] :=
    List.mem_append_right _ (List.mem_singleton_self _)
  constructor
  · intro h'
    have hpath := List.mem_map_of_mem (f := Prod.snd) hlast
    refine ⟨h'.decompresses _ hlast, h'.fits _ hpath, fun other hother => ?_⟩
    have hother := List.map_subset Prod.snd (List.subset_append_left done [(e, path)]) hother
    exact ⟨h'.apart other hother path hpath, h'.apart path hpath other hother⟩
  · rintro ⟨hbytes, hfits, hapart⟩
    refine ⟨?_, ?_, ?_⟩
    · rw [List.forall_mem_append, List.forall_mem_singleton]
      exact ⟨h.decompresses, hbytes⟩
    · simp only [List.map_append, List.map_singleton, List.forall_mem_append,
        List.forall_mem_singleton]
      refine ⟨fun other hother => ⟨h.apart other hother, (hapart other hother).1⟩,
        fun other hother => (hapart other hother).2, fun hself => hself.2 rfl⟩
    · simp only [List.map_append, List.map_singleton, List.forall_mem_append,
        List.forall_mem_singleton]
      exact ⟨h.fits, hfits⟩

theorem IsLeftBy.nil : IsLeftBy decompress [] .empty :=
  ⟨List.nodup_nil, by simp [FileTree.empty]⟩

theorem IsLeftBy.mem_paths_of_mem_files {file : RelativePath × Bytes}
    (ht : IsLeftBy decompress done t) (hfile : file ∈ t.files) : file.1 ∈ done.map Prod.snd := by
  obtain ⟨e, hlast, -⟩ := (ht.mem_files file.1 file.2).mp hfile
  exact List.mem_map_of_mem (List.mem_reverse.mp (List.mem_of_find?_eq_some hlast))

/-- The files stand at the paths of the entries that were extracted. -/
theorem IsLeftBy.mem_paths (ht : IsLeftBy decompress done t)
    (h : ∀ target ∈ done, ∃ bytes, decompress target.1 = .ok bytes) :
    path ∈ t.files.map Prod.fst ↔ path ∈ done.map Prod.snd := by
  constructor
  · intro hpath
    obtain ⟨file, hfile, rfl⟩ := List.mem_map.mp hpath
    exact ht.mem_paths_of_mem_files hfile
  · intro hpath
    obtain ⟨target, htarget, rfl⟩ := List.mem_map.mp hpath
    have hfound : (done.reverse.find? fun other => other.2 == target.2).isSome :=
      List.find?_isSome.mpr ⟨target, List.mem_reverse.mpr htarget, beq_self_eq_true _⟩
    obtain ⟨⟨e, path⟩, hlast⟩ := Option.isSome_iff_exists.mp hfound
    have hsame := List.find?_some hlast
    obtain rfl : path = target.2 := beq_iff_eq.mp hsame
    obtain ⟨bytes, hbytes⟩ := h _ (List.mem_reverse.mp (List.mem_of_find?_eq_some hlast))
    exact List.mem_map_of_mem ((ht.mem_files _ bytes).mpr ⟨e, hlast, hbytes⟩)

/-- One more file is that of one more entry, which may take the place of an earlier one. -/
theorem IsLeftBy.write (ht : IsLeftBy decompress done t) (hbytes : decompress e = .ok bytes) :
    IsLeftBy decompress (done ++ [(e, path)])
      ⟨(path, bytes) :: t.files.filter fun file => file.1 != path⟩ where
  nodup := by
    rw [List.map_cons, List.nodup_cons]
    refine ⟨fun hpath => ?_, ht.nodup.sublist (List.filter_sublist.map Prod.fst)⟩
    obtain ⟨file, hfile, hsame⟩ := List.mem_map.mp hpath
    exact bne_iff_ne.mp (List.mem_filter.mp hfile).2 hsame
  mem_files other bytes' := by
    rw [List.reverse_append, List.reverse_singleton, List.singleton_append, List.find?_cons]
    by_cases hsame : path = other
    · -- The search from the back ends at the new entry, whatever was at its path before.
      subst hsame
      simp [hbytes, eq_comm]
    · have hne : ((e, path).2 == other) = false := beq_eq_false_iff_ne.mpr hsame
      rw [hne, ← ht.mem_files other bytes']
      simp [Ne.symm hsame]

/-! ### One entry -/

/-- An entry is written behind others exactly when it can be extracted together with them, and what
it leaves is then what all of them leave. -/
theorem writeEntry_cases (h : IsExtractable decompress done) (ht : IsLeftBy decompress done t)
    (e : Entry) (path : RelativePath) :
    (IsExtractable decompress (done ++ [(e, path)]) ∧ ∃ t',
        writeEntry decompress t e path = .ok t' ∧ IsLeftBy decompress (done ++ [(e, path)]) t') ∨
      (¬ IsExtractable decompress (done ++ [(e, path)]) ∧
        ∃ error, writeEntry decompress t e path = .error error) := by
  have hpaths : ∀ other, other ∈ t.files.map Prod.fst ↔ other ∈ done.map Prod.snd :=
    fun other => ht.mem_paths h.decompresses
  by_cases hcan : IsExtractable decompress (done ++ [(e, path)])
  case pos =>
    obtain ⟨⟨bytes, hbytes⟩, hfits, hapart⟩ := (isExtractable_append_singleton h).mp hcan
    have hfolders : t.makeFolders path = .ok () := FileTree.makeFolders_eq_ok_iff.mpr
      ⟨fun part hpart => hfits part (List.dropLast_subset path hpart),
        fun other hother => (hapart other ((hpaths other).mp hother)).1⟩
    have hwrite : t.write path bytes = .ok _ := FileTree.write_eq_ok_iff.mpr
      ⟨⟨hfits, fun other hother => (hapart other ((hpaths other).mp hother)).2⟩, rfl⟩
    exact Or.inl ⟨hcan, _, bind_eq_ok.mpr ⟨(), hfolders, bind_eq_ok.mpr ⟨bytes, hbytes, hwrite⟩⟩,
      ht.write hbytes⟩
  case neg =>
    refine Or.inr ⟨hcan, ?_⟩
    cases hrun : writeEntry decompress t e path with
    | error error => exact ⟨error, rfl⟩
    | ok t' =>
      -- Every check of the run has passed, and together they are what was denied.
      obtain ⟨⟨⟩, hfolders, hrun⟩ := bind_eq_ok.mp hrun
      obtain ⟨bytes, hbytes, hwrite⟩ := bind_eq_ok.mp hrun
      obtain ⟨-, habove⟩ := FileTree.makeFolders_eq_ok_iff.mp hfolders
      obtain ⟨⟨hfits, hbelow⟩, -⟩ := FileTree.write_eq_ok_iff.mp hwrite
      refine absurd ((isExtractable_append_singleton h).mpr ⟨⟨bytes, hbytes⟩, hfits, ?_⟩) hcan
      intro other hother
      exact ⟨habove other ((hpaths other).mpr hother), hbelow other ((hpaths other).mpr hother)⟩

/-! ### All entries -/

/-- Either all entries are written, or those in front of the first one that cannot be extracted
together with them. -/
theorem writeEntries_cases (h : IsExtractable decompress done) (ht : IsLeftBy decompress done t)
    (rest : List (Entry × RelativePath)) :
    (IsExtractable decompress (done ++ rest) ∧ ∃ t',
        writeEntries decompress t rest = (t', .ok ()) ∧ IsLeftBy decompress (done ++ rest) t') ∨
      ∃ front failing later t' error, rest = front ++ failing :: later ∧
        IsExtractable decompress (done ++ front) ∧
        ¬ IsExtractable decompress (done ++ front ++ [failing]) ∧
        writeEntries decompress t rest = (t', .error error) ∧
        IsLeftBy decompress (done ++ front) t' := by
  induction rest generalizing done t with
  | nil => exact Or.inl ⟨by rwa [List.append_nil], t, rfl, by rwa [List.append_nil]⟩
  | cons target rest ih =>
    obtain ⟨e, path⟩ := target
    rcases writeEntry_cases h ht e path with ⟨h', t', hwrite, ht'⟩ | ⟨h', error, hwrite⟩
    · rw [writeEntries, hwrite]
      rcases ih h' ht' with ⟨hall, t'', hrun, ht''⟩ | ⟨front, failing, later, t'', error, hrest,
        hfront, hfailing, hrun, ht''⟩
      · rw [List.append_cons]
        exact Or.inl ⟨hall, t'', hrun, ht''⟩
      · refine Or.inr ⟨(e, path) :: front, failing, later, t'', error, by rw [hrest]; rfl, ?_⟩
        rw [List.append_cons]
        exact ⟨hfront, hfailing, hrun, ht''⟩
    · rw [writeEntries, hwrite]
      refine Or.inr ⟨[], (e, path), rest, t, error, rfl, ?_⟩
      rw [List.append_nil]
      exact ⟨h, h', rfl, ht⟩

theorem targets_cases (entries : List Entry) :
    (∃ l, targets entries = .ok l ∧ l.map Prod.fst = entries ∧
        ∀ target ∈ l, IsPathOf target.1.name target.2) ∨
      (∃ e ∈ entries, ∀ path, ¬ IsPathOf e.name path) ∧
        ∃ cause, targets entries = .error (.malformed cause) := by
  induction entries with
  | nil => exact Or.inl ⟨[], rfl, rfl, nofun⟩
  | cons e rest ih =>
    rw [targets]
    rcases RelativePath.ofName_cases e.name with ⟨hpath, hok⟩ | ⟨hnone, cause, herror⟩
    · rw [hok]
      rcases ih with ⟨l, hl, hentries, hpaths⟩ | ⟨⟨other, hother, hnone⟩, cause, herror⟩
      · rw [hl]
        exact Or.inl ⟨_, rfl, congrArg _ hentries, List.forall_mem_cons.mpr ⟨hpath, hpaths⟩⟩
      · rw [herror]
        exact Or.inr ⟨⟨other, List.mem_cons_of_mem _ hother, hnone⟩, cause, rfl⟩
    · rw [herror]
      exact Or.inr ⟨⟨e, List.mem_cons_self, hnone⟩, cause, rfl⟩

/-- Either a name is no path, and nothing is written, or entries are written as far as they can be
extracted together. -/
theorem run_cases (entries : List Entry) (decompress : Entry → Except Error Bytes) :
    ((∃ e ∈ entries, ∀ path, ¬ IsPathOf e.name path) ∧
        ∃ cause, run entries decompress = (.empty, .error (.malformed cause))) ∨
      ∃ l : List (Entry × RelativePath), l.map Prod.fst = entries ∧
        (∀ target ∈ l, IsPathOf target.1.name target.2) ∧
        ((IsExtractable decompress l ∧
            ∃ t, run entries decompress = (t, .ok entries.length) ∧ IsLeftBy decompress l t) ∨
          ∃ done failing later t error, l = done ++ failing :: later ∧
            IsExtractable decompress done ∧ ¬ IsExtractable decompress (done ++ [failing]) ∧
            run entries decompress = (t, .error error) ∧ IsLeftBy decompress done t) := by
  rcases targets_cases entries with ⟨l, hl, hentries, hpaths⟩ | ⟨hnone, cause, herror⟩
  case inr => exact Or.inl ⟨hnone, cause, by rw [run, herror]⟩
  refine Or.inr ⟨l, hentries, hpaths, ?_⟩
  rcases writeEntries_cases (@IsExtractable.nil decompress) .nil l with
    ⟨hall, t, hrun, ht⟩ | ⟨done, failing, later, t, error, hsplit, hdone, hfailing, hrun, ht⟩
  · refine Or.inl ⟨hall, t, ?_, ht⟩
    rw [run, hl]
    simp only [hrun, Except.map, ← hentries, List.length_map]
  · refine Or.inr ⟨done, failing, later, t, error, hsplit, hdone, hfailing, ?_, ht⟩
    rw [run, hl]
    simp only [hrun, Except.map]

/-- A file is left only at the path that the name of an entry stands for. -/
theorem exists_isPathOf_of_mem_files {entries : List Entry} {file : RelativePath × Bytes}
    (hfile : file ∈ (run entries decompress).1.files) :
    ∃ e ∈ entries, IsPathOf e.name file.1 := by
  rcases run_cases entries decompress with ⟨-, cause, hrun⟩ | ⟨l, rfl, hpaths, hrun⟩
  · rw [hrun] at hfile
    cases hfile
  obtain ⟨done, hsub, ht⟩ : ∃ done, done ⊆ l ∧
      IsLeftBy decompress done (run (l.map Prod.fst) decompress).1 := by
    rcases hrun with ⟨-, t, hrun, ht⟩ | ⟨done, failing, later, t, error, rfl, -, -, hrun, ht⟩
    · exact ⟨l, List.Subset.refl l, by rwa [hrun]⟩
    · exact ⟨done, List.subset_append_left done _, by rwa [hrun]⟩
  obtain ⟨target, htarget, hsame⟩ := List.mem_map.mp (ht.mem_paths_of_mem_files hfile)
  exact ⟨target.1, List.mem_map_of_mem (hsub htarget), hsame ▸ hpaths target (hsub htarget)⟩

end Extraction

/-! ### Archives -/

namespace Container

open Extraction (IsExtractable IsLeftBy run_cases)

/-- A name is a path exactly when it has parts and none of them leads elsewhere, and the parts are
then the path. So whatever an archive holds, its files are left below the folder it is extracted to;
and none is left when a single name is no path, wherever that name stands. -/
theorem extract_stays_below (c : Container) :
    (∀ name path, RelativePath.ofName name = .ok path ↔ IsPathOf name path) ∧
      (∀ name path, IsPathOf name path →
        ∀ part ∈ path, part ≠ "" ∧ '/' ∉ part.toList ∧ '\\' ∉ part.toList) ∧
      (∀ file ∈ c.extract.1.files, file.1 ≠ [] ∧
        ∀ folder, RelativePath.follow folder file.1.text = folder ++ file.1) ∧
      ∀ e ∈ c.entries, (∀ path, RelativePath.ofName e.name ≠ .ok path) →
        ∃ cause, c.extract = (.empty, .error (.malformed cause)) := by
  refine ⟨fun name path => RelativePath.ofName_eq_ok_iff, fun name path h part hpart => ?_, ?_, ?_⟩
  · obtain ⟨hne, hchars⟩ := h.part_ne_empty hpart
    exact ⟨hne, fun hmem => absurd (hchars _ hmem) (by decide),
      fun hmem => absurd (hchars _ hmem) (by decide)⟩
  · intro file hfile
    obtain ⟨e, -, hpath⟩ := Extraction.exists_isPathOf_of_mem_files hfile
    exact ⟨hpath.ne_nil, hpath.follow_text⟩
  · intro e he hnone
    rcases run_cases c.entries c.decompress with ⟨-, herror⟩ | ⟨l, hentries, hpaths, -⟩
    · exact herror
    · rw [← hentries] at he
      obtain ⟨target, htarget, rfl⟩ := List.mem_map.mp he
      exact absurd (RelativePath.ofName_eq_ok_iff.mpr (hpaths target htarget)) (hnone _)

/-- A NISPACK archive with an entry for each name. The payload of an entry is its number. -/
def numbered (names : List String) : Bytes :=
  let record (name : String) (i : Nat) : List UInt8 :=
    name.toList.map (fun c => UInt8.ofNat c.toNat) ++ List.replicate (32 - name.length) 0 ++
      toLittleEndian 4 (0x10 + 0x2C * names.length + i) ++ toLittleEndian 4 1 ++ toLittleEndian 4 0
  (FlatFormat.nispackMagic ++ toLittleEndian 4 0 ++ toLittleEndian 4 names.length ++
    names.zipIdx.flatMap (fun (name, i) => record name i) ++
    (List.range names.length).map UInt8.ofNat).toArray

/-- A name that leads up is enough, though it stands behind a harmless one. -/
theorem extract_stays_below_upward :
    ∃ c cause, ofBytes (.flat .nispack) (numbered ["a/b", "x\\..\\y", "c"]) = .ok c ∧
      c.entries.map (·.name) = ["a/b", "x\\..\\y", "c"] ∧
      c.extract = (.empty, .error (.malformed cause)) := by
  obtain ⟨c, hc, hcheck⟩ := exists_ok_of_any
    (x := ofBytes (.flat .nispack) (numbered ["a/b", "x\\..\\y", "c"]))
    (p := fun c => decide (c.entries.map (·.name) = ["a/b", "x\\..\\y", "c"])) (by decide +kernel)
  have hnames := of_decide_eq_true hcheck
  have hmem : "x\\..\\y" ∈ c.entries.map (·.name) := hnames ▸ by simp
  obtain ⟨e, he, hname⟩ := List.mem_map.mp hmem
  have hrefused : RelativePath.ofName "x\\..\\y" =
      .error (.malformed (.escapesFolder "x\\..\\y")) := by decide +kernel
  obtain ⟨-, -, -, hnone⟩ := extract_stays_below c
  obtain ⟨cause, hextract⟩ := hnone e he fun path => by rw [hname, hrefused]; nofun
  exact ⟨c, cause, hc, hnames, hextract⟩

/-- An archive whose names are all paths is extracted as a whole exactly when its entries can be
extracted together. It leaves a file at the path of each entry, with what the last entry with this
path holds. Otherwise that is said of the entries in front of the first one that fails. -/
theorem extract_outcome {c : Container}
    (hnames : ∀ e ∈ c.entries, ∃ path, RelativePath.ofName e.name = .ok path) :
    ∃ l : List (Entry × RelativePath), l.map Prod.fst = c.entries ∧
      (∀ target ∈ l, RelativePath.ofName target.1.name = .ok target.2) ∧
      ((∃ n, c.extract.2 = .ok n) ↔ IsExtractable c.decompress l) ∧
      (∀ n, c.extract.2 = .ok n → n = c.entries.length ∧
        (∀ path, path ∈ c.extract.1.files.map Prod.fst ↔ path ∈ l.map Prod.snd) ∧
        IsLeftBy c.decompress l c.extract.1) ∧
      ∀ error, c.extract.2 = .error error → ∃ done failing later, l = done ++ failing :: later ∧
        IsExtractable c.decompress done ∧ ¬ IsExtractable c.decompress (done ++ [failing]) ∧
        IsLeftBy c.decompress done c.extract.1 := by
  rcases run_cases c.entries c.decompress with ⟨⟨e, he, hnone⟩, -⟩ | ⟨l, hentries, hpaths, hrun⟩
  · obtain ⟨path, hpath⟩ := hnames e he
    exact absurd (RelativePath.ofName_eq_ok_iff.mp hpath) (hnone path)
  refine ⟨l, hentries, fun target htarget =>
    RelativePath.ofName_eq_ok_iff.mpr (hpaths target htarget), ?_⟩
  rcases hrun with
    ⟨hall, t, hrun, ht⟩ | ⟨done, failing, later, t, error, rfl, hdone, hfailing, hrun, ht⟩
  · have hextract : c.extract = (t, .ok c.entries.length) := hrun
    rw [hextract]
    refine ⟨iff_of_true ⟨_, rfl⟩ hall, fun n hn => ?_, nofun⟩
    exact ⟨(Except.ok.inj hn).symm, fun path => ht.mem_paths hall.decompresses, ht⟩
  · have hextract : c.extract = (t, .error error) := hrun
    rw [hextract]
    refine ⟨iff_of_false nofun fun hall => hfailing (hall.mono ?_), nofun, fun _ _ => ?_⟩
    · rw [List.append_cons done failing later]
      exact List.subset_append_left _ _
    · exact ⟨done, failing, later, rfl, hdone, hfailing, ht⟩

/-- The second entry has the path of the first one, and the third stands for the folder of both. -/
theorem extract_outcome_fileForFolder :
    ∃ c, ofBytes (.flat .nispack) (numbered ["a/b", "a\\b", "a", "c"]) = .ok c ∧
      (∀ e ∈ c.entries, ∃ path, RelativePath.ofName e.name = .ok path) ∧
      (∀ n, c.extract.2 ≠ .ok n) ∧ c.extract.1.files = [(["a", "b"], #[1])] := by
  obtain ⟨c, hc, hcheck⟩ := exists_ok_of_any
    (x := ofBytes (.flat .nispack) (numbered ["a/b", "a\\b", "a", "c"]))
    (p := fun c => decide (c.extract.1.files = [(["a", "b"], #[1])] ∧
      c.entries.map (fun e => RelativePath.ofName e.name) =
        [["a", "b"], ["a", "b"], ["a"], ["c"]].map .ok)) (by decide +kernel)
  obtain ⟨hfiles, hpaths⟩ := of_decide_eq_true hcheck
  have hnames : ∀ e ∈ c.entries, ∃ path, RelativePath.ofName e.name = .ok path := by
    intro e he
    have hmem := List.mem_map_of_mem (f := fun e : Entry => RelativePath.ofName e.name) he
    rw [hpaths] at hmem
    obtain ⟨path, -, hpath⟩ := List.mem_map.mp hmem
    exact ⟨path, hpath.symm⟩
  obtain ⟨l, hentries, htargets, hiff, -⟩ := extract_outcome hnames
  have hsnd : (l.map Prod.snd).map (Except.ok : RelativePath → Except Error RelativePath) =
      [["a", "b"], ["a", "b"], ["a"], ["c"]].map .ok := by
    rw [← hpaths, ← hentries, List.map_map, List.map_map]
    exact List.map_congr_left fun target htarget => (htargets target htarget).symm
  refine ⟨c, hc, hnames, fun n hn => ?_, hfiles⟩
  have happart := (hiff.mp ⟨n, hn⟩).apart
  rw [(List.map_inj_right fun _ _ => Except.ok.inj).mp hsnd] at happart
  exact happart ["a"] (by simp) ["a", "b"] (by simp) (by decide)

end Container
end GameArchive
