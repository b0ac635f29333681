import GameArchive.Proofs.Vfs3.Opening
import Mathlib.Data.List.Nodup
/-!
# Looking paths up

While the entries are listed, the number of each goes into a hash map under its path. So the map
answers for a path as a search through the entries does, and as no path stands twice, for each entry
with that entry.
-/
namespace GameArchive.Vfs3

namespace Tables

variable {t : Tables} {index : Nat} {files : List File} {known numbers : Std.HashMap String Nat}
  {entries : List Entry}

/-- After the files are listed, the map holds the numbers of the entries beside what it held. -/
theorem getElem?_of_entriesFrom (h : t.entriesFrom index files known = .ok (entries, numbers))
    (name : String) : numbers[name]? =
      ((entries.find? fun e => e.name == name).map (·.index)).or known[name]? := by
  induction files generalizing index known entries with
  | nil =>
    cases h
    rfl
  | cons file rest ih =>
    obtain ⟨e, others, hlisted, -, -, hothers, rfl⟩ := entriesFrom_cons_eq_ok.mp h
    obtain ⟨-, -, hnew⟩ := exists_entriesFrom_iff.mp ⟨_, hothers⟩
    have hindex : e.index = index := hlisted.index_eq
    rw [ih hothers, Std.HashMap.getElem?_insert]
    by_cases hname : e.name = name
    · -- The path is in the map by then, so none of the others has it.
      have hnone : (others.find? fun d => d.name == name) = none := by
        rw [List.find?_eq_none]
        intro d hd heq
        refine (hnew d hd).1 ?_
        rw [Std.HashMap.mem_insert, hname, eq_of_beq heq]
        exact Or.inl BEq.rfl
      rw [hnone, List.find?_cons_of_pos (by simpa using hname), if_pos (by simpa using hname),
        Option.map_some, hindex]
      rfl
    · rw [List.find?_cons_of_neg (by simpa using hname), if_neg (by simpa using hname)]

end Tables

namespace Archive

variable {a : Archive} {data : Bytes} {e : Entry} {name : String}

/-- The payload of the entry with the path `name`. -/
def readName (a : Archive) (name : String) : Except Error Bytes := do
  let e ← a.find name
  e.read a.data

/-- As no path stands twice, a search for one finds the entry that has it. -/
theorem IsOpen.find?_eq_some_iff (h : a.IsOpen) :
    (a.entries.find? fun e => e.name == name) = some e ↔ e ∈ a.entries ∧ e.name = name := by
  constructor
  · intro hscan
    exact ⟨List.mem_of_find?_eq_some hscan, by simpa using List.find?_some hscan⟩
  · rintro ⟨he, rfl⟩
    cases hscan : a.entries.find? fun d => d.name == e.name with
    | none => exact absurd BEq.rfl (List.find?_eq_none.mp hscan e he)
    | some d =>
      have hname : d.name = e.name := by simpa using List.find?_some hscan
      exact congrArg some (List.inj_on_of_nodup_map h.names_nodup
        (List.mem_of_find?_eq_some hscan) he hname)

theorem getElem?_numbers (h : ofBytes data = .ok a) (name : String) :
    a.numbers[name]? = (a.entries.find? fun e => e.name == name).map (·.index) := by
  obtain ⟨-, -, hentries, -⟩ := ofBytes_eq_ok.mp h
  rw [Tables.getElem?_of_entriesFrom hentries, Std.HashMap.getElem?_empty, Option.or_none]

/-- The map holds a number for a path just when the entry of that number has it. -/
theorem getElem?_numbers_eq_some_iff (h : ofBytes data = .ok a) {i : Nat} :
    a.numbers[name]? = some i ↔ ∃ e, a.entries[i]? = some e ∧ e.name = name := by
  obtain ⟨ha, -⟩ := isOpen_of_ofBytes h
  rw [getElem?_numbers h]
  simp only [Option.map_eq_some_iff, ha.find?_eq_some_iff]
  constructor
  · rintro ⟨e, ⟨he, hname⟩, rfl⟩
    exact ⟨e, ha.getElem?_index he, hname⟩
  · rintro ⟨e, he, hname⟩
    exact ⟨e, ⟨List.mem_of_getElem? he, hname⟩, ha.index_eq he⟩

theorem find_eq_scan (h : ofBytes data = .ok a) (name : String) :
    a.find name = Entry.find a.entries name := by
  obtain ⟨ha, -⟩ := isOpen_of_ofBytes h
  rw [find, getElem?_numbers h, Entry.find]
  cases hscan : a.entries.find? fun e => e.name == name with
  | none => rfl
  | some e =>
    rw [Option.map_some, Option.bind_some, ha.getElem?_index (List.mem_of_find?_eq_some hscan)]

theorem find_eq_ok_iff (h : ofBytes data = .ok a) :
    a.find name = .ok e ↔ e ∈ a.entries ∧ e.name = name := by
  rw [find_eq_scan h, ← (isOpen_of_ofBytes h).1.find?_eq_some_iff, Entry.find]
  cases a.entries.find? fun e => e.name == name with
  | none => simp
  | some d => simp

theorem find_eq_error_iff (h : ofBytes data = .ok a) :
    a.find name = .error (.notFound name) ↔ ∀ e ∈ a.entries, e.name ≠ name := by
  rw [find_eq_scan h, Entry.find]
  cases hscan : a.entries.find? fun e => e.name == name with
  | none => simpa using List.find?_eq_none.mp hscan
  | some d =>
    obtain ⟨hd, hname⟩ := (isOpen_of_ofBytes h).1.find?_eq_some_iff.mp hscan
    simpa using ⟨d, hd, hname⟩

/-- In an archive that opens no path stands twice and the entries are numbered in order, so a path
is looked up as by a search through the entries: it leads to the one entry that has it, and to the
bytes stored for that, or is not found. -/
theorem find_agrees_with_scan (h : ofBytes data = .ok a) :
    (a.entries.map (·.name)).Nodup ∧
      (∀ (i : Nat) (e : Entry), a.entries[i]? = some e → e.index = i) ∧
      (∀ (name : String) (i : Nat), a.numbers[name]? = some i ↔
        ∃ e, a.entries[i]? = some e ∧ e.name = name) ∧
      (∀ name, a.find name = Entry.find a.entries name) ∧
      (∀ name e, a.find name = .ok e ↔ e ∈ a.entries ∧ e.name = name) ∧
      (∀ name, a.find name = .error (.notFound name) ↔ ∀ e ∈ a.entries, e.name ≠ name) ∧
      ∀ e ∈ a.entries, a.find e.name = .ok e ∧
        a.readName e.name = .ok (data.extract e.offset e.endOffset) := by
  obtain ⟨ha, rfl⟩ := isOpen_of_ofBytes h
  refine ⟨ha.names_nodup, fun i e => ha.index_eq, fun name i => getElem?_numbers_eq_some_iff h,
    find_eq_scan h, fun name e => find_eq_ok_iff h, fun name => find_eq_error_iff h, ?_⟩
  intro e he
  have hfind : a.find e.name = .ok e := (find_eq_ok_iff h).mpr ⟨he, rfl⟩
  exact ⟨hfind, bind_eq_ok.mpr ⟨e, hfind, Entry.read_of_le (ha.endOffset_le e he)⟩⟩

/-- An archive of two folders, `d` and `d/a`. The name of the file in the first holds a slash, so
that its path goes on as that of the second does. -/
def slashedNames : Bytes :=
  (magic ++ numbersToBytes [(4, 1),
      (4, 2), (4, 0), (4, 0), (4, 0xFFFFFFFF), (4, 0xFFFFFFFF), (4, 0), (4, 0), (4, 1),
      (4, 0), (4, 1), (4, 0xFFFFFFFF), (4, 0xFFFFFFFF), (4, 0), (4, 0), (4, 1),
      (4, 2), (8, 0), (8, 2), (8, 2), (4, 0), (4, 0), (4, 0), (2, 0), (2, 0xFFFF),
      (8, 2), (8, 3), (8, 3), (4, 0), (4, 1), (4, 1), (2, 0), (2, 0xFFFF),
      (8, 213), (8, 0), (8, 181)] ++
    [7, 8] ++ [1, 2, 3] ++
    numbersToBytes [(4, 2), (2, 0x61), (2, 0x2F), (2, 0x78), (2, 0), (2, 0x79), (2, 0),
      (4, 2), (2, 0x64), (2, 0), (2, 0x64), (2, 0x2F), (2, 0x61), (2, 0)] ++
    numbersToBytes [(4, 8), (4, 0), (4, 0)]).toArray

/-- The entries of `slashedNames`. -/
def slashedNamesEntries : List Entry :=
  [⟨"d/a/x", 176, 2, 2, ⟨0⟩, 0⟩, ⟨"d/a/y", 178, 3, 3, ⟨0⟩, 1⟩]

theorem find_agrees_with_scan_slashedNames :
    ∃ a, ofBytes slashedNames = .ok a ∧ a.entries = slashedNamesEntries ∧
      a.numbers["d/a/y"]? = some 1 ∧ a.readName "d/a/y" = .ok #[1, 2, 3] ∧
      a.find "a/x" = .error (.notFound "a/x") := by
  have hrun : ((Tables.read slashedNames).toOption.any fun t => decide
      (List.Forall₂ t.Lists t.directory.files.zipIdx slashedNamesEntries)) = true := by
    decide +kernel
  have hends : ∀ e ∈ slashedNamesEntries, e.endOffset < wordLimit ∧
      e.endOffset ≤ slashedNames.size := by
    decide +kernel
  have hbytes : slashedNames.extract 178 181 = #[1, 2, 3] := by
    decide +kernel
  obtain ⟨t, htables, hlists⟩ := exists_ok_of_any hrun
  obtain ⟨a, ha, -, hentries⟩ :=
    exists_ofBytes htables (of_decide_eq_true hlists) (by decide) hends (by decide)
  obtain ⟨-, -, hnumbers, -, -, hmissing, hread⟩ := find_agrees_with_scan ha
  rw [hentries] at hmissing hread
  simp only [hentries] at hnumbers
  refine ⟨a, ha, hentries, (hnumbers "d/a/y" 1).mpr ⟨_, rfl, rfl⟩, ?_,
    (hmissing "a/x").mpr (by decide)⟩
  have hsecond := (hread ⟨"d/a/y", 178, 3, 3, ⟨0⟩, 1⟩ (by decide)).2
  exact hsecond.trans (congrArg Except.ok hbytes)

end Archive
end GameArchive.Vfs3
