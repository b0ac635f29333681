import GameArchive.Archive.Vfs3.Names
import GameArchive.Proofs.Regions
import GameArchive.Proofs.Text.Utf16
/-!
# Name tables by their bytes

Names are read from a position exactly when the bytes there are those that spell them, each name
behind the one before it. A name that holds the zero character has no such bytes, as a zero unit
ends the name.
-/
namespace GameArchive.Vfs3

variable {data : Bytes} {position next stop : Nat}

theorem unitsAt_eq_ok_iff_word {units : List Nat} :
    unitsAt data position = .ok (units, next) ↔ ∃ u, data.word position 2 = .ok u ∧
      ((u = 0 ∧ units = [] ∧ next = position + 2) ∨
        (u ≠ 0 ∧ ∃ rest, unitsAt data (position + 2) = .ok (rest, next) ∧ units = u :: rest)) := by
  rw [unitsAt, Bytes.word, Bytes.slice]
  by_cases hfit : position + 2 ≤ data.size
  · simp only [hfit, if_true, Except.map, Except.ok.injEq, exists_eq_left']
    generalize ofLittleEndian (data.extract position (position + 2)).toList = u
    by_cases hu : u = 0
    · simp [hu, eq_comm]
    · simp only [hu, if_false, false_and, not_false_eq_true, true_and, false_or, ne_eq]
      cases unitsAt data (position + 2) with
      | error e => simp
      | ok found =>
        obtain ⟨units', next'⟩ := found
        simp only [Except.ok.injEq, Prod.mk.injEq]
        constructor
        · rintro ⟨rfl, rfl⟩
          exact ⟨units', ⟨rfl, rfl⟩, rfl⟩
        · rintro ⟨rest, ⟨rfl, rfl⟩, rfl⟩
          exact ⟨rfl, rfl⟩
  · simp [hfit, Except.map]

/-- The bytes of units behind which a zero unit stands. -/
def unitsToBytes (units : List Nat) : List UInt8 :=
  units.flatMap (toLittleEndian 2) ++ toLittleEndian 2 0

theorem unitsToBytes_cons (u : Nat) (units : List Nat) :
    unitsToBytes (u :: units) = toLittleEndian 2 u ++ unitsToBytes units := by
  rw [unitsToBytes, List.flatMap_cons, List.append_assoc, unitsToBytes]

theorem unitsAt_eq_ok_iff {units : List Nat} : unitsAt data position = .ok (units, next) ↔
    (∀ u ∈ units, u ≠ 0 ∧ u < 0x10000) ∧ data.HoldsAt position (unitsToBytes units) ∧
      next = position + (unitsToBytes units).length := by
  induction units generalizing position with
  | nil =>
    rw [unitsAt_eq_ok_iff_word]
    constructor
    · rintro ⟨u, hu, ⟨rfl, -, rfl⟩ | ⟨-, rest, -, hrest⟩⟩
      · exact ⟨nofun, (Bytes.word_eq_ok_iff.mp hu).2, rfl⟩
      · cases hrest
    · rintro ⟨-, hbytes, rfl⟩
      exact ⟨0, Bytes.word_eq_ok_iff.mpr ⟨by decide, hbytes⟩, Or.inl ⟨rfl, rfl, rfl⟩⟩
  | cons u rest ih =>
    rw [unitsAt_eq_ok_iff_word, unitsToBytes_cons, Bytes.holdsAt_append, List.forall_mem_cons,
      List.length_append, length_toLittleEndian]
    constructor
    · rintro ⟨v, hv, ⟨-, hnil, -⟩ | ⟨hne, rest', hrest, hcons⟩⟩
      · cases hnil
      · cases hcons
        obtain ⟨hlt, hbytes⟩ := Bytes.word_eq_ok_iff.mp hv
        obtain ⟨hunits, hrestBytes, hnext⟩ := ih.mp hrest
        exact ⟨⟨⟨hne, hlt⟩, hunits⟩, ⟨hbytes, hrestBytes⟩, by omega⟩
    · rintro ⟨⟨⟨hne, hlt⟩, hunits⟩, ⟨hbytes, hrest⟩, hnext⟩
      exact ⟨u, Bytes.word_eq_ok_iff.mpr ⟨hlt, hbytes⟩,
        Or.inr ⟨hne, rest, ih.mpr ⟨hunits, hrest, by omega⟩, rfl⟩⟩

/-- Whether a name can stand in a table: there is no zero character in it. -/
def IsNulFree (name : String) : Prop :=
  Char.ofNat 0 ∉ name.toList

instance (name : String) : Decidable (IsNulFree name) :=
  inferInstanceAs (Decidable (¬ _))

/-- The bytes of a name. -/
def nameToBytes (name : String) : List UInt8 :=
  unitsToBytes (Text.Utf16.encodeChars name.toList)

theorem two_le_length_nameToBytes (name : String) : 2 ≤ (nameToBytes name).length := by
  rw [nameToBytes, unitsToBytes, List.length_append, length_toLittleEndian]
  exact Nat.le_add_left _ _

theorem nameAt_eq_ok_iff {name : String} : nameAt data position = .ok (name, next) ↔
    IsNulFree name ∧ data.HoldsAt position (nameToBytes name) ∧
      next = position + (nameToBytes name).length := by
  have hread : nameAt data position = .ok (name, next) ↔
      ∃ units, unitsAt data position = .ok (units, next) ∧
        Text.Utf16.decode? units = some name := by
    rw [nameAt]
    cases unitsAt data position with
    | error e => simp
    | ok found =>
      obtain ⟨units, stop⟩ := found
      cases hname : Text.Utf16.decode? units with
      | none => simp [hname]
      | some name' =>
        simp only [hname, Except.ok.injEq, Prod.mk.injEq]
        constructor
        · rintro ⟨rfl, rfl⟩
          exact ⟨units, ⟨rfl, rfl⟩, hname⟩
        · rintro ⟨units', ⟨rfl, rfl⟩, h⟩
          exact ⟨Option.some.inj (hname.symm.trans h), rfl⟩
  rw [hread]
  constructor
  · rintro ⟨units, hunits, hname⟩
    obtain ⟨hbound, hbytes, hnext⟩ := unitsAt_eq_ok_iff.mp hunits
    obtain rfl := (Text.Utf16.decode?_eq_some_iff fun u hu => (hbound u hu).2).mp hname
    refine ⟨fun hzero => ?_, hbytes, hnext⟩
    exact (hbound 0 (Text.Utf16.zero_mem_encodeChars.mpr hzero)).1 rfl
  · rintro ⟨hfree, hbytes, hnext⟩
    have hlt : ∀ u ∈ Text.Utf16.encodeChars name.toList, u < 0x10000 :=
      fun u hu => Text.Utf16.lt_of_mem_encodeChars hu
    refine ⟨_, unitsAt_eq_ok_iff.mpr ⟨fun u hu => ⟨?_, hlt u hu⟩, hbytes, hnext⟩,
      (Text.Utf16.decode?_eq_some_iff hlt).mpr rfl⟩
    rintro rfl
    exact hfree (Text.Utf16.zero_mem_encodeChars.mp hu)

theorem namesAt_eq_ok_iff {count : Nat} {names : List String} (hposition : position ≤ data.size) :
    namesAt data count position = .ok (names, stop) ↔ names.length = count ∧
      (∀ name ∈ names, IsNulFree name) ∧ data.HoldsAt position (names.flatMap nameToBytes) ∧
      stop = position + (names.flatMap nameToBytes).length := by
  induction count generalizing position names with
  | zero =>
    rw [namesAt, Except.ok.injEq, Prod.mk.injEq, List.length_eq_zero_iff]
    constructor
    · rintro ⟨rfl, rfl⟩
      exact ⟨rfl, nofun, Bytes.holdsAt_nil.mpr hposition, rfl⟩
    · rintro ⟨rfl, -, -, rfl⟩
      exact ⟨rfl, rfl⟩
  | succ count ih =>
    simp only [namesAt, bind_eq_ok]
    constructor
    · rintro ⟨⟨name, next⟩, hname, ⟨others, stop'⟩, hothers, h⟩
      cases h
      obtain ⟨hfree, hbytes, rfl⟩ := nameAt_eq_ok_iff.mp hname
      obtain ⟨rfl, hfrees, hrest, rfl⟩ := (ih hbytes.fits).mp hothers
      refine ⟨rfl, List.forall_mem_cons.mpr ⟨hfree, hfrees⟩, ?_, ?_⟩
      · rw [List.flatMap_cons]
        exact Bytes.holdsAt_append.mpr ⟨hbytes, hrest⟩
      · rw [List.flatMap_cons, List.length_append, Nat.add_assoc]
    · rintro ⟨hcount, hfrees, hbytes, rfl⟩
      obtain ⟨name, others, rfl⟩ := List.exists_cons_of_length_eq_add_one hcount
      obtain ⟨hfree, hfrees⟩ := List.forall_mem_cons.mp hfrees
      rw [List.flatMap_cons, Bytes.holdsAt_append] at hbytes
      refine ⟨(name, _), nameAt_eq_ok_iff.mpr ⟨hfree, hbytes.1, rfl⟩, (others, _),
        (ih hbytes.1.fits).mpr ⟨Nat.succ.inj hcount, hfrees, hbytes.2, ?_⟩, rfl⟩
      rw [List.flatMap_cons, List.length_append, Nat.add_assoc]

/-- The bytes of a list of names. -/
def namesToBytes (names : List String) : List UInt8 :=
  toLittleEndian 4 names.length ++ names.flatMap nameToBytes

theorem two_mul_length_le (names : List String) :
    names.length * 2 ≤ (names.flatMap nameToBytes).length := by
  induction names with
  | nil => exact Nat.le_refl _
  | cons name rest ih =>
    have hname := two_le_length_nameToBytes name
    rw [List.flatMap_cons, List.length_append, List.length_cons]
    omega

/-- A list of names is read where its bytes stand. The room asked for at once is never more than the
names take. -/
theorem nameListAt_eq_ok_iff {names : List String} :
    nameListAt data position = .ok (names, stop) ↔ names.length < numberBound 4 ∧
      (∀ name ∈ names, IsNulFree name) ∧ data.HoldsAt position (namesToBytes names) ∧
      stop = position + (namesToBytes names).length := by
  rw [namesToBytes, List.length_append, length_toLittleEndian, Bytes.holdsAt_append,
    length_toLittleEndian]
  simp only [nameListAt, bind_eq_ok, Bytes.word_eq_ok_iff]
  constructor
  · rintro ⟨count, ⟨hcount, hword⟩, room, -, hnames⟩
    obtain ⟨rfl, hfrees, hbytes, rfl⟩ := (namesAt_eq_ok_iff (by simpa using hword.fits)).mp hnames
    exact ⟨hcount, hfrees, ⟨hword, hbytes⟩, Nat.add_assoc _ _ _⟩
  · rintro ⟨hcount, hfrees, ⟨hword, hbytes⟩, rfl⟩
    have hroom : position + 4 + names.length * 2 ≤ data.size :=
      Nat.le_trans (Nat.add_le_add_left (two_mul_length_le names) _) hbytes.fits
    exact ⟨_, ⟨hcount, hword⟩, _, Bytes.slice_of_le hroom,
      (namesAt_eq_ok_iff (by simpa using hword.fits)).mpr
        ⟨rfl, hfrees, hbytes, (Nat.add_assoc _ _ _).symm⟩⟩

/-- The room asked for at once is never missing where the names themselves can be read. -/
theorem nameListAt_eq_ok_of_namesAt {count : Nat} {names : List String}
    (hcount : data.word position 4 = .ok count)
    (hnames : namesAt data count (position + 4) = .ok (names, stop)) :
    nameListAt data position = .ok (names, stop) := by
  obtain ⟨hlt, hword⟩ := Bytes.word_eq_ok_iff.mp hcount
  have hstart : position + 4 ≤ data.size := by simpa using hword.fits
  obtain ⟨rfl, hfrees, hbytes, hstop⟩ := (namesAt_eq_ok_iff hstart).mp hnames
  have hroom : position + 4 + names.length * 2 ≤ data.size :=
    Nat.le_trans (Nat.add_le_add_left (two_mul_length_le names) _) hbytes.fits
  exact bind_eq_ok.mpr ⟨_, hcount, bind_eq_ok.mpr ⟨_, Bytes.slice_of_le hroom, hnames⟩⟩

namespace NameTable

/-- The bytes of a name table. -/
def toBytes (t : NameTable) : List UInt8 :=
  namesToBytes t.files ++ namesToBytes t.folders

theorem parse_eq_ok_iff {t : NameTable} : parse data position = .ok t ↔
    (t.files.length < numberBound 4 ∧ ∀ name ∈ t.files, IsNulFree name) ∧
      (t.folders.length < numberBound 4 ∧ ∀ name ∈ t.folders, IsNulFree name) ∧
      data.HoldsAt position t.toBytes := by
  rw [toBytes, Bytes.holdsAt_append]
  simp only [parse, bind_eq_ok]
  constructor
  · rintro ⟨⟨files, next⟩, hfiles, ⟨folders, stop⟩, hfolders, h⟩
    cases h
    obtain ⟨hcount, hfrees, hbytes, rfl⟩ := nameListAt_eq_ok_iff.mp hfiles
    obtain ⟨hcount', hfrees', hbytes', -⟩ := nameListAt_eq_ok_iff.mp hfolders
    exact ⟨⟨hcount, hfrees⟩, ⟨hcount', hfrees'⟩, hbytes, hbytes'⟩
  · rintro ⟨⟨hcount, hfrees⟩, ⟨hcount', hfrees'⟩, hbytes, hbytes'⟩
    exact ⟨(t.files, _), nameListAt_eq_ok_iff.mpr ⟨hcount, hfrees, hbytes, rfl⟩, (t.folders, _),
      nameListAt_eq_ok_iff.mpr ⟨hcount', hfrees', hbytes', rfl⟩, rfl⟩

/-- Whether a name table stands at a position: the names of the files behind their count, and then
those of the folders behind theirs. -/
structure IsAt (t : NameTable) (data : Bytes) (position : Nat) : Prop where
  length_files_lt : t.files.length < numberBound 4
  files_free : ∀ name ∈ t.files, IsNulFree name
  length_folders_lt : t.folders.length < numberBound 4
  folders_free : ∀ name ∈ t.folders, IsNulFree name
  holdsAt : data.HoldsAt position t.toBytes

theorem parse_eq_ok_iff_isAt {t : NameTable} :
    parse data position = .ok t ↔ t.IsAt data position := by
  rw [parse_eq_ok_iff]
  constructor
  · intro h
    obtain ⟨⟨hfiles, hfilesFree⟩, ⟨hfolders, hfoldersFree⟩, hbytes⟩ := h
    exact ⟨hfiles, hfilesFree, hfolders, hfoldersFree, hbytes⟩
  · intro h
    exact ⟨⟨h.length_files_lt, h.files_free⟩, ⟨h.length_folders_lt, h.folders_free⟩, h.holdsAt⟩

/-- The bytes that a table is read from are those of its names. -/
theorem slice_of_nameListAt {files folders : List String}
    (hfiles : nameListAt data position = .ok (files, next))
    (hfolders : nameListAt data next = .ok (folders, stop)) :
    position ≤ stop ∧
      data.slice position (stop - position) = .ok (toBytes ⟨files, folders⟩).toArray := by
  obtain ⟨-, -, hbytes, rfl⟩ := nameListAt_eq_ok_iff.mp hfiles
  obtain ⟨-, -, hbytes', rfl⟩ := nameListAt_eq_ok_iff.mp hfolders
  have htable : data.HoldsAt position (toBytes ⟨files, folders⟩) :=
    Bytes.holdsAt_append.mpr ⟨hbytes, hbytes'⟩
  refine ⟨by omega, htable.slice_eq ?_⟩
  rw [toBytes, List.length_append, Nat.add_assoc, Nat.add_sub_cancel_left]

/-- Reading finds a table exactly where one stands, there is one there at most, and its bytes are
those that the two lists of names are read from. That a list has to have room for its count at once
refuses no names that could be read one by one. -/
theorem parse_inverts_toBytes (data : Bytes) (position : Nat) :
    (∀ t, parse data position = .ok t ↔ t.IsAt data position) ∧
    (∀ t u : NameTable, t.IsAt data position → u.IsAt data position → t = u) ∧
    (∀ t, parse data position = .ok t → ∃ next stop,
      nameListAt data position = .ok (t.files, next) ∧
      nameListAt data next = .ok (t.folders, stop) ∧ position ≤ stop ∧
      data.slice position (stop - position) = .ok t.toBytes.toArray) ∧
    ∀ start count names stop, data.word start 4 = .ok count →
      (namesAt data count (start + 4) = .ok (names, stop) ↔
        nameListAt data start = .ok (names, stop)) := by
  refine ⟨fun t => parse_eq_ok_iff_isAt, ?_, ?_, ?_⟩
  · intro t u ht hu
    have hsame := (parse_eq_ok_iff_isAt.mpr ht).symm.trans (parse_eq_ok_iff_isAt.mpr hu)
    exact Except.ok.inj hsame
  · intro t ht
    obtain ⟨⟨files, next⟩, hfiles, ht⟩ := bind_eq_ok.mp ht
    obtain ⟨⟨folders, stop⟩, hfolders, ht⟩ := bind_eq_ok.mp ht
    obtain rfl := Except.ok.inj ht
    exact ⟨next, stop, hfiles, hfolders, slice_of_nameListAt hfiles hfolders⟩
  · intro start count names stop hcount
    constructor
    · exact nameListAt_eq_ok_of_namesAt hcount
    · intro hlist
      obtain ⟨count', hcount', hlist⟩ := bind_eq_ok.mp hlist
      obtain ⟨-, -, hnames⟩ := bind_eq_ok.mp hlist
      obtain rfl := Except.ok.inj (hcount.symm.trans hcount')
      exact hnames

/-- A name with a character that takes two units, an empty name, and no folder. -/
def wideAndEmpty : NameTable := ⟨["𝄞a", ""], []⟩

theorem parse_inverts_toBytes_wideAndEmpty :
    wideAndEmpty.IsAt wideAndEmpty.toBytes.toArray 0 ∧
    parse wideAndEmpty.toBytes.toArray 0 = .ok wideAndEmpty ∧
    ∃ next stop, nameListAt wideAndEmpty.toBytes.toArray 0 = .ok (wideAndEmpty.files, next) ∧
      nameListAt wideAndEmpty.toBytes.toArray next = .ok (wideAndEmpty.folders, stop) ∧
      0 ≤ stop ∧
      Bytes.slice wideAndEmpty.toBytes.toArray 0 (stop - 0) =
        .ok wideAndEmpty.toBytes.toArray := by
  have hat : wideAndEmpty.IsAt wideAndEmpty.toBytes.toArray 0 :=
    ⟨by decide, by decide, by decide, nofun, Bytes.holdsAt_toArray _⟩
  obtain ⟨haccepts, -, hread, -⟩ := parse_inverts_toBytes wideAndEmpty.toBytes.toArray 0
  exact ⟨hat, (haccepts _).mpr hat, hread _ ((haccepts _).mpr hat)⟩

end NameTable
end GameArchive.Vfs3
