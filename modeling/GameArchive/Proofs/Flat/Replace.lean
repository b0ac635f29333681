import GameArchive.Proofs.Flat.EndOrder
/-!
# Runs of replacements

While every payload lies behind the directory, a replacement changes what one entry holds and
nothing else that a reader can see; and the payloads lie behind the directory again. So after any
run of replacements each entry holds what was put there last, or else what it held at first.
-/
namespace GameArchive

/-- A request to put `bytes` in place of the payload called `name`. -/
structure Replacement where
  name : String
  bytes : Bytes
  /-- The size after decompression, for formats that state it. -/
  decompressedSize : Nat

namespace FlatArchive

variable {f : FlatFormat} {a b : FlatArchive f}

/-- The archive after some replacements, each made in the result of the one before. -/
def replaceAll (a : FlatArchive f) : List Replacement → Except Error (FlatArchive f)
  | [] => .ok a
  | s :: rest => do
    let b ← a.replace s.name s.bytes s.decompressedSize
    b.replaceAll rest

/-- The last of some replacements that is for the entry at position `i`. -/
def lastReplacement (a : FlatArchive f) (steps : List Replacement) (i : Nat) : Option Replacement :=
  (steps.filter fun s => a.position s.name == i).getLast?

/-- Whether all payloads lie behind the directory. -/
def IsBehindDirectory (a : FlatArchive f) : Prop :=
  ∀ e ∈ a.entries, a.directory.endOffset ≤ e.offset

instance (a : FlatArchive f) : Decidable a.IsBehindDirectory :=
  inferInstanceAs (Decidable (∀ e ∈ a.entries, _))

/-- Whether position `p` is in a field of a record that says where a payload lies. -/
def InPlacingField (a : FlatArchive f) (p : Nat) : Prop :=
  ∃ i < a.directory.count, ∃ g ∈ f.placing.fields,
    a.directory.recordOffset i + g.offset ≤ p ∧ p < a.directory.recordOffset i + g.endOffset

/-- Whether position `p` is before all payloads. -/
def IsBeforePayloads (a : FlatArchive f) (p : Nat) : Prop :=
  ∀ e ∈ a.entries, p < e.offset

namespace Rebuilt

variable {name : String} {bytes : Bytes} {n i : Nat} {r : Relayout} {old e : Entry}

/-- With all payloads behind the directory, the entries of the new archive are the old ones at
their new places. -/
theorem exists_entry (hab : Rebuilt a b name bytes n r old) (ha : a.IsOpen) (hb : b.IsOpen)
    (hbehind : a.IsBehindDirectory) (hfilled : f = .startDat .endOffset → 0 < bytes.size)
    (he : a.entries[i]? = some e) :
    ∃ e', b.entries[i]? = some e' ∧ e'.index = e.index ∧
      e'.offset = (Relayout.placement old r.target bytes.size i e).offset ∧
      e'.size = (Relayout.placement old r.target bytes.size i e).size := by
  have hcount : b.directory.count = a.directory.count :=
    hab.count_eq ha hb (Nat.le_trans ha.headerSize_le (hbehind old hab.moves.old_mem))
  obtain ⟨e', he'⟩ := exists_getElem?_new ha hb hcount he
  have hmem := List.mem_of_getElem? he'
  refine ⟨e', he', ?_⟩
  cases hf : f.placing with
  | explicit offset size decompressed =>
    have hindex : e'.index = e.index := by
      rw [hb.index_eq (by simp [hf]) he', ha.index_eq (by simp [hf]) he]
    exact ⟨hindex, hab.explicit_eq ha hb hcount hf he hmem hindex⟩
  | starts field =>
    have hindex : e'.index = e.index := by
      rw [hb.index_eq (by simp [hf]) he', ha.index_eq (by simp [hf]) he]
    have hoffset := hab.offset_eq ha hb hcount hf he hmem hindex
    have hplaced := hab.moves.le_placement_offset hbehind he
    have hend : e'.endOffset = (Relayout.placement old r.target bytes.size i e).endOffset := by
      cases hnext : a.entries[i + 1]? with
      | some d => exact hab.endOffset_eq_of_succ ha hb hcount hf he hnext he'
      | none =>
        have hlt := (List.getElem?_eq_some_iff.mp he).1
        have hle := List.getElem?_eq_none_iff.mp hnext
        rw [hab.endOffset_eq_of_last ha hb hcount hf he (by omega) he']
        exact Nat.max_eq_left (Nat.le_trans hplaced (Nat.le_add_right _ _))
    refine ⟨hindex, hoffset, ?_⟩
    unfold Entry.endOffset Placement.endOffset at hend
    omega
  | ends field =>
    have hindices := hab.map_index_eq ha hb hcount hf (hfilled (FlatFormat.eq_of_placing_ends hf))
    have hindex : e'.index = e.index := by
      have hi := congrArg (·[i]?) hindices
      simpa [he, he'] using hi
    have hover : ¬ Overtakes a.entries old bytes := by
      intro hover
      have := hfilled (FlatFormat.eq_of_placing_ends hf)
      exact absurd hover.1 (by omega)
    have hoffset := hab.offset_eq_placement ha hb hcount hf hover he hmem hindex
    have hend := hab.endOffset_eq_placement ha hb hcount hf he hmem hindex
    refine ⟨hindex, hoffset, ?_⟩
    unfold Entry.endOffset Placement.endOffset at hend
    omega

end Rebuilt

/-- What one replacement changes, and what it keeps. -/
structure Replaced (a b : FlatArchive f) (s : Replacement) : Prop where
  names_eq : b.entries.map (·.name) = a.entries.map (·.name)
  indices_eq : b.entries.map (·.index) = a.entries.map (·.index)
  read_eq : ∀ {i : Nat} {e e' : Entry}, a.entries[i]? = some e → b.entries[i]? = some e' →
    e'.read b.data = if i = a.position s.name then .ok s.bytes else e.read a.data
  stated_eq : f = .pspfs .makaiKingdom → ∀ {i : Nat} {e e' : Entry}, a.entries[i]? = some e →
    b.entries[i]? = some e' → e'.decompressedSize =
      if i = a.position s.name then s.decompressedSize else e.decompressedSize
  behind : b.IsBehindDirectory
  inPlacingField_iff : ∀ p, b.InPlacingField p ↔ a.InPlacingField p
  isBeforePayloads : ∀ p, a.IsBeforePayloads p → b.IsBeforePayloads p
  kept : ∀ p, a.IsBeforePayloads p → ¬ a.InPlacingField p → b.data[p]? = a.data[p]?

/-- One replacement in an archive with all payloads behind the directory. -/
theorem replaced_of_replace (ha : a.IsOpen) (hbehind : a.IsBehindDirectory) {s : Replacement}
    (hfilled : f = .startDat .endOffset → 0 < s.bytes.size)
    (h : a.replace s.name s.bytes s.decompressedSize = .ok b) :
    ofBytes f b.data = .ok b ∧ Replaced a b s := by
  obtain ⟨hb, hopen, r, old, hab⟩ := rebuilt_of_replace ha h
  have hm := hab.moves
  have htarget : a.position s.name = r.target := hab.position_eq
  have hcount : b.directory.count = a.directory.count :=
    hab.count_eq ha hb (Nat.le_trans ha.headerSize_le (hbehind old hm.old_mem))
  have hlen := Rebuilt.length_eq ha hb hcount
  have hdir := Rebuilt.directoryEnd_eq ha hb hcount
  have hentry : ∀ {i : Nat} {e e' : Entry}, a.entries[i]? = some e → b.entries[i]? = some e' →
      e'.index = e.index ∧ e'.offset = (Relayout.placement old r.target s.bytes.size i e).offset ∧
        e'.size = (Relayout.placement old r.target s.bytes.size i e).size := by
    intro i e e' he he'
    obtain ⟨d', hd', hd⟩ := hab.exists_entry ha hb hbehind hfilled he
    rwa [Option.some.inj (hd'.symm.trans he')] at hd
  have hold_entry : ∀ {i : Nat} {e' : Entry}, b.entries[i]? = some e' →
      ∃ e, a.entries[i]? = some e := by
    intro i e' he'
    have hlt := (List.getElem?_eq_some_iff.mp he').1
    exact ⟨_, List.getElem?_eq_getElem (by omega)⟩
  refine ⟨hopen, ?_⟩
  constructor
  case names_eq =>
    exact hab.names_eq ha hb hcount fun he he' => (hentry he he').1
  case indices_eq =>
    apply List.ext_getElem (by simpa using hlen)
    intro i hi hi'
    rw [List.length_map] at hi hi'
    rw [List.getElem_map, List.getElem_map]
    exact (hentry (List.getElem?_eq_getElem hi') (List.getElem?_eq_getElem hi)).1
  case read_eq =>
    intro i e e' he he'
    obtain ⟨-, hoffset, hsize⟩ := hentry he he'
    rw [hab.read_eq_payload ha hb he (List.mem_of_getElem? he') hoffset hsize
      (hm.le_placement_offset hbehind he), htarget]
    unfold Relayout.payload
    split
    case isTrue => rfl
    case isFalse =>
      rw [Entry.read_of_le (ha.endOffset_le e (List.mem_of_getElem? he))]
  case stated_eq =>
    rintro rfl i e e' he he'
    rw [htarget]
    exact hab.decompressedSize_eq ha hb hcount rfl he (List.mem_of_getElem? he') (hentry he he').1
  case behind =>
    intro e' he'
    obtain ⟨i, hi⟩ := List.mem_iff_getElem?.mp he'
    obtain ⟨e, he⟩ := hold_entry hi
    rw [(hentry he hi).2.1, hdir]
    exact hm.le_placement_offset hbehind he
  case inPlacingField_iff =>
    intro p
    unfold InPlacingField
    simp only [ha.recordOffset_eq, hb.recordOffset_eq, hcount]
  case isBeforePayloads =>
    intro p hp e' he'
    obtain ⟨i, hi⟩ := List.mem_iff_getElem?.mp he'
    obtain ⟨e, he⟩ := hold_entry hi
    rw [(hentry he hi).2.1]
    exact hm.le_placement_offset (fun d hd => hp d hd) he
  case kept =>
    intro p hp hfield
    have hold := hp old hm.old_mem
    by_cases hdirectory : f.headerSize ≤ p ∧ p < a.directory.endOffset
    · apply hab.getElem?_directory ha hdirectory.1 hdirectory.2
      exact fun i hi g hg hin => hfield ⟨i, hi, g, hg, hin⟩
    · rw [hab.outside p (by omega)]
      exact hm.getElem?_assemble_of_lt ha.endOffset_le ha.directoryEnd_le hold
        (hm.lt_headLength ha.endOffset_le hp)

/-- The name that was replaced is found again, and reads the new bytes. -/
theorem Replaced.exists_find {s : Replacement} (h : Replaced a b s) (ha : a.IsOpen)
    (hreplace : a.replace s.name s.bytes s.decompressedSize = .ok b) :
    ∃ e, b.find s.name = .ok e ∧ e.read b.data = .ok s.bytes := by
  obtain ⟨-, -, r, old, hab⟩ := rebuilt_of_replace ha hreplace
  have hold := find_eq_ok_iff.mp hab.find_eq
  obtain ⟨e, he⟩ := exists_entry_of_names h.names_eq hold
  refine ⟨e, ?_, ?_⟩
  · rw [find_eq_ok_iff, position_eq_of_names h.names_eq]
    exact he
  · rw [h.read_eq hold he, if_pos rfl]

/-- The positions of names stay, so later replacements are for the same entries. -/
theorem Replaced.lastReplacement_eq {s : Replacement} (h : Replaced a b s)
    (steps : List Replacement) : b.lastReplacement steps = a.lastReplacement steps := by
  funext i
  unfold lastReplacement
  simp only [position_eq_of_names h.names_eq]

theorem lastReplacement_cons (s : Replacement) (steps : List Replacement) (i : Nat) :
    a.lastReplacement (s :: steps) i =
      (a.lastReplacement steps i).or (if i = a.position s.name then some s else none) := by
  unfold lastReplacement
  rw [List.filter_cons]
  by_cases hi : i = a.position s.name
  · subst hi
    simp only [BEq.rfl, if_true, List.getLast?_cons]
    cases (steps.filter fun t => a.position t.name == a.position s.name).getLast? <;> rfl
  · have hne : (a.position s.name == i) = false := by simpa using Ne.symm hi
    simp [hne, hi]

/-- Any number of replacements, each in the result of the one before, in an archive with all
payloads behind the directory: the entries stay, each holds the bytes (and where it is stated, the
decompressed size) that were put there last, or else those it held at first, and in front of the
payloads nothing changes but the fields that say where these lie. Where ends alone are stated the
replacements must not be empty. -/
theorem replaceAll_holds_last {data : Bytes} {steps : List Replacement}
    (hopen : ofBytes f data = .ok a) (hbehind : a.IsBehindDirectory)
    (hfilled : f = .startDat .endOffset → ∀ s ∈ steps, 0 < s.bytes.size)
    (hrun : a.replaceAll steps = .ok b) :
    ofBytes f b.data = .ok b ∧
      b.entries.map (·.name) = a.entries.map (·.name) ∧
      b.entries.map (·.index) = a.entries.map (·.index) ∧
      (∀ (i : Nat) (e e' : Entry), a.entries[i]? = some e → b.entries[i]? = some e' →
        ∃ first, e.read a.data = .ok first ∧
          e'.read b.data = .ok ((a.lastReplacement steps i).elim first (·.bytes))) ∧
      (f = .pspfs .makaiKingdom → ∀ (i : Nat) (e e' : Entry), a.entries[i]? = some e →
        b.entries[i]? = some e' → e'.decompressedSize =
          (a.lastReplacement steps i).elim e.decompressedSize (·.decompressedSize)) ∧
      ∀ p, a.IsBeforePayloads p → ¬ a.InPlacingField p → b.data[p]? = a.data[p]? := by
  obtain ⟨ha, rfl⟩ := isOpen_of_ofBytes hopen
  induction steps generalizing a with
  | nil =>
    cases hrun
    refine ⟨hopen, rfl, rfl, ?_, ?_, fun p _ _ => rfl⟩
    · intro i e e' he he'
      obtain rfl := Option.some.inj (he.symm.trans he')
      exact ⟨_, Entry.read_of_le (ha.endOffset_le e (List.mem_of_getElem? he)),
        Entry.read_of_le (ha.endOffset_le e (List.mem_of_getElem? he))⟩
    · intro _ i e e' he he'
      obtain rfl := Option.some.inj (he.symm.trans he')
      rfl
  | cons s steps ih =>
    obtain ⟨c, hc, hrun⟩ := bind_eq_ok.mp hrun
    obtain ⟨hcopen, hac⟩ := replaced_of_replace ha hbehind
      (fun hf => hfilled hf s List.mem_cons_self) hc
    obtain ⟨hb, hnames, hindices, hreads, hstated, hkept⟩ := ih hac.behind
      (fun hf t ht => hfilled hf t (List.mem_cons_of_mem s ht)) hrun
      (isOpen_of_ofBytes hcopen).1 hcopen
    have hlater := hac.lastReplacement_eq steps
    refine ⟨hb, hnames.trans hac.names_eq, hindices.trans hac.indices_eq, ?_, ?_, ?_⟩
    · intro i e e' he he'
      obtain ⟨d, hd⟩ := exists_entry_of_names hac.names_eq he
      obtain ⟨first, hfirst, hlast⟩ := hreads i d e' hd he'
      have hread := Entry.read_of_le (ha.endOffset_le e (List.mem_of_getElem? he))
      refine ⟨_, hread, ?_⟩
      rw [hlast, lastReplacement_cons, hlater]
      rw [hac.read_eq he hd] at hfirst
      cases a.lastReplacement steps i with
      | some t => rfl
      | none =>
        by_cases hi : i = a.position s.name
        · rw [if_pos hi] at hfirst
          simp [hi, Except.ok.inj hfirst]
        · rw [if_neg hi, hread] at hfirst
          simp [hi, Except.ok.inj hfirst]
    · intro hf i e e' he he'
      obtain ⟨d, hd⟩ := exists_entry_of_names hac.names_eq he
      rw [hstated hf i d e' hd he', lastReplacement_cons, hlater, hac.stated_eq hf he hd]
      cases a.lastReplacement steps i with
      | some t => rfl
      | none => by_cases hi : i = a.position s.name <;> simp [hi]
    · intro p hp hfield
      rw [hkept p (hac.isBeforePayloads p hp) (mt (hac.inPlacingField_iff p).mp hfield),
        hac.kept p hp hfield]

theorem replaceAll_holds_last_of_descendingEnds :
    ∃ a b : FlatArchive (.startDat .endOffset),
      ofBytes (.startDat .endOffset) descendingEnds = .ok a ∧ a.IsBehindDirectory ∧
      a.replaceAll [⟨"b", #[7, 8, 9, 10], 0⟩, ⟨"a", #[11], 0⟩] = .ok b ∧
      ofBytes (.startDat .endOffset) b.data = .ok b ∧
      b.entries.map (·.index) = [1, 0] ∧
      b.entries.map (fun e => (e.read b.data).toOption) = [some #[7, 8, 9, 10], some #[11]] := by
  obtain ⟨a, ha, hcheck⟩ := exists_ok_of_any
    (x := ofBytes (.startDat .endOffset) descendingEnds)
    (p := fun a => decide a.IsBehindDirectory && a.entries.map (·.index) == [1, 0] &&
      (a.replaceAll [⟨"b", #[7, 8, 9, 10], 0⟩, ⟨"a", #[11], 0⟩]).toOption.any fun b =>
        b.entries.map (fun e => (e.read b.data).toOption) == [some #[7, 8, 9, 10], some #[11]])
    (by
      simp only [replaceAll, replace, ofBytes, FlatFormat.readEntries, FlatFormat.placing,
        FlatFormat.byEnd_zipIdx_eq_insertionSort]
      decide +kernel)
  simp only [Bool.and_eq_true, decide_eq_true_eq, beq_iff_eq] at hcheck
  obtain ⟨⟨hbehind, hindices⟩, hrun⟩ := hcheck
  obtain ⟨b, hb, hreads⟩ := exists_ok_of_any hrun
  have hfilled : ∀ s ∈ [(⟨"b", #[7, 8, 9, 10], 0⟩ : Replacement), ⟨"a", #[11], 0⟩],
      0 < s.bytes.size := by decide
  obtain ⟨hopen, -, hkept, -⟩ := replaceAll_holds_last ha hbehind (fun _ => hfilled) hb
  exact ⟨a, b, ha, hbehind, hb, hopen, hkept.trans hindices, beq_iff_eq.mp hreads⟩

end FlatArchive
end GameArchive
