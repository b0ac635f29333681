import GameArchive.Proofs.Assembly
import GameArchive.Proofs.Flat.Opening
/-!
# What a replacement leaves

A replacement that succeeds lays out the payloads, puts them at their places and then rewrites the
record of every entry. So the whole directory is written last: outside it the assembled bytes
stand, and inside it the new records, whatever lies below them.
-/
namespace GameArchive.FlatArchive

variable {f : FlatFormat} {a b : FlatArchive f}

theorem Table.get_eq_ok {l : Layout} {t : Table l} {i : Nat} {r : Record l}
    (h : t.get i = .ok r) : ∃ hi : i < t.count, t.record ⟨i, hi⟩ = r := by
  unfold GameArchive.Table.get at h
  split at h
  case isTrue hi => exact ⟨hi, Except.ok.inj h⟩
  case isFalse => cases h

/-- The position of the first entry called `name`, which a replacement under that name is for. -/
def position (a : FlatArchive f) (name : String) : Nat :=
  a.entries.findIdx fun e => e.name == name

theorem find_eq_ok_iff {name : String} {e : Entry} :
    a.find name = .ok e ↔ a.entries[a.position name]? = some e := by
  unfold find Entry.find position
  rw [← List.find?_eq_getElem?_findIdx]
  cases a.entries.find? fun d => d.name == name with
  | none => simp
  | some d => simp

theorem name_of_find_eq_ok {name : String} {e : Entry} (h : a.find name = .ok e) :
    e.name = name := by
  unfold find Entry.find at h
  cases hfound : a.entries.find? fun d => d.name == name with
  | none => rw [hfound] at h; cases h
  | some d =>
    rw [hfound] at h
    obtain rfl := Except.ok.inj h
    simpa using List.find?_some hfound

/-- The payload of the first entry called `name`. -/
def readName (a : FlatArchive f) (name : String) : Except Error Bytes := do
  let e ← a.find name
  e.read a.data

theorem position_eq_of_names (h : b.entries.map (·.name) = a.entries.map (·.name))
    (name : String) : b.position name = a.position name := by
  have hmap : ∀ c : FlatArchive f,
      c.position name = (c.entries.map (·.name)).findIdx fun m => m == name := by
    intro c
    rw [List.findIdx_map]
    rfl
  rw [hmap b, hmap a, h]

theorem exists_entry_of_names (h : b.entries.map (·.name) = a.entries.map (·.name)) {i : Nat}
    {e : Entry} (he : a.entries[i]? = some e) : ∃ e', b.entries[i]? = some e' := by
  have hlen := congrArg List.length h
  rw [List.length_map, List.length_map] at hlen
  have hlt := (List.getElem?_eq_some_iff.mp he).1
  exact ⟨_, List.getElem?_eq_getElem (by omega)⟩

/-- The records are written one after another as pieces, one for each entry. -/
theorem updateRecords_eq_writeAll {target n k : Nat} {placed : List (Entry × Placement)}
    {out out' : Bytes} (h : a.updateRecords target n k placed out = .ok out') :
    ∃ pieces : List (Nat × Bytes), out' = Bytes.writeAll pieces out ∧
      pieces.length = placed.length ∧
      ∀ j e p, placed[j]? = some (e, p) → ∃ (hi : e.index < a.directory.count)
        (new : Record f.layout),
        f.updateRecord a.directory.endOffset p (if k + j = target then some n else none)
          (a.directory.record ⟨e.index, hi⟩) = .ok new ∧
        pieces[j]? = some (a.directory.recordOffset e.index, new.raw) := by
  induction placed generalizing k out with
  | nil => cases h; exact ⟨[], rfl, rfl, fun j e p hj => by cases hj⟩
  | cons ep rest ih =>
    obtain ⟨e, p⟩ := ep
    obtain ⟨old, hold, h⟩ := bind_eq_ok.mp h
    obtain ⟨hi, rfl⟩ := Table.get_eq_ok hold
    dsimp only at h
    obtain ⟨new, hnew, h⟩ := bind_eq_ok.mp h
    obtain ⟨pieces, hout, hlen, hpieces⟩ := ih h
    refine ⟨(a.directory.recordOffset e.index, new.raw) :: pieces, hout, by simp [hlen], ?_⟩
    intro j d q hj
    cases j with
    | zero => cases hj; exact ⟨hi, new, hnew, rfl⟩
    | succ j =>
      obtain ⟨hd, m, hm, hpiece⟩ := hpieces j d q hj
      rw [Nat.add_assoc, Nat.add_comm 1] at hm
      exact ⟨hd, m, hm, hpiece⟩

/-- The records cannot be written only when one of them cannot be rewritten. -/
theorem exists_of_updateRecords_eq_error {target n k : Nat} {placed : List (Entry × Placement)}
    {out : Bytes} {err : Error} (hindex : ∀ ep ∈ placed, ep.1.index < a.directory.count)
    (h : a.updateRecords target n k placed out = .error err) :
    ∃ j e p, placed[j]? = some (e, p) ∧ ∃ hi : e.index < a.directory.count,
      f.updateRecord a.directory.endOffset p (if k + j = target then some n else none)
        (a.directory.record ⟨e.index, hi⟩) = .error err := by
  induction placed generalizing k out with
  | nil => cases h
  | cons ep rest ih =>
    obtain ⟨e, p⟩ := ep
    have hi : e.index < a.directory.count := hindex _ List.mem_cons_self
    rcases bind_eq_error.mp h with hold | ⟨record, hold, hwrite⟩
    · rw [GameArchive.Table.get, dif_pos hi] at hold
      cases hold
    · rw [← (Table.get_eq_ok hold).2] at hwrite
      rcases bind_eq_error.mp hwrite with hnew | ⟨new, -, hrest⟩
      · exact ⟨0, e, p, rfl, hi, hnew⟩
      · obtain ⟨j, d, q, hj, hd, herr⟩ :=
          ih (fun ep hep => hindex ep (List.mem_cons_of_mem _ hep)) hrest
        rw [Nat.add_assoc, Nat.add_comm 1] at herr
        exact ⟨j + 1, d, q, hj, hd, herr⟩

/-- Records of one size do not reach into each other. -/
theorem index_eq_of_recordOffset_le (ha : a.IsOpen) {i j k : Nat} (hk : k < f.layout.size)
    (hle : a.directory.recordOffset j ≤ a.directory.recordOffset i + k)
    (hlt : a.directory.recordOffset i + k < a.directory.recordOffset j + f.layout.size) : i = j := by
  rw [ha.recordOffset_eq, ha.recordOffset_eq] at hle hlt
  rcases Nat.lt_trichotomy i j with hij | hij | hij
  · have hmul := Nat.mul_le_mul_right f.layout.size (Nat.succ_le_iff.mpr hij)
    rw [Nat.succ_mul] at hmul
    omega
  · exact hij
  · have hmul := Nat.mul_le_mul_right f.layout.size (Nat.succ_le_iff.mpr hij)
    rw [Nat.succ_mul] at hmul
    omega

theorem eq_of_index_eq (ha : a.IsOpen) {i j : Nat} {d e : Entry} (hd : a.entries[i]? = some d)
    (he : a.entries[j]? = some e) (h : d.index = e.index) : i = j := by
  have hlt : i < (a.entries.map (·.index)).length := by
    rw [List.length_map]; exact (List.getElem?_eq_some_iff.mp hd).1
  apply (List.getElem?_inj hlt ha.index_nodup).mp
  rw [List.getElem?_map, List.getElem?_map, hd, he, Option.map_some, Option.map_some, h]

/-- Every byte of the directory is a byte of the record of some entry. -/
theorem exists_record_at (ha : a.IsOpen) {p : Nat} (hle : f.headerSize ≤ p)
    (hlt : p < a.directory.endOffset) :
    ∃ (i : Nat) (e : Entry) (k : Nat), a.entries[i]? = some e ∧ k < f.layout.size ∧
      p = a.directory.recordOffset e.index + k := by
  have hend := ha.directoryEnd_eq
  have hpos : 0 < f.layout.size := by
    rcases Nat.eq_zero_or_pos f.layout.size with hzero | hpos
    · rw [hzero, Nat.mul_zero] at hend; omega
    · exact hpos
  have hdiv := Nat.div_add_mod (p - f.headerSize) f.layout.size
  have hk : (p - f.headerSize) / f.layout.size < a.directory.count := by
    apply Nat.div_lt_of_lt_mul
    rw [Nat.mul_comm]
    omega
  obtain ⟨i, e, hi, hindex⟩ := ha.exists_entry_of_lt hk
  refine ⟨i, e, (p - f.headerSize) % f.layout.size, hi, Nat.mod_lt _ hpos, ?_⟩
  rw [ha.recordOffset_eq, hindex, Nat.mul_comm]
  omega

/-- What is known of `b` when it is `a` with a payload replaced. -/
structure Rebuilt (a b : FlatArchive f) (name : String) (bytes : Bytes) (n : Nat) (r : Relayout)
    (old : Entry) : Prop where
  relayout_eq : Relayout.ofReplacement a.entries name bytes.size = .ok r
  moves : r.Moves a.entries name bytes.size old
  size_eq : b.data.size = max r.totalLength a.directory.endOffset
  outside : ∀ p, p < f.headerSize ∨ a.directory.endOffset ≤ p →
    b.data[p]? = (r.assemble a.data a.directory.endOffset a.entries bytes)[p]?
  rewritten : ∀ i e, a.entries[i]? = some e → ∃ (hi : e.index < a.directory.count)
    (new : Record f.layout),
    f.updateRecord a.directory.endOffset (Relayout.placement old r.target bytes.size i e)
      (if i = r.target then some n else none) (a.directory.record ⟨e.index, hi⟩) = .ok new ∧
    ∀ k < f.layout.size, b.data[a.directory.recordOffset e.index + k]? = new.raw[k]?

/-- The pieces that a replacement writes are the new records of the entries. -/
theorem exists_pieces {name : String} {bytes out out' : Bytes} {n : Nat} {r : Relayout} {old : Entry}
    (hm : r.Moves a.entries name bytes.size old)
    (h : a.updateRecords r.target n 0 (a.entries.zip r.placements) out = .ok out') :
    ∃ pieces, out' = Bytes.writeAll pieces out ∧
      (∀ piece ∈ pieces, ∃ i e, a.entries[i]? = some e ∧ ∃ (hi : e.index < a.directory.count)
        (new : Record f.layout),
        f.updateRecord a.directory.endOffset (Relayout.placement old r.target bytes.size i e)
          (if i = r.target then some n else none) (a.directory.record ⟨e.index, hi⟩) = .ok new ∧
        piece = (a.directory.recordOffset e.index, new.raw)) ∧
      ∀ i e, a.entries[i]? = some e → ∃ (hi : e.index < a.directory.count)
        (new : Record f.layout),
        f.updateRecord a.directory.endOffset (Relayout.placement old r.target bytes.size i e)
          (if i = r.target then some n else none) (a.directory.record ⟨e.index, hi⟩) = .ok new ∧
        (a.directory.recordOffset e.index, new.raw) ∈ pieces := by
  obtain ⟨pieces, hpieces, hlen, hrecords⟩ := updateRecords_eq_writeAll h
  simp only [Nat.zero_add] at hrecords
  refine ⟨pieces, hpieces, ?_, ?_⟩
  · intro piece hp
    obtain ⟨j, hj⟩ := List.mem_iff_getElem?.mp hp
    have hlt : j < (a.entries.zip r.placements).length := by
      rw [← hlen]; exact (List.getElem?_eq_some_iff.mp hj).1
    obtain ⟨⟨e, p⟩, hzip⟩ : ∃ ep, (a.entries.zip r.placements)[j]? = some ep :=
      ⟨_, List.getElem?_eq_getElem hlt⟩
    obtain ⟨he, hplace⟩ := List.getElem?_zip_eq_some.mp hzip
    dsimp only at he hplace
    obtain rfl := Option.some.inj ((hm.getElem?_placements he).symm.trans hplace)
    obtain ⟨hi, new, hnew, hsome⟩ := hrecords j e _ hzip
    exact ⟨j, e, he, hi, new, hnew, Option.some.inj (hj.symm.trans hsome)⟩
  · intro i e he
    obtain ⟨hi, new, hnew, hsome⟩ :=
      hrecords i e _ (List.getElem?_zip_eq_some.mpr ⟨he, hm.getElem?_placements he⟩)
    exact ⟨hi, new, hnew, List.mem_of_getElem? hsome⟩

/-- A replacement that cannot write the records cannot rewrite that of some entry. -/
theorem exists_failing_record (ha : a.IsOpen) {name : String} {out : Bytes} {size n : Nat}
    {r : Relayout} {old : Entry} {err : Error} (hm : r.Moves a.entries name size old)
    (h : a.updateRecords r.target n 0 (a.entries.zip r.placements) out = .error err) :
    ∃ i e, a.entries[i]? = some e ∧ ∃ hi : e.index < a.directory.count,
      f.updateRecord a.directory.endOffset (Relayout.placement old r.target size i e)
        (if i = r.target then some n else none) (a.directory.record ⟨e.index, hi⟩) = .error err := by
  obtain ⟨i, e, p, hzip, hi, herr⟩ := exists_of_updateRecords_eq_error
    (fun ep hep => ha.index_lt (List.of_mem_zip hep).1) h
  obtain ⟨he, hp⟩ := List.getElem?_zip_eq_some.mp hzip
  dsimp only at he hp
  obtain rfl := Option.some.inj ((hm.getElem?_placements he).symm.trans hp)
  rw [Nat.zero_add] at herr
  exact ⟨i, e, he, hi, herr⟩

/-- `b` may be any archive in the bytes that are written, so this can be used to open them. -/
theorem rebuilt_of_updateRecords (ha : a.IsOpen) {name : String} {bytes : Bytes} {n : Nat}
    {r : Relayout} (hr : Relayout.ofReplacement a.entries name bytes.size = .ok r)
    (hout : a.updateRecords r.target n 0 (a.entries.zip r.placements)
      (r.assemble a.data a.directory.endOffset a.entries bytes) = .ok b.data) :
    ∃ old, Rebuilt a b name bytes n r old := by
  obtain ⟨old, hm⟩ := Relayout.moves_of_ofReplacement hr
  obtain ⟨pieces, hpieces, hpiece, hrecord⟩ := exists_pieces hm hout
  have hsize := Relayout.Moves.size_assemble r a.entries bytes ha.directoryEnd_le
  refine ⟨old, ?_⟩
  constructor
  case relayout_eq => exact hr
  case moves => exact hm
  case size_eq => rw [hpieces, Bytes.size_writeAll, hsize]
  case outside =>
    intro p hp
    rw [hpieces, Bytes.getElem?_writeAll_of_not_covers]
    rintro piece hmem ⟨hle, hlt⟩
    obtain ⟨i, e, he, hi, new, -, rfl⟩ := hpiece piece hmem
    have hend := ha.recordOffset_add_size_le hi
    dsimp only at hle hlt
    rw [new.size_raw] at hlt
    rw [ha.recordOffset_eq] at hle hlt hend
    omega
  case rewritten =>
    intro i e he
    obtain ⟨hi, new, hnew, hwritten⟩ := hrecord i e he
    refine ⟨hi, new, hnew, ?_⟩
    intro k hk
    have hend := ha.recordOffset_add_size_le hi
    rw [hpieces]
    apply Bytes.getElem?_writeAll_of_covers
    · rw [hsize]; omega
    · -- Only the piece of this entry covers its record.
      rintro piece hmem ⟨hle, hlt⟩
      obtain ⟨j, d, hd, hj, other, hother, rfl⟩ := hpiece piece hmem
      dsimp only at hle hlt ⊢
      rw [other.size_raw] at hlt
      have hindex := index_eq_of_recordOffset_le ha hk hle hlt
      obtain rfl := eq_of_index_eq ha he hd hindex
      obtain rfl := Option.some.inj (he.symm.trans hd)
      obtain rfl := Except.ok.inj (hnew.symm.trans hother)
      rw [Nat.add_sub_cancel_left]
    · refine ⟨_, hwritten, Nat.le_add_right _ _, ?_⟩
      rw [new.size_raw]
      omega

/-- The bytes that are written hold the directory, whichever entries it then lists. -/
theorem rebuilt_inBytes (ha : a.IsOpen) {name : String} {bytes out : Bytes} {n : Nat} {r : Relayout}
    (hr : Relayout.ofReplacement a.entries name bytes.size = .ok r)
    (hout : a.updateRecords r.target n 0 (a.entries.zip r.placements)
      (r.assemble a.data a.directory.endOffset a.entries bytes) = .ok out) :
    ∃ hfits : a.directory.endOffset ≤ out.size, ∀ entries,
      ∃ old, Rebuilt a ⟨a.directory.inBytes out hfits, entries⟩ name bytes n r old := by
  obtain ⟨pieces, hpieces, -⟩ := updateRecords_eq_writeAll hout
  have hsize := Relayout.Moves.size_assemble r a.entries bytes ha.directoryEnd_le
  have hfits : a.directory.endOffset ≤ out.size := by
    rw [hpieces, Bytes.size_writeAll, hsize]
    exact Nat.le_max_right _ _
  exact ⟨hfits, fun entries => rebuilt_of_updateRecords ha hr hout⟩

theorem rebuilt_of_replace (ha : a.IsOpen) {name : String} {bytes : Bytes} {n : Nat}
    (h : a.replace name bytes n = .ok b) :
    b.IsOpen ∧ ofBytes f b.data = .ok b ∧ ∃ r old, Rebuilt a b name bytes n r old := by
  obtain ⟨r, hr, h⟩ := bind_eq_ok.mp h
  obtain ⟨out, hout, hopen⟩ := bind_eq_ok.mp h
  obtain ⟨hb, rfl⟩ := isOpen_of_ofBytes hopen
  obtain ⟨old, hab⟩ := rebuilt_of_updateRecords ha hr hout
  exact ⟨hb, hopen, r, old, hab⟩

namespace Rebuilt

variable {name : String} {bytes : Bytes} {n i p : Nat} {r : Relayout} {old e e' : Entry}

theorem position_eq (hab : Rebuilt a b name bytes n r old) : a.position name = r.target :=
  hab.moves.target_eq.symm

theorem find_eq (hab : Rebuilt a b name bytes n r old) : a.find name = .ok old := by
  rw [find_eq_ok_iff, hab.position_eq]
  exact hab.moves.old_at

/-- A payload that starts behind the header leaves the count as it is. -/
theorem readCount_eq (hab : Rebuilt a b name bytes n r old) (ha : a.IsOpen)
    (hold : f.headerSize ≤ old.offset) : f.readCount b.data = .ok a.directory.count := by
  have hhead := ha.headerSize_le
  have hsize := hab.size_eq
  rw [← ha.readCount_eq]
  apply f.readCount_congr (by omega) (Nat.le_trans hhead ha.directoryEnd_le)
  intro p hp
  rw [hab.outside p (Or.inl hp),
    hab.moves.getElem?_assemble_of_lt ha.endOffset_le ha.directoryEnd_le (by omega)]
  unfold Relayout.headLength
  dsimp only
  omega

theorem count_eq (hab : Rebuilt a b name bytes n r old) (ha : a.IsOpen) (hb : b.IsOpen)
    (hold : f.headerSize ≤ old.offset) : b.directory.count = a.directory.count :=
  Except.ok.inj (hb.readCount_eq.symm.trans (hab.readCount_eq ha hold))

/-- Inside the directory only the fields that say where payloads lie are written. -/
theorem getElem?_directory (hab : Rebuilt a b name bytes n r old) (ha : a.IsOpen)
    (hle : f.headerSize ≤ p) (hlt : p < a.directory.endOffset)
    (hp : ∀ i < a.directory.count, ∀ g ∈ f.placing.fields,
      ¬ (a.directory.recordOffset i + g.offset ≤ p ∧ p < a.directory.recordOffset i + g.endOffset)) :
    b.data[p]? = a.data[p]? := by
  obtain ⟨i, e, x, he, hx, rfl⟩ := exists_record_at ha hle hlt
  obtain ⟨hi, new, hnew, hbytes⟩ := hab.rewritten i e he
  rw [hbytes x hx, FlatFormat.getElem?_of_updateRecord hnew]
  · exact a.directory.getElem?_record ⟨e.index, hi⟩ hx
  · intro g hg hhas
    obtain ⟨hlo, hhi⟩ := hhas
    exact hp e.index hi g hg ⟨by omega, by omega⟩

/-- The records of the new directory are the old ones, rewritten. -/
theorem exists_record (hab : Rebuilt a b name bytes n r old)
    (hoffset : b.directory.entriesOffset = a.directory.entriesOffset)
    (hcount : b.directory.count = a.directory.count) (he : a.entries[i]? = some e) :
    ∃ (hi : e.index < a.directory.count) (hi' : e.index < b.directory.count),
      f.updateRecord a.directory.endOffset (Relayout.placement old r.target bytes.size i e)
        (if i = r.target then some n else none) (a.directory.record ⟨e.index, hi⟩) =
        .ok (b.directory.record ⟨e.index, hi'⟩) := by
  obtain ⟨hi, new, hnew, hbytes⟩ := hab.rewritten i e he
  have hi' : e.index < b.directory.count := by omega
  have hfit := b.directory.recordOffset_add_size_le ⟨e.index, hi'⟩
  have hoff : b.directory.recordOffset e.index = a.directory.recordOffset e.index := by
    rw [Table.recordOffset, Table.recordOffset, hoffset]
  have hraw : (b.directory.record ⟨e.index, hi'⟩).raw = new.raw := by
    show b.data.extract (b.directory.recordOffset e.index)
      (b.directory.recordOffset e.index + f.layout.size) = new.raw
    rw [← new.size_raw]
    apply Bytes.extract_eq_of_getElem?
    · rw [new.size_raw]
      exact hfit
    · intro p hle hlt
      rw [new.size_raw] at hlt
      rw [← hbytes (p - b.directory.recordOffset e.index) (by omega)]
      congr 1
      omega
  have hrecord : b.directory.record ⟨e.index, hi'⟩ = new := Record.ext hraw
  exact ⟨hi, hi', by rw [hrecord]; exact hnew⟩

section Count

variable (hab : Rebuilt a b name bytes n r old) (ha : a.IsOpen) (hb : b.IsOpen)
  (hcount : b.directory.count = a.directory.count)

include ha hb hcount

theorem directoryEnd_eq : b.directory.endOffset = a.directory.endOffset := by
  rw [ha.directoryEnd_eq, hb.directoryEnd_eq, hcount]

theorem length_eq : b.entries.length = a.entries.length := by
  rw [ha.length_entries, hb.length_entries, hcount]

theorem exists_old_entry (he' : e' ∈ b.entries) :
    ∃ (i : Nat) (e : Entry), a.entries[i]? = some e ∧ e'.index = e.index := by
  obtain ⟨i, e, he, hindex⟩ := ha.exists_entry_of_lt (k := e'.index) (by
    rw [← hcount]; exact hb.index_lt he')
  exact ⟨i, e, he, hindex.symm⟩

theorem exists_new_entry (he : a.entries[i]? = some e) : ∃ e' ∈ b.entries, e'.index = e.index := by
  obtain ⟨j, e', he', hindex⟩ := hb.exists_entry_of_lt (k := e.index) (by
    rw [hcount]; exact ha.index_lt (List.mem_of_getElem? he))
  exact ⟨e', List.mem_of_getElem? he', hindex⟩

theorem exists_getElem?_new (he : a.entries[i]? = some e) : ∃ e', b.entries[i]? = some e' := by
  have hlt := (List.getElem?_eq_some_iff.mp he).1
  exact ⟨_, List.getElem?_eq_getElem (by rw [length_eq ha hb hcount]; exact hlt)⟩

include hab

theorem updateRecord_eq (he : a.entries[i]? = some e) :
    ∃ (hi : e.index < a.directory.count) (hi' : e.index < b.directory.count),
      f.updateRecord a.directory.endOffset (Relayout.placement old r.target bytes.size i e)
        (if i = r.target then some n else none) (a.directory.record ⟨e.index, hi⟩) =
        .ok (b.directory.record ⟨e.index, hi'⟩) := by
  have hoffset : b.directory.entriesOffset = a.directory.entriesOffset :=
    hb.entriesOffset_eq.trans ha.entriesOffset_eq.symm
  exact hab.exists_record hoffset hcount he

theorem name_eq (he : a.entries[i]? = some e) (he' : e' ∈ b.entries) (hindex : e'.index = e.index) :
    e'.name = e.name := by
  obtain ⟨hi, hi', hupdate⟩ := hab.updateRecord_eq ha hb hcount he
  have hd := ha.describes (List.mem_of_getElem? he)
  have hd' := hb.describes he'
  simp only [hindex] at hd'
  rw [hd'.name_eq, hd.name_eq, FlatFormat.string_of_updateRecord hupdate]

theorem names_eq (hindex : ∀ {i : Nat} {e e' : Entry}, a.entries[i]? = some e →
    b.entries[i]? = some e' → e'.index = e.index) :
    b.entries.map (·.name) = a.entries.map (·.name) := by
  have hlen := length_eq ha hb hcount
  apply List.ext_getElem (by simpa using hlen)
  intro i hi hi'
  rw [List.length_map] at hi hi'
  rw [List.getElem_map, List.getElem_map]
  have he := List.getElem?_eq_getElem hi'
  have he' := List.getElem?_eq_getElem hi
  exact hab.name_eq ha hb hcount he (List.getElem_mem hi) (hindex he he')

/-- An entry of the new archive lies where its record, rewritten, places it. -/
theorem placed_eq (he : a.entries[i]? = some e) (he' : e' ∈ b.entries)
    (hindex : e'.index = e.index) :
    match f.placing with
    | .explicit _ _ _ =>
      e'.offset = (Relayout.placement old r.target bytes.size i e).offset ∧
        e'.size = (Relayout.placement old r.target bytes.size i e).size
    | .ends _ => e'.endOffset = a.directory.endOffset +
        ((Relayout.placement old r.target bytes.size i e).endOffset - a.directory.endOffset)
    | .starts _ => e'.offset = (Relayout.placement old r.target bytes.size i e).offset := by
  obtain ⟨hi, hi', hupdate⟩ := hab.updateRecord_eq ha hb hcount he
  have hd := hb.describes he'
  simp only [hindex, directoryEnd_eq ha hb hcount] at hd
  exact hd.placed_of_updateRecord hupdate

theorem explicit_eq {offset size : Field} {decompressed : Option Field}
    (hf : f.placing = .explicit offset size decompressed) (he : a.entries[i]? = some e)
    (he' : e' ∈ b.entries) (hindex : e'.index = e.index) :
    e'.offset = (Relayout.placement old r.target bytes.size i e).offset ∧
      e'.size = (Relayout.placement old r.target bytes.size i e).size := by
  have hplaced := hab.placed_eq ha hb hcount he he' hindex
  rwa [hf] at hplaced

theorem decompressedSize_eq {offset size decompressed : Field}
    (hf : f.placing = .explicit offset size (some decompressed)) (he : a.entries[i]? = some e)
    (he' : e' ∈ b.entries) (hindex : e'.index = e.index) :
    e'.decompressedSize = if i = r.target then n else e.decompressedSize := by
  obtain ⟨hi, hi', hupdate⟩ := hab.updateRecord_eq ha hb hcount he
  have hstated := (ha.describes (List.mem_of_getElem? he)).decompressed
  have hstated' := (hb.describes he').decompressed
  simp only [hindex, hf] at hstated hstated'
  rw [hstated', hstated, FlatFormat.decompressed_of_updateRecord hf hupdate]
  split <;> rfl

theorem offset_eq {field : Field} (hf : f.placing = .starts field) (he : a.entries[i]? = some e)
    (he' : e' ∈ b.entries) (hindex : e'.index = e.index) :
    e'.offset = (Relayout.placement old r.target bytes.size i e).offset := by
  have hplaced := hab.placed_eq ha hb hcount he he' hindex
  rwa [hf] at hplaced

theorem endOffset_eq {field : Field} (hf : f.placing = .ends field) (he : a.entries[i]? = some e)
    (he' : e' ∈ b.entries) (hindex : e'.index = e.index)
    (hbehind : a.directory.endOffset ≤ (Relayout.placement old r.target bytes.size i e).endOffset) :
    e'.endOffset = (Relayout.placement old r.target bytes.size i e).endOffset := by
  have hplaced := hab.placed_eq ha hb hcount he he' hindex
  rw [hf] at hplaced
  dsimp only at hplaced
  omega

section Starts

variable {field : Field} (hf : f.placing = .starts field)

include hf

theorem endOffset_eq_of_succ {d : Entry} (he : a.entries[i]? = some e)
    (hd : a.entries[i + 1]? = some d) (he' : b.entries[i]? = some e') :
    e'.endOffset = (Relayout.placement old r.target bytes.size i e).endOffset := by
  obtain ⟨start, ht⟩ := (ha.tiles_of_starts hf).1
  obtain ⟨start', ht'⟩ := (hb.tiles_of_starts hf).1
  obtain ⟨d', hd'⟩ := exists_getElem?_new ha hb hcount hd
  have hindex : d'.index = d.index := by
    rw [hb.index_eq (by simp [hf]) hd', ha.index_eq (by simp [hf]) hd]
  rw [← hab.moves.placement_succ ht he hd,
    ← hab.offset_eq ha hb hcount hf hd (List.mem_of_getElem? hd') hindex, ht'.succ he' hd']

/-- The last payload reaches to the end of the buffer, which holds at least the directory. -/
theorem endOffset_eq_of_last (he : a.entries[i]? = some e) (hlast : a.entries.length = i + 1)
    (he' : b.entries[i]? = some e') :
    e'.endOffset = max (Relayout.placement old r.target bytes.size i e).endOffset
      a.directory.endOffset := by
  obtain ⟨start, ht⟩ := (ha.tiles_of_starts hf).1
  have hlen := length_eq ha hb hcount
  have hsize : e'.endOffset = b.data.size := by
    apply (hb.tiles_of_starts hf).2
    rw [List.getLast?_eq_getElem?, hlen, hlast]
    exact he'
  have htotal : r.totalLength = (Relayout.placement old r.target bytes.size i e).endOffset := by
    apply Nat.le_antisymm
    · apply Relayout.totalLength_le
      intro p hp
      obtain ⟨j, d, hd, rfl⟩ := hab.moves.exists_of_mem_placements hp
      have hjlt := (List.getElem?_eq_some_iff.mp hd).1
      rcases Nat.lt_or_eq_of_le (show j ≤ i by omega) with hji | rfl
      · exact Nat.le_trans (hab.moves.endOffset_le_offset ht hd he hji) (Nat.le_add_right _ _)
      · obtain rfl := Option.some.inj (hd.symm.trans he)
        exact Nat.le_refl _
    · exact Relayout.endOffset_le_totalLength (hab.moves.mem_placements he)
  rw [hsize, hab.size_eq, htotal]

end Starts
end Count

/-- Behind the directory the picture stands wherever a payload was placed. -/
theorem read_eq_payload (hab : Rebuilt a b name bytes n r old) (ha : a.IsOpen) (hb : b.IsOpen)
    (he : a.entries[i]? = some e) (he' : e' ∈ b.entries)
    (hoffset : e'.offset = (Relayout.placement old r.target bytes.size i e).offset)
    (hsize : e'.size = (Relayout.placement old r.target bytes.size i e).size)
    (hbehind : a.directory.endOffset ≤ (Relayout.placement old r.target bytes.size i e).offset) :
    e'.read b.data = .ok (Relayout.payload a.data r.target bytes i e) := by
  have hfit := hb.endOffset_le e' he'
  have hlen := hab.moves.size_payload ha.endOffset_le he
  have hend : e'.endOffset =
      e'.offset + (Relayout.payload a.data r.target bytes i e).size := by
    rw [Entry.endOffset, hsize, hlen]
  rw [Entry.read_of_le hfit, hend]
  apply congrArg
  apply Bytes.extract_eq_of_getElem? (by omega)
  intro p hle hlt
  rw [hoffset] at hle hlt ⊢
  rw [hab.outside p (Or.inr (by omega)), hab.moves.getElem?_assemble_eq_payload
    ha.directoryEnd_le ha.endOffset_le he hle (by unfold Placement.endOffset; omega)]

end Rebuilt
end GameArchive.FlatArchive
