import GameArchive.Archive.Flat
import GameArchive.Proofs.Regions
import Mathlib.Logic.ExistsUnique
/-!
# Tables inside a buffer

One check when a table is opened covers every record that is read later: where the counts state
records that fit, the records lie one after another and fill the table without a gap, and otherwise
there is no table. A table that stands in the payload of an entry does not reach beyond it.
-/
namespace GameArchive

namespace Bytes

variable {data part bytes : Bytes} {offset length position width : Nat} {err : Error}

/-- A slice of a slice is a slice of the whole. -/
theorem slice_slice (hpart : data.slice offset length = .ok part)
    (hbytes : part.slice position width = .ok bytes) :
    position + width ≤ length ∧ data.slice (offset + position) width = .ok bytes := by
  obtain ⟨hfit, rfl⟩ := slice_eq_ok.mp hpart
  obtain ⟨hfit', rfl⟩ := slice_eq_ok.mp hbytes
  rw [Array.size_extract] at hfit'
  refine ⟨by omega, slice_eq_ok.mpr ⟨by omega, ?_⟩⟩
  rw [Array.extract_extract, Nat.min_eq_left (by omega), Nat.add_assoc]

theorem word_eq_error (h : data.word offset width = .error err) :
    data.size < offset + width ∧ err = .outOfBounds offset width data.size := by
  rcases Nat.lt_or_ge data.size (offset + width) with hlt | hfit
  · rw [word, slice_of_lt hlt] at h
    exact ⟨hlt, (Except.error.inj h).symm⟩
  · obtain ⟨n, hn⟩ := exists_word hfit
    cases hn.symm.trans h

end Bytes

namespace Counting

variable {c : Counting} {data : Bytes} {offset capacity count : Nat}

/-- The counts that stand in front of `count` records. -/
def toBytes : Counting → (count : Nat) → List UInt8
  | single, count => toLittleEndian 4 count
  | double, count => toLittleEndian 4 count ++ toLittleEndian 4 count

/-- Whether the counts at `offset` state `count` records. -/
def States (c : Counting) (data : Bytes) (offset count : Nat) : Prop :=
  count < numberBound 4 ∧ data.HoldsAt offset (c.toBytes count)

/-- Whether a capacity and another count stand at `offset`. -/
def Disagree (c : Counting) (data : Bytes) (offset capacity count : Nat) : Prop :=
  c = double ∧ capacity ≠ count ∧ capacity < numberBound 4 ∧ count < numberBound 4 ∧
    data.HoldsAt offset (toLittleEndian 4 capacity ++ toLittleEndian 4 count)

theorem holdsAt_two_iff {m n : Nat} (hm : m < numberBound 4) (hn : n < numberBound 4) :
    data.HoldsAt offset (toLittleEndian 4 m ++ toLittleEndian 4 n) ↔
      data.word offset 4 = .ok m ∧ data.word (offset + 4) 4 = .ok n := by
  rw [Bytes.holdsAt_append, length_toLittleEndian, Bytes.word_eq_ok_iff, Bytes.word_eq_ok_iff]
  exact ⟨fun ⟨h, h'⟩ => ⟨⟨hm, h⟩, hn, h'⟩, fun ⟨h, h'⟩ => ⟨h.2, h'.2⟩⟩

theorem Disagree.words (h : c.Disagree data offset capacity count) :
    data.word offset 4 = .ok capacity ∧ data.word (offset + 4) 4 = .ok count :=
  (holdsAt_two_iff h.2.2.1 h.2.2.2.1).mp h.2.2.2.2

end Counting

namespace Table

variable {l : Layout} {data : Bytes} {offset headerLength count n : Nat} {c : Counting}
  {err : Error} {t : Table l}

theorem readCount_eq_ok_iff : readCount l data offset c = .ok n ↔ c.States data offset n := by
  cases c with
  | single => exact Bytes.word_eq_ok_iff
  | double =>
    constructor
    · intro h
      obtain ⟨capacity, hcapacity, h⟩ := bind_eq_ok.mp h
      obtain ⟨count, hcount, h⟩ := bind_eq_ok.mp h
      split at h
      case isTrue heq =>
        cases h
        subst heq
        have hlt := Bytes.lt_of_word hcapacity
        exact ⟨hlt, (Counting.holdsAt_two_iff hlt hlt).mpr ⟨hcapacity, hcount⟩⟩
      case isFalse => cases h
    · intro h
      obtain ⟨hlt, h⟩ := h
      obtain ⟨hcapacity, hcount⟩ := (Counting.holdsAt_two_iff hlt hlt).mp h
      exact bind_eq_ok.mpr ⟨n, hcapacity, bind_eq_ok.mpr ⟨n, hcount, if_pos rfl⟩⟩

/-- Counts give no number when two that can be read disagree, or when they do not fit. -/
theorem readCount_eq_error (h : readCount l data offset c = .error err) :
    (∃ capacity count, c.Disagree data offset capacity count ∧
      err = .sizeMismatch (l.name ++ " table capacity") capacity count) ∨
    ((∀ capacity count, ¬ c.Disagree data offset capacity count) ∧
      ∃ start length, err = .outOfBounds start length data.size) := by
  cases c with
  | single => exact Or.inr ⟨fun _ _ hd => (nomatch hd.1), _, _, (Bytes.word_eq_error h).2⟩
  | double =>
    rcases bind_eq_error.mp h with hcapacity | ⟨capacity, hcapacity, h⟩
    · refine Or.inr ⟨fun _ _ hd => ?_, _, _, (Bytes.word_eq_error hcapacity).2⟩
      cases hd.words.1.symm.trans hcapacity
    · rcases bind_eq_error.mp h with hcount | ⟨count, hcount, h⟩
      · refine Or.inr ⟨fun _ _ hd => ?_, _, _, (Bytes.word_eq_error hcount).2⟩
        cases hd.words.2.symm.trans hcount
      · split at h
        case isTrue => cases h
        case isFalse hne =>
          cases h
          have hlt := Bytes.lt_of_word hcapacity
          have hlt' := Bytes.lt_of_word hcount
          refine Or.inl ⟨capacity, count, ⟨rfl, hne, hlt, hlt', ?_⟩, rfl⟩
          exact (Counting.holdsAt_two_iff hlt hlt').mpr ⟨hcapacity, hcount⟩

/-- No buffer is so large that records could fit into it whose length is no word. -/
theorem build_cases (l : Layout) (offset headerLength count : Nat) (hdata : data.size < wordLimit) :
    (∃ hfits : offset + headerLength + count * l.size ≤ data.size,
      build l data offset headerLength count = .ok ⟨data, offset, headerLength, count, hfits⟩) ∨
    (data.size < offset + headerLength + count * l.size ∧ ∃ start length,
      build l data offset headerLength count = .error (.outOfBounds start length data.size)) := by
  unfold build
  split
  case isTrue hlong => exact Or.inr ⟨by omega, _, _, rfl⟩
  case isFalse =>
    split
    case isTrue hfits => exact Or.inl ⟨hfits, rfl⟩
    case isFalse hlong => exact Or.inr ⟨Nat.lt_of_not_le hlong, _, _, rfl⟩

theorem exists_build_iff (hdata : data.size < wordLimit) :
    (∃ t, build l data offset headerLength count = .ok t) ↔
      offset + headerLength + count * l.size ≤ data.size := by
  rcases build_cases l offset headerLength count hdata with
    ⟨hfits, hok⟩ | ⟨hlong, start, length, herr⟩
  · exact ⟨fun _ => hfits, fun _ => ⟨_, hok⟩⟩
  · refine ⟨fun ⟨t, ht⟩ => ?_, fun hfits => absurd hfits (Nat.not_le.mpr hlong)⟩
    cases ht.symm.trans herr

/-- Whether position `p` belongs to record `i` of a table. -/
def Covers (t : Table l) (i p : Nat) : Prop :=
  t.recordOffset i ≤ p ∧ p < t.recordOffset i + l.size

/-- Whether the records of `t` are the `count` records that stand in `data` from `start` on. -/
structure IsAt (t : Table l) (data : Bytes) (start count : Nat) : Prop where
  count_eq : t.count = count
  entriesOffset_eq : t.entriesOffset = start
  endOffset_eq : t.endOffset = start + count * l.size
  recordOffset_eq : ∀ i, t.recordOffset i = start + i * l.size
  get_of_lt : ∀ i < count, ∃ r, t.get i = .ok r ∧ data.slice (t.recordOffset i) l.size = .ok r.raw
  get_of_le : ∀ i, count ≤ i → t.get i = .error (.outOfBounds i 1 count)
  /-- Every position of the table belongs to one record, and no other position to any. -/
  tiled : ∀ p, t.entriesOffset ≤ p ∧ p < t.endOffset ↔ ∃! i, i < count ∧ t.Covers i p

theorem existsUnique_covers_iff (t : Table l) (p : Nat) :
    t.entriesOffset ≤ p ∧ p < t.endOffset ↔ ∃! i, i < t.count ∧ t.Covers i p := by
  unfold Covers recordOffset endOffset
  constructor
  · intro h
    obtain ⟨hle, hlt⟩ := h
    have hbefore : p - t.entriesOffset < t.count * l.size := by omega
    have hsize : 0 < l.size := Nat.pos_of_mul_pos_left (Nat.zero_lt_of_lt hbefore)
    have hfloor := Nat.div_mul_le_self (p - t.entriesOffset) l.size
    have hceil := Nat.lt_div_mul_add (a := p - t.entriesOffset) hsize
    refine ⟨(p - t.entriesOffset) / l.size,
      ⟨Nat.div_lt_of_lt_mul (Nat.mul_comm _ _ ▸ hbefore), by omega, by omega⟩, ?_⟩
    intro j hcovers
    obtain ⟨-, hj, hj'⟩ := hcovers
    refine (Nat.div_eq_of_lt_le (by omega) ?_).symm
    rw [Nat.succ_mul]
    omega
  · intro h
    obtain ⟨i, ⟨hi, hcovers, hcovers'⟩, -⟩ := h
    have hlast : (i + 1) * l.size ≤ t.count * l.size := Nat.mul_le_mul_right _ hi
    rw [Nat.succ_mul] at hlast
    omega

theorem isAt (t : Table l) : t.IsAt t.data t.entriesOffset t.count where
  count_eq := rfl
  entriesOffset_eq := rfl
  endOffset_eq := rfl
  recordOffset_eq _ := rfl
  get_of_lt i hi :=
    ⟨t.record ⟨i, hi⟩, dif_pos hi, Bytes.slice_of_le (t.recordOffset_add_size_le ⟨i, hi⟩)⟩
  get_of_le _ hi := dif_neg (Nat.not_lt.mpr hi)
  tiled := t.existsUnique_covers_iff

theorem isAt_of_build (h : build l data offset headerLength count = .ok t) :
    t.IsAt data (offset + headerLength) count := by
  unfold build at h
  split at h
  case isTrue => cases h
  case isFalse =>
    split at h
    case isTrue => cases h; exact isAt _
    case isFalse => cases h

theorem isOutOfBounds_of_build (hdata : data.size < wordLimit)
    (h : build l data offset headerLength count = .error err) :
    ∃ start length, err = .outOfBounds start length data.size := by
  rcases build_cases l offset headerLength count hdata with
    ⟨hfits, hok⟩ | ⟨-, start, length, herr⟩
  · cases hok.symm.trans h
  · exact ⟨start, length, Except.error.inj (h.symm.trans herr)⟩

theorem exists_parse_iff (hdata : data.size < wordLimit) :
    (∃ t, parse l data offset c = .ok t) ↔
      ∃ count, c.States data offset count ∧ offset + c.length + count * l.size ≤ data.size := by
  constructor
  · intro hopens
    obtain ⟨t, h⟩ := hopens
    obtain ⟨count, hcount, h⟩ := bind_eq_ok.mp h
    exact ⟨count, readCount_eq_ok_iff.mp hcount, (exists_build_iff hdata).mp ⟨t, h⟩⟩
  · intro h
    obtain ⟨count, hstates, hfits⟩ := h
    obtain ⟨t, ht⟩ := (exists_build_iff hdata).mpr hfits
    exact ⟨t, bind_eq_ok.mpr ⟨count, readCount_eq_ok_iff.mpr hstates, ht⟩⟩

theorem isAt_of_parse (h : parse l data offset c = .ok t) :
    ∃ count, c.States data offset count ∧ t.IsAt data (offset + c.length) count := by
  obtain ⟨count, hcount, h⟩ := bind_eq_ok.mp h
  exact ⟨count, readCount_eq_ok_iff.mp hcount, isAt_of_build h⟩

theorem parse_eq_error (hdata : data.size < wordLimit) (h : parse l data offset c = .error err) :
    (∃ capacity count, c.Disagree data offset capacity count ∧
      err = .sizeMismatch (l.name ++ " table capacity") capacity count) ∨
    ((∀ capacity count, ¬ c.Disagree data offset capacity count) ∧
      ∃ start length, err = .outOfBounds start length data.size) := by
  rcases bind_eq_error.mp h with hcount | ⟨count, hcount, h⟩
  · exact readCount_eq_error hcount
  · refine Or.inr ⟨?_, isOutOfBounds_of_build hdata h⟩
    intro capacity found hd
    obtain ⟨rfl, hne, -⟩ := id hd
    obtain ⟨hcapacity, hfound⟩ := hd.words
    obtain ⟨hlt, hbytes⟩ := readCount_eq_ok_iff.mp hcount
    obtain ⟨hcapacity', hfound'⟩ := (Counting.holdsAt_two_iff hlt hlt).mp hbytes
    apply hne
    rw [Except.ok.inj (hcapacity.symm.trans hcapacity'), Except.ok.inj (hfound.symm.trans hfound')]

end Table

/-- The records of a table that stands in a payload lie inside the payload. -/
theorem FlatArchive.record_in_payload {f : FlatFormat} {a : FlatArchive f} {name : String}
    {l : Layout} {t : Table l} (h : a.table name l = .ok t) :
    ∃ e, a.find name = .ok e ∧ e.endOffset ≤ a.data.size ∧ ∀ i r, t.get i = .ok r →
      t.recordOffset i + l.size ≤ e.size ∧
        a.data.slice (e.offset + t.recordOffset i) l.size = .ok r.raw := by
  obtain ⟨e, he, h⟩ := bind_eq_ok.mp h
  obtain ⟨payload, hpayload, h⟩ := bind_eq_ok.mp h
  refine ⟨e, he, (Bytes.slice_eq_ok.mp hpayload).1, fun i r hr => ?_⟩
  obtain ⟨count, -, hat⟩ := Table.isAt_of_parse h
  rcases Nat.lt_or_ge i count with hi | hi
  · obtain ⟨r', hr', hslice⟩ := hat.get_of_lt i hi
    obtain rfl := Except.ok.inj (hr'.symm.trans hr)
    exact Bytes.slice_slice hpayload hslice
  · cases (hat.get_of_le i hi).symm.trans hr

/-- A table is opened exactly when its counts can be read and agree and its records fit, and then
each of its records can be read where it stands. Tables in a START.DAT archive do not reach beyond
the payload that they stand in. -/
theorem Table.opens_iff_records_fit (l : Layout) {data : Bytes} (hdata : data.size < wordLimit)
    (offset : Nat) :
    (∀ count,
      ((∃ t, ofCount l data offset count = .ok t) ↔ offset + count * l.size ≤ data.size) ∧
      (∀ t, ofCount l data offset count = .ok t → t.IsAt data offset count) ∧
      ∀ err, ofCount l data offset count = .error err →
        ∃ start length, err = .outOfBounds start length data.size) ∧
    (∀ c : Counting,
      ((∃ t, parse l data offset c = .ok t) ↔
        ∃ count, c.States data offset count ∧
          offset + c.length + count * l.size ≤ data.size) ∧
      (∀ t, parse l data offset c = .ok t →
        ∃ count, c.States data offset count ∧ t.IsAt data (offset + c.length) count) ∧
      ∀ err, parse l data offset c = .error err →
        (∃ capacity count, c.Disagree data offset capacity count ∧
          err = .sizeMismatch (l.name ++ " table capacity") capacity count) ∨
        ((∀ capacity count, ¬ c.Disagree data offset capacity count) ∧
          ∃ start length, err = .outOfBounds start length data.size)) ∧
    ∀ (variant : StartDatVariant) (a : FlatArchive (.startDat variant)) (name : String)
      (t : Table l), a.table name l = .ok t →
      ∃ e, a.find name = .ok e ∧ e.endOffset ≤ a.data.size ∧ ∀ i r, t.get i = .ok r →
        t.recordOffset i + l.size ≤ e.size ∧
          a.data.slice (e.offset + t.recordOffset i) l.size = .ok r.raw := by
  refine ⟨fun count => ⟨?_, ?_, ?_⟩, fun c => ⟨exists_parse_iff hdata, ?_, ?_⟩, ?_⟩
  · exact exists_build_iff hdata
  · exact fun t ht => isAt_of_build ht
  · exact fun err herr => isOutOfBounds_of_build hdata herr
  · exact fun t ht => isAt_of_parse ht
  · exact fun err herr => parse_eq_error hdata herr
  · exact fun variant a name t ht => FlatArchive.record_in_payload ht

/-- A layout of two words. -/
def pair : Layout :=
  ⟨"pair", 4, [⟨"first", 0, .u16⟩, ⟨"second", 2, .u16⟩]⟩

/-- A table of two pairs behind some other bytes. -/
def countedPairs : Bytes :=
  #[0xEE, 0xEE, 0xEE, 2, 0, 0, 0, 2, 0, 0, 0, 1, 0, 2, 0, 3, 0, 4, 0]

/-- An archive of one payload, which is such a table. -/
def archivedPairs : Bytes :=
  #[1, 0, 0, 0, 0x24, 0, 0, 0, 0x70] ++ Bytes.zeros 27 ++ countedPairs.extract 3 19

/-- From the right place the two pairs are read. One word further on, the counts disagree, and the
length of too many records is no word. -/
theorem Table.opens_iff_records_fit_countedPairs :
    countedPairs.size < wordLimit ∧
    (∃ t, parse pair countedPairs 3 .double = .ok t ∧ t.IsAt countedPairs 11 2) ∧
    parse pair countedPairs 7 .double = .error (.sizeMismatch "pair table capacity" 2 0x20001) ∧
    (∃ start length, ofCount pair countedPairs 0 0x4000000000000000 =
      .error (.outOfBounds start length countedPairs.size)) ∧
    ∃ (a : FlatArchive (.startDat .offsetOnly)) (t : Table pair) (e : Entry),
      FlatArchive.ofBytes (.startDat .offsetOnly) archivedPairs = .ok a ∧
      a.table "p" pair = .ok t ∧ a.find "p" = .ok e ∧ t.recordOffset 1 + 4 ≤ e.size := by
  have hsize : countedPairs.size < wordLimit := by decide
  refine ⟨hsize, ?_, by cbv, ?_, ?_⟩
  · obtain ⟨hopens, hat, -⟩ := (opens_iff_records_fit pair hsize 3).2.1 .double
    have hcount : readCount pair countedPairs 3 .double = .ok 2 := by cbv
    obtain ⟨t, ht⟩ := hopens.mpr ⟨2, readCount_eq_ok_iff.mp hcount, by decide⟩
    obtain ⟨count, hstates, hrecords⟩ := hat t ht
    obtain rfl := Except.ok.inj ((readCount_eq_ok_iff.mpr hstates).symm.trans hcount)
    exact ⟨t, ht, hrecords⟩
  · obtain ⟨hopens, -, hrefused⟩ :=
      (opens_iff_records_fit pair hsize 0).1 0x4000000000000000
    cases hparse : ofCount pair countedPairs 0 0x4000000000000000 with
    | ok t => exact absurd (hopens.mp ⟨t, hparse⟩) (by decide)
    | error err =>
      obtain ⟨start, length, rfl⟩ := hrefused err hparse
      exact ⟨start, length, rfl⟩
  · obtain ⟨a, ha, htable⟩ := exists_ok_of_any
      (x := FlatArchive.ofBytes (.startDat .offsetOnly) archivedPairs)
      (p := fun a => (a.table "p" pair).toOption.any (·.count == 2)) (by decide +kernel)
    obtain ⟨t, ht, hcount⟩ := exists_ok_of_any htable
    obtain ⟨e, he, -, hinside⟩ := (opens_iff_records_fit pair hsize 0).2.2 .offsetOnly a "p" t ht
    have hlt : 1 < t.count := by rw [beq_iff_eq.mp hcount]; decide
    exact ⟨a, t, e, ha, ht, he, (hinside 1 (t.record ⟨1, hlt⟩) (dif_pos hlt)).1⟩

end GameArchive
