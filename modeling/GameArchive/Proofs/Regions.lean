import GameArchive.Proofs.Record
/-!
# Regions of a buffer

What stands at a position of a buffer, told by its bytes. Reading bytes, a number or a table there
succeeds exactly when such bytes stand there, so that a reader can be compared with the layout of
what it reads.
-/
namespace GameArchive

/-- Whether `width` bytes can hold an integer in two's complement. -/
def IsSigned (width : Nat) (v : Int) : Prop :=
  -(numberBound width : Int) ≤ 2 * v ∧ 2 * v < numberBound width

instance (width : Nat) (v : Int) : Decidable (IsSigned width v) :=
  inferInstanceAs (Decidable (_ ∧ _))

section Signed

variable {width n : Nat} {v : Int}

theorem numberBound_pos (width : Nat) : 0 < numberBound width := by
  induction width with
  | zero => exact Nat.one_pos
  | succ width ih => exact Nat.mul_pos (by decide) ih

theorem isSigned_toSigned (h : n < numberBound width) : IsSigned width (toSigned width n) := by
  unfold IsSigned toSigned
  split <;> omega

theorem ofSigned_toSigned (h : n < numberBound width) : ofSigned width (toSigned width n) = n := by
  unfold ofSigned toSigned
  split
  · rw [Int.emod_eq_of_lt (Int.natCast_nonneg n) (by omega), Int.toNat_natCast]
  · rw [Int.sub_emod_right, Int.emod_eq_of_lt (Int.natCast_nonneg n) (by omega), Int.toNat_natCast]

theorem ofSigned_lt (v : Int) : ofSigned width v < numberBound width := by
  have hpos := numberBound_pos width
  have hlt := Int.emod_lt_of_pos v (Int.natCast_pos.mpr hpos)
  unfold ofSigned
  omega

theorem toSigned_ofSigned (h : IsSigned width v) : toSigned width (ofSigned width v) = v := by
  obtain ⟨hlow, hhigh⟩ := h
  have hpos := numberBound_pos width
  unfold toSigned ofSigned
  rcases Int.lt_or_le v 0 with hneg | hnonneg
  · have hmod : v % (numberBound width : Int) = v + numberBound width := by
      rw [← Int.add_emod_right, Int.emod_eq_of_lt (by omega) (by omega)]
    rw [hmod, Int.toNat_of_nonneg (by omega), if_neg (by omega)]
    omega
  · rw [Int.emod_eq_of_lt hnonneg (by omega), Int.toNat_of_nonneg hnonneg, if_pos (by omega)]

end Signed

namespace Bytes

variable {data : Bytes} {offset : Nat} {bytes a b : List UInt8}

/-- Whether `bytes` stand in `data` from `offset` on. -/
def HoldsAt (data : Bytes) (offset : Nat) (bytes : List UInt8) : Prop :=
  ∃ pre post, data.toList = pre ++ bytes ++ post ∧ offset = pre.length

theorem holdsAt_toArray (bytes : List UInt8) : HoldsAt bytes.toArray 0 bytes :=
  ⟨[], [], by simp, rfl⟩

theorem HoldsAt.fits (h : data.HoldsAt offset bytes) : offset + bytes.length ≤ data.size := by
  obtain ⟨pre, post, hdata, rfl⟩ := h
  have hsize := congrArg List.length hdata
  simp only [Array.length_toList, List.length_append] at hsize
  omega

theorem HoldsAt.slice_eq (h : data.HoldsAt offset bytes) {length : Nat}
    (hlength : length = bytes.length) : data.slice offset length = .ok bytes.toArray := by
  obtain ⟨pre, post, hdata, hoffset⟩ := h
  exact slice_of_append pre post hdata hoffset hlength

theorem HoldsAt.extract_eq (h : data.HoldsAt offset bytes) {stop : Nat}
    (hstop : stop = offset + bytes.length) : data.extract offset stop = bytes.toArray := by
  have hslice := h.slice_eq rfl
  rw [slice_eq_ok] at hslice
  rw [hstop, hslice.2]

theorem holdsAt_of_slice {length : Nat} {found : Bytes} (h : data.slice offset length = .ok found) :
    found.size = length ∧ data.HoldsAt offset found.toList := by
  obtain ⟨hfit, rfl⟩ := slice_eq_ok.mp h
  refine ⟨by rw [Array.size_extract]; omega, data.toList.take offset,
    data.toList.drop (offset + length), ?_, ?_⟩
  · have hmid : (data.extract offset (offset + length)).toList =
        (data.toList.drop offset).take length := by
      rw [Array.toList_extract, List.extract_eq_take_drop, Nat.add_sub_cancel_left]
    rw [hmid, List.append_assoc, ← List.drop_drop, List.take_append_drop, List.take_append_drop]
  · rw [List.length_take, Array.length_toList]
    omega

/-- Bytes of one length stand at a position at most once. -/
theorem HoldsAt.unique (ha : data.HoldsAt offset a) (hb : data.HoldsAt offset b)
    (hlength : a.length = b.length) : a = b := by
  have h := (ha.slice_eq rfl).symm.trans (hb.slice_eq hlength)
  simpa using h

theorem holdsAt_append :
    data.HoldsAt offset (a ++ b) ↔ data.HoldsAt offset a ∧ data.HoldsAt (offset + a.length) b := by
  constructor
  · rintro ⟨pre, post, hdata, rfl⟩
    refine ⟨⟨pre, b ++ post, ?_, rfl⟩, pre ++ a, post, ?_, ?_⟩
    · rw [hdata]; simp
    · rw [hdata]; simp
    · simp
  · rintro ⟨⟨pre, post, hdata, rfl⟩, pre', post', hdata', hoffset⟩
    -- Both split the buffer behind `a`.
    have hsplit : pre ++ a = pre' ∧ post = b ++ post' :=
      List.append_inj (by rw [← hdata, hdata', List.append_assoc]) (by simpa using hoffset)
    exact ⟨pre, post', by rw [hdata, hsplit.2]; simp, rfl⟩

theorem holdsAt_nil : data.HoldsAt offset [] ↔ offset ≤ data.size := by
  constructor
  · intro h
    exact h.fits
  · intro hle
    refine ⟨data.toList.take offset, data.toList.drop offset, ?_, ?_⟩
    · rw [List.append_nil, List.take_append_drop]
    · rw [List.length_take, Array.length_toList, Nat.min_eq_left hle]

theorem exists_holdsAt_iff {length : Nat} :
    (∃ bytes, bytes.length = length ∧ data.HoldsAt offset bytes) ↔ offset + length ≤ data.size := by
  constructor
  · rintro ⟨bytes, rfl, h⟩
    exact h.fits
  · intro hfit
    obtain ⟨hlength, h⟩ := holdsAt_of_slice (slice_of_le hfit)
    exact ⟨_, by rwa [Array.length_toList], h⟩

theorem word_eq_ok_iff {width n : Nat} : data.word offset width = .ok n ↔
    n < numberBound width ∧ data.HoldsAt offset (toLittleEndian width n) := by
  constructor
  · intro h
    obtain ⟨found, hslice, rfl⟩ := map_eq_ok.mp h
    obtain ⟨hlength, hfound⟩ := holdsAt_of_slice hslice
    rw [← Array.length_toList] at hlength
    subst hlength
    rw [toLittleEndian_ofLittleEndian]
    exact ⟨ofLittleEndian_lt _, hfound⟩
  · rintro ⟨hlt, pre, post, hdata, hoffset⟩
    exact word_of_append pre post hdata hoffset hlt

theorem fits_of_word {width n : Nat} (h : data.word offset width = .ok n) :
    offset + width ≤ data.size := by
  have hfits := (word_eq_ok_iff.mp h).2.fits
  rwa [length_toLittleEndian] at hfits

theorem lt_of_word {n : Nat} (h : data.word offset 4 = .ok n) : n < 0x100000000 :=
  (word_eq_ok_iff.mp h).1

theorem exists_word {width : Nat} (h : offset + width ≤ data.size) :
    ∃ n, data.word offset width = .ok n :=
  ⟨_, by rw [word, slice_of_le h]; rfl⟩

theorem signedWord_eq_ok_iff {width : Nat} {v : Int} : data.signedWord offset width = .ok v ↔
    IsSigned width v ∧ data.HoldsAt offset (toLittleEndian width (ofSigned width v)) := by
  rw [signedWord, map_eq_ok]
  constructor
  · rintro ⟨n, hn, rfl⟩
    obtain ⟨hlt, hbytes⟩ := word_eq_ok_iff.mp hn
    exact ⟨isSigned_toSigned hlt, by rwa [ofSigned_toSigned hlt]⟩
  · rintro ⟨hv, hbytes⟩
    exact ⟨_, word_eq_ok_iff.mpr ⟨ofSigned_lt v, hbytes⟩, toSigned_ofSigned hv⟩

theorem expectMagic_eq_ok_iff {expected : List UInt8} :
    data.expectMagic offset expected = .ok () ↔ data.HoldsAt offset expected := by
  constructor
  · intro h
    obtain ⟨found, hslice, h⟩ := bind_eq_ok.mp h
    split at h
    case isTrue heq => exact heq ▸ (holdsAt_of_slice hslice).2
    case isFalse => cases h
  · rintro ⟨pre, post, hdata, hoffset⟩
    exact expectMagic_of_append pre post hdata hoffset

/-- Pieces of one length stand one after another. -/
theorem HoldsAt.getElem_flatten {pieces : List (List UInt8)} {length i : Nat}
    (h : data.HoldsAt offset pieces.flatten) (hlength : ∀ piece ∈ pieces, piece.length = length)
    (hi : i < pieces.length) : data.HoldsAt (offset + i * length) pieces[i] := by
  induction pieces generalizing offset i with
  | nil => cases hi
  | cons piece rest ih =>
    obtain ⟨hpiece, hrest⟩ := holdsAt_append.mp h
    cases i with
    | zero => simpa using hpiece
    | succ i =>
      have hnext := ih hrest (fun q hq => hlength q (List.mem_cons_of_mem _ hq))
        (Nat.lt_of_succ_lt_succ hi)
      rw [hlength piece List.mem_cons_self, Nat.add_assoc, Nat.add_comm length,
        ← Nat.succ_mul] at hnext
      exact hnext

section Pieces

variable (pieces : List (List UInt8)) {i j : Nat}

/-- Where piece `i` starts when pieces stand one after another. -/
def startOf (i : Nat) : Nat :=
  (pieces.take i).flatten.length

theorem startOf_zero : startOf pieces 0 = 0 := by
  simp [startOf]

theorem startOf_succ (hi : i < pieces.length) :
    startOf pieces (i + 1) = startOf pieces i + pieces[i].length := by
  rw [startOf, startOf, List.take_succ_eq_append_getElem hi, List.flatten_append,
    List.length_append, List.flatten_singleton]

theorem startOf_mono (h : i ≤ j) : startOf pieces i ≤ startOf pieces j := by
  obtain ⟨rest, hrest⟩ := List.take_prefix_take_left (l := pieces) h
  rw [startOf, startOf, ← hrest, List.flatten_append, List.length_append]
  omega

theorem startOf_length : startOf pieces pieces.length = pieces.flatten.length := by
  rw [startOf, List.take_length]

theorem startOf_le (i : Nat) : startOf pieces i ≤ pieces.flatten.length := by
  have hsplit := congrArg (·.flatten.length) (List.take_append_drop i pieces)
  rw [List.flatten_append, List.length_append] at hsplit
  exact Nat.le.intro hsplit

variable {pieces}

theorem HoldsAt.piece (h : data.HoldsAt offset pieces.flatten) (hi : i < pieces.length) :
    data.HoldsAt (offset + startOf pieces i) pieces[i] := by
  rw [← List.take_append_drop i pieces, List.flatten_append] at h
  have hrest := (holdsAt_append.mp h).2
  rw [List.drop_eq_getElem_cons hi, List.flatten_cons] at hrest
  exact (holdsAt_append.mp hrest).1

end Pieces

end Bytes

namespace Record

variable {l : Layout}

/-- A field holds the bytes that stand at its place in the record. -/
theorem contents_of_holdsAt {r : Record l} {f : Field} {bytes : List UInt8}
    (h : r.raw.HoldsAt f.offset bytes) (hlength : bytes.length = f.kind.width) :
    r.contents f = bytes := by
  rw [contents, h.extract_eq (by rw [hlength]; rfl)]

/-- A field that holds the bytes of a number holds the number. -/
theorem number_of_holdsAt {r : Record l} {f : Field} {n : Nat}
    (h : r.raw.HoldsAt f.offset (toLittleEndian f.kind.width n))
    (hn : n < numberBound f.kind.width) : r.number f = n := by
  rw [number, contents_of_holdsAt h (length_toLittleEndian _ _), ofLittleEndian_toLittleEndian,
    Nat.mod_eq_of_lt hn]

theorem length_flatMap_raw (records : List (Record l)) :
    (records.flatMap fun r => r.raw.toList).length = records.length * l.size := by
  simp only [List.length_flatMap, Array.length_toList, size_raw, List.map_const',
    List.sum_replicate_nat]

end Record

/-- Records that stand where those of a table do are its records. -/
theorem Table.records_of_holdsAt {l : Layout} {t : Table l} {records : List (Record l)}
    (hcount : records.length = t.count)
    (h : t.data.HoldsAt t.entriesOffset (records.flatMap fun r => r.raw.toList)) :
    t.records = records := by
  apply List.ext_getElem
  · rw [Table.records, List.length_ofFn, hcount]
  · intro i hi hi'
    rw [List.flatMap_def] at h
    have hlengths : ∀ piece ∈ records.map fun r => r.raw.toList, piece.length = l.size := by
      intro piece hpiece
      obtain ⟨r, -, rfl⟩ := List.mem_map.mp hpiece
      rw [Array.length_toList, r.size_raw]
    have hrecord := h.getElem_flatten hlengths (by rw [List.length_map]; exact hi')
    rw [List.getElem_map] at hrecord
    apply Record.ext
    simp only [Table.records, List.getElem_ofFn]
    show t.data.extract (t.recordOffset i) (t.recordOffset i + l.size) = records[i].raw
    rw [Table.recordOffset, hrecord.extract_eq (by rw [Array.length_toList, records[i].size_raw]),
      Array.toArray_toList]

/-- Records that stand behind their count are read as a table. -/
theorem Table.exists_parse_single {l : Layout} {data : Bytes} {offset : Nat}
    {records : List (Record l)} (hcount : records.length < numberBound 4)
    (hsize : data.size < wordLimit) (h : data.HoldsAt offset
      (toLittleEndian 4 records.length ++ records.flatMap fun r => r.raw.toList)) :
    ∃ t : Table l, Table.parse l data offset .single = .ok t ∧ t.records = records ∧
      t.count = records.length ∧ t.endOffset = offset + 4 + records.length * l.size := by
  obtain ⟨hword, hrecords⟩ := Bytes.holdsAt_append.mp h
  rw [length_toLittleEndian] at hrecords
  have hfits := hrecords.fits
  rw [Record.length_flatMap_raw] at hfits
  refine ⟨⟨data, offset, 4, records.length, hfits⟩, ?_, Table.records_of_holdsAt rfl hrecords, rfl,
    rfl⟩
  refine bind_eq_ok.mpr ⟨_, Bytes.word_eq_ok_iff.mpr ⟨hcount, hword⟩, ?_⟩
  rw [Table.build, if_neg (by omega)]
  exact dif_pos hfits

end GameArchive
