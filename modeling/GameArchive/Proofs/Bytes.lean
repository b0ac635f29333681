import GameArchive.Bytes
/-!
# Slices and writes of a buffer

Pieces are written one after another, each over what is there. Where every piece that covers a
position has the same byte for it, that byte is what stands there in the end; a position that no
piece covers keeps its byte.
-/
namespace GameArchive

theorem bind_eq_ok {ε α β : Type} {x : Except ε α} {g : α → Except ε β} {b : β} :
    (x >>= g) = .ok b ↔ ∃ a, x = .ok a ∧ g a = .ok b := by
  cases x with
  | error e => simp [bind, Except.bind]
  | ok a => simp [bind, Except.bind]

theorem bind_eq_error {ε α β : Type} {x : Except ε α} {g : α → Except ε β} {e : ε} :
    (x >>= g) = .error e ↔ x = .error e ∨ ∃ a, x = .ok a ∧ g a = .error e := by
  cases x with
  | error e => simp [bind, Except.bind]
  | ok a => simp [bind, Except.bind]

theorem map_eq_ok {ε α β : Type} {x : Except ε α} {g : α → β} {b : β} :
    x.map g = .ok b ↔ ∃ a, x = .ok a ∧ g a = b := by
  cases x with
  | error e => simp [Except.map]
  | ok a => simp [Except.map]

theorem exists_ok_of_any {ε α : Type} {x : Except ε α} {p : α → Bool}
    (h : x.toOption.any p = true) : ∃ a, x = .ok a ∧ p a = true := by
  cases x with
  | error e => cases h
  | ok a => exact ⟨a, rfl, h⟩

theorem ofLittleEndian_lt (bytes : List UInt8) : ofLittleEndian bytes < numberBound bytes.length := by
  induction bytes with
  | nil => exact Nat.one_pos
  | cons b rest ih =>
    have hb := b.toNat_lt
    rw [ofLittleEndian, List.length_cons, numberBound]
    omega

theorem toLittleEndian_ofLittleEndian (bytes : List UInt8) :
    toLittleEndian bytes.length (ofLittleEndian bytes) = bytes := by
  induction bytes with
  | nil => rfl
  | cons b rest ih =>
    have hb := b.toNat_lt
    have hlow : UInt8.ofNat (b.toNat + 256 * ofLittleEndian rest) = b := by
      apply UInt8.toNat_inj.mp
      rw [UInt8.toNat_ofNat']
      omega
    have hhigh : (b.toNat + 256 * ofLittleEndian rest) / 256 = ofLittleEndian rest := by omega
    rw [List.length_cons, ofLittleEndian, toLittleEndian, hlow, hhigh, ih]

namespace Bytes

theorem slice_eq_ok {data : Bytes} {offset length : Nat} {bytes : Bytes} :
    data.slice offset length = .ok bytes ↔
      offset + length ≤ data.size ∧ bytes = data.extract offset (offset + length) := by
  unfold slice
  split
  case isTrue h => simp [h, eq_comm]
  case isFalse h => simp [h]

theorem slice_of_le {data : Bytes} {offset length : Nat} (h : offset + length ≤ data.size) :
    data.slice offset length = .ok (data.extract offset (offset + length)) :=
  slice_eq_ok.mpr ⟨h, rfl⟩

theorem slice_of_lt {data : Bytes} {offset length : Nat} (h : data.size < offset + length) :
    data.slice offset length = .error (.outOfBounds offset length data.size) :=
  if_neg (Nat.not_le.mpr h)

theorem slice_of_append {data : Bytes} {offset length : Nat} (pre post : List UInt8)
    {mid : List UInt8} (h : data.toList = pre ++ mid ++ post) (hoffset : offset = pre.length)
    (hlength : length = mid.length) : data.slice offset length = .ok mid.toArray := by
  subst hoffset hlength
  have hsize := congrArg List.length h
  simp only [Array.length_toList, List.length_append] at hsize
  rw [slice_of_le (by omega)]
  apply congrArg
  apply Array.ext'
  rw [Array.toList_extract, List.extract_eq_take_drop, h, List.append_assoc, List.drop_left,
    Nat.add_sub_cancel_left, List.take_left]

theorem word_of_append {data : Bytes} {offset width n : Nat} (pre post : List UInt8)
    (h : data.toList = pre ++ toLittleEndian width n ++ post) (hoffset : offset = pre.length)
    (hn : n < numberBound width) : data.word offset width = .ok n := by
  have hslice := slice_of_append pre post h hoffset (length_toLittleEndian width n).symm
  rw [word, hslice, Except.map, List.toList_toArray, ofLittleEndian_toLittleEndian,
    Nat.mod_eq_of_lt hn]

theorem expectMagic_of_append {data : Bytes} {offset : Nat} (pre post : List UInt8)
    {expected : List UInt8} (h : data.toList = pre ++ expected ++ post) (hoffset : offset = pre.length) :
    data.expectMagic offset expected = .ok () := by
  have hslice := slice_of_append pre post h hoffset rfl
  simp [expectMagic, hslice, bind, Except.bind]

/-- Two buffers that agree on a range, and both hold it, give the same slice. -/
theorem extract_congr {a b : Bytes} {start stop : Nat} (ha : stop ≤ a.size) (hb : stop ≤ b.size)
    (h : ∀ p, start ≤ p → p < stop → a[p]? = b[p]?) :
    a.extract start stop = b.extract start stop := by
  apply Array.ext_getElem?
  intro i
  rw [Array.getElem?_extract, Array.getElem?_extract, Nat.min_eq_left ha, Nat.min_eq_left hb]
  split
  case isTrue hi => exact h (start + i) (by omega) (by omega)
  case isFalse hi => rfl

/-- A slice is told by its bytes one by one. -/
theorem extract_eq_of_getElem? {data bytes : Bytes} {start : Nat}
    (hfit : start + bytes.size ≤ data.size)
    (h : ∀ p, start ≤ p → p < start + bytes.size → data[p]? = bytes[p - start]?) :
    data.extract start (start + bytes.size) = bytes := by
  apply Array.ext_getElem?
  intro i
  rw [Array.getElem?_extract, Nat.min_eq_left hfit]
  split
  case isTrue hi =>
    rw [h (start + i) (by omega) (by omega), Nat.add_sub_cancel_left]
  case isFalse hi => rw [Array.getElem?_eq_none (by omega)]

/-- Whether a piece, bytes to stand at an offset, covers a position. -/
def Covers (piece : Nat × Bytes) (p : Nat) : Prop :=
  piece.1 ≤ p ∧ p < piece.1 + piece.2.size

instance (piece : Nat × Bytes) (p : Nat) : Decidable (Covers piece p) :=
  inferInstanceAs (Decidable (_ ∧ _))

/-- `out` with pieces written over it in order. -/
def writeAll : List (Nat × Bytes) → (out : Bytes) → Bytes
  | [], out => out
  | piece :: rest, out => writeAll rest (out.overwrite piece.1 piece.2)

@[simp]
theorem size_writeAll (pieces : List (Nat × Bytes)) (out : Bytes) :
    (writeAll pieces out).size = out.size := by
  induction pieces generalizing out with
  | nil => rfl
  | cons piece rest ih => rw [writeAll, ih, size_overwrite]

theorem getElem?_overwrite_of_not_covers (piece : Nat × Bytes) {out : Bytes} {p : Nat}
    (h : ¬ Covers piece p) : (out.overwrite piece.1 piece.2)[p]? = out[p]? := by
  rw [getElem?_overwrite]
  unfold Covers at h
  by_cases hp : piece.1 ≤ p
  · have hsize : piece.2.size ≤ p - piece.1 := by omega
    simp [hp, Array.getD, Nat.not_lt.mpr hsize]
  · simp [hp]

theorem getElem?_overwrite_of_covers (piece : Nat × Bytes) {out : Bytes} {p : Nat}
    (h : Covers piece p) (hp : p < out.size) :
    (out.overwrite piece.1 piece.2)[p]? = piece.2[p - piece.1]? := by
  obtain ⟨hle, hlt⟩ := h
  have hi : p - piece.1 < piece.2.size := by omega
  rw [getElem?_overwrite, Array.getElem?_eq_getElem hp, Array.getElem?_eq_getElem hi]
  simp [hle, Array.getD, hi]

/-- A range written over itself changes nothing. -/
theorem overwrite_extract (data : Bytes) (start stop : Nat) :
    data.overwrite start (data.extract start stop) = data := by
  apply Array.ext_getElem?
  intro p
  by_cases hc : Covers (start, data.extract start stop) p
  · obtain ⟨hle, hlt⟩ := id hc
    rw [Array.size_extract] at hlt
    dsimp only at hle hlt
    rw [getElem?_overwrite_of_covers (start, _) hc (by omega), Array.getElem?_extract,
      if_pos (by omega), Nat.add_sub_cancel' hle]
  · exact getElem?_overwrite_of_not_covers (start, _) hc

theorem getElem?_writeAll_of_not_covers {pieces : List (Nat × Bytes)} {out : Bytes} {p : Nat}
    (h : ∀ piece ∈ pieces, ¬ Covers piece p) : (writeAll pieces out)[p]? = out[p]? := by
  induction pieces generalizing out with
  | nil => rfl
  | cons piece rest ih =>
    rw [writeAll, ih fun q hq => h q (List.mem_cons_of_mem _ hq),
      getElem?_overwrite_of_not_covers piece (h piece List.mem_cons_self)]

/-- The last piece that covers a position decides its byte, so it is the byte on which all pieces
that cover it agree. -/
theorem getElem?_writeAll_of_covers {pieces : List (Nat × Bytes)} {out : Bytes} {p : Nat}
    {v : Option UInt8} (hp : p < out.size)
    (hagree : ∀ piece ∈ pieces, Covers piece p → piece.2[p - piece.1]? = v)
    (hcovered : ∃ piece ∈ pieces, Covers piece p) : (writeAll pieces out)[p]? = v := by
  induction pieces generalizing out with
  | nil => obtain ⟨piece, hmem, _⟩ := hcovered; cases hmem
  | cons piece rest ih =>
    rw [writeAll]
    by_cases hrest : ∃ q ∈ rest, Covers q p
    · exact ih (by rwa [size_overwrite]) (fun q hq => hagree q (List.mem_cons_of_mem _ hq)) hrest
    · have hnone : ∀ q ∈ rest, ¬ Covers q p := fun q hq hc => hrest ⟨q, hq, hc⟩
      have hhead : Covers piece p := by
        obtain ⟨q, hq, hc⟩ := hcovered
        rcases List.mem_cons.mp hq with rfl | hq
        · exact hc
        · exact absurd hc (hnone q hq)
      rw [getElem?_writeAll_of_not_covers hnone, getElem?_overwrite_of_covers piece hhead hp]
      exact hagree piece List.mem_cons_self hhead

@[simp]
theorem size_padTo (data : Bytes) (length : Nat) :
    (data.padTo length).size = max data.size length := by
  simp only [padTo, zeros, Array.size_append, Array.size_replicate]
  omega

theorem getElem?_padTo_of_lt {data : Bytes} {length p : Nat} (h : p < data.size) :
    (data.padTo length)[p]? = data[p]? := by
  rw [padTo, Array.getElem?_append_left h]

theorem getElem?_padTo_of_le {data : Bytes} {length p : Nat} (h : data.size ≤ p) (hp : p < length) :
    (data.padTo length)[p]? = some 0 := by
  rw [padTo, Array.getElem?_append_right h, zeros, Array.getElem?_replicate, if_pos (by omega)]

theorem padTo_of_le {data : Bytes} {length : Nat} (h : length ≤ data.size) :
    data.padTo length = data := by
  rw [padTo, zeros, Nat.sub_eq_zero_of_le h]
  simp

theorem padTo_toArray (bytes : List UInt8) (length : Nat) :
    padTo bytes.toArray length = (bytes ++ List.replicate (length - bytes.length) 0).toArray := by
  rw [padTo, zeros, List.size_toArray, ← List.toArray_replicate, List.append_toArray]

end Bytes
end GameArchive
