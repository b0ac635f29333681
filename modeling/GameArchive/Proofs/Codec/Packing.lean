import GameArchive.Proofs.Codec.Lzs
import Mathlib.Algebra.BigOperators.Group.Finset.Basic
import Mathlib.Algebra.Order.BigOperators.Group.Finset
/-!
# What packing costs

A YKCMP stream of literals has one opcode for every 127 bytes of data, the last of which may stand
before fewer. In an LZS stream only the flag takes a second byte, and as the flag is a byte value
that occurs least often among all 256, it is at most every 256th byte of the data. So both packers
take all data for which the header can state these sizes.
-/
namespace GameArchive.Codec

theorem sizeField_of_lt {size : Nat} (h : size < sizeLimit) : sizeField size = .ok size :=
  if_pos h

namespace Ykcmp

theorem length_encode_literals (data : List UInt8) :
    ((literals data).flatMap Instruction.encode).length =
      data.length + (data.length + 126) / 127 := by
  induction data using literals.induct with
  | case1 => rw [literals]; rfl
  | case2 b rest ih =>
    have hpos : 0 < (b :: rest).length := Nat.succ_pos _
    have hhead : (Instruction.literal ((b :: rest).take literalLimit)).encode.length =
        min literalLimit (b :: rest).length + 1 := by
      rw [Instruction.encode, List.length_cons, List.length_take]
    rw [literals, List.flatMap_cons, List.length_append, ih, hhead, List.length_drop]
    unfold literalLimit
    omega

/-- Data are packed into a stream that states its own length and theirs, and unpacks to them. -/
theorem exists_packed_of_size_lt {data : Bytes}
    (h : 20 + data.size + (data.size + 126) / 127 < 0x100000000) :
    ∃ packed, compress data = .ok packed ∧ isYkcmp packed = true ∧
      packed.size = 20 + data.size + (data.size + 126) / 127 ∧
      Header.parse packed 0 = .ok ⟨packed.size, data.size⟩ ∧ decompress packed = .ok data := by
  let body := (literals data.toList).flatMap Instruction.encode
  have hbody : headerSize + body.length = 20 + data.size + (data.size + 126) / 127 := by
    rw [length_encode_literals, Array.length_toList, headerSize, Nat.add_assoc]
  have hpacked : headerSize + body.length < sizeLimit := hbody ▸ h
  have hunpacked : data.size < sizeLimit := by unfold sizeLimit; omega
  let header := Header.mk (headerSize + body.length) data.size
  have hcompress : compress data = .ok (header.toBytes ++ body).toArray := by
    rw [compress, sizeField_of_lt hpacked, sizeField_of_lt hunpacked]
    rfl
  have hsize : (header.toBytes ++ body).toArray.size = headerSize + body.length := by
    rw [List.size_toArray, List.length_append, Header.length_toBytes]
  obtain ⟨hstart, hback⟩ := decompress_of_compress hcompress
  refine ⟨_, hcompress, hstart, hsize.trans hbody, ?_, hback⟩
  rw [hsize]
  exact Header.parse_toBytes body rfl (Nat.le_add_right _ _) hpacked hunpacked

/-- More bytes than one literal can hold. -/
def fullAndRest : Bytes := Array.replicate 128 7

theorem exists_packed_of_size_lt_fullAndRest :
    20 + fullAndRest.size + (fullAndRest.size + 126) / 127 < 0x100000000 ∧
    ∃ packed, compress fullAndRest = .ok packed ∧ isYkcmp packed = true ∧ packed.size = 150 ∧
      Header.parse packed 0 = .ok ⟨150, 128⟩ ∧ decompress packed = .ok fullAndRest := by
  have hsize : fullAndRest.size = 128 := Array.size_replicate
  have hlt : 20 + fullAndRest.size + (fullAndRest.size + 126) / 127 < 0x100000000 := by
    rw [hsize]
    decide
  obtain ⟨packed, hcompress, hstart, hlength, hheader, hback⟩ := exists_packed_of_size_lt hlt
  rw [hsize] at hlength
  rw [hlength, hsize] at hheader
  exact ⟨hlt, packed, hcompress, hstart, hlength, hheader, hback⟩

end Ykcmp

namespace Lzs

/-- The search for the least count ends at a value with that count. -/
theorem foldl_least (count : UInt8 → Nat) {values : List UInt8} {best least : UInt8 × Nat}
    (hbest : best.2 = count best.1)
    (h : values.foldl (fun best b => if count b < best.2 then (b, count b) else best) best = least) :
    least.2 = count least.1 ∧ least.2 ≤ best.2 ∧ ∀ b ∈ values, least.2 ≤ count b := by
  induction values generalizing best with
  | nil => exact h ▸ ⟨hbest, Nat.le_refl _, fun b hb => absurd hb List.not_mem_nil⟩
  | cons v rest ih =>
    rw [List.foldl_cons] at h
    split at h
    case isTrue hlt =>
      obtain ⟨hcount, hle, hrest⟩ := ih rfl h
      exact ⟨hcount, Nat.le_trans hle (Nat.le_of_lt hlt), List.forall_mem_cons.mpr ⟨hle, hrest⟩⟩
    case isFalse hge =>
      obtain ⟨hcount, hle, hrest⟩ := ih hbest h
      have hv : least.2 ≤ count v := Nat.le_trans hle (Nat.le_of_not_lt hge)
      exact ⟨hcount, hle, List.forall_mem_cons.mpr ⟨hv, hrest⟩⟩

theorem mem_byteValues (b : UInt8) : b ∈ byteValues :=
  List.mem_map.mpr ⟨b.toNat, List.mem_range.mpr b.toNat_lt, UInt8.ofNat_toNat⟩

theorem nodup_byteValues : byteValues.Nodup := by
  apply List.nodup_range.map_on
  intro m hm n hn heq
  rw [List.mem_range] at hm hn
  have hmod := congrArg UInt8.toNat heq
  rwa [UInt8.toNat_ofNat', UInt8.toNat_ofNat', Nat.mod_eq_of_lt hm, Nat.mod_eq_of_lt hn] at hmod

theorem count_leastFrequent_le (data : List UInt8) (b : UInt8) :
    data.count (leastFrequent data) ≤ data.count b := by
  unfold leastFrequent
  generalize hleast : byteValues.foldl _ _ = least
  obtain ⟨hcount, -, hle⟩ := foldl_least (fun b => data.count b) rfl hleast
  rw [← hcount]
  exact hle b (mem_byteValues b)

/-- The counts of all byte values add up to the number of bytes, and none is less than that of the
flag. -/
theorem count_leastFrequent_mul_le (data : List UInt8) :
    256 * data.count (leastFrequent data) ≤ data.length := by
  have hcard : byteValues.toFinset.card = 256 := by
    rw [List.toFinset_card_of_nodup nodup_byteValues, byteValues, List.length_map, List.length_range]
  have hsum := Multiset.sum_count_eq_card (s := byteValues.toFinset) (m := (data : Multiset UInt8))
    fun b _ => List.mem_toFinset.mpr (mem_byteValues b)
  simp only [Multiset.coe_count, Multiset.coe_card] at hsum
  rw [← hcard, ← hsum]
  exact Finset.card_nsmul_le_sum _ _ _ fun b _ => count_leastFrequent_le data b

theorem length_encode_literals (flag : UInt8) (data : List UInt8) :
    (data.flatMap fun b => (Token.literal b).encode flag).length =
      data.length + data.count flag := by
  induction data with
  | nil => rfl
  | cons b rest ih =>
    have hhead : ((Token.literal b).encode flag).length = 1 + if b == flag then 1 else 0 := by
      rw [Token.encode]
      by_cases hb : b = flag <;> simp [hb]
    rw [List.flatMap_cons, List.length_append, ih, hhead, List.length_cons, List.count_cons]
    omega

/-- Data are packed for an extension that four bytes can hold. The stream states its own length,
unpacks to the data, and is longer than these by the header and at most every 256th byte. -/
theorem exists_packed_of_extension {data : Bytes} {extension : String} {code : List UInt8}
    (hsize : 12 + 2 * data.size < 0x100000000) (hcode : Text.ShiftJis.encode? extension = some code)
    (hfit : code.length ≤ 4) :
    ∃ packed, compress data extension = .ok packed ∧ decompress packed = .ok data ∧
      (∃ header, Header.parse packed 0 = .ok header ∧
        header.compressedSize + 4 = packed.size) ∧
      packed.size ≤ 16 + data.size + data.size / 256 := by
  let flag := leastFrequent data.toList
  let body := data.toList.flatMap fun b => (Token.literal b).encode flag
  let field := code ++ List.replicate (sizeOrigin - code.length) 0
  have hescapes : 256 * data.toList.count flag ≤ data.size := count_leastFrequent_mul_le data.toList
  have hbody : body.length = data.size + data.toList.count flag := length_encode_literals _ _
  have hpacked : headerSize - sizeOrigin + body.length < sizeLimit := by
    unfold headerSize sizeOrigin sizeLimit
    omega
  have hunpacked : data.size < sizeLimit := by
    unfold sizeLimit
    omega
  have hfield : Text.FixedText.encode extension sizeOrigin = .ok field := by
    rw [Text.FixedText.encode, hcode]
    exact if_pos hfit
  let header := Header.mk field.toArray data.size (headerSize - sizeOrigin + body.length) flag
  have hcompress : compress data extension = .ok (header.toBytes ++ body).toArray := by
    rw [compress, sizeField_of_lt hunpacked, sizeField_of_lt hpacked, hfield]
    rfl
  have hext : header.extension.size = 4 := Text.FixedText.length_of_encode hfield
  have hlength : (header.toBytes ++ body).toArray.size = headerSize + body.length := by
    rw [List.size_toArray, List.length_append, Header.length_toBytes hext]
  refine ⟨_, hcompress, decompress_of_compress hcompress, ⟨header, ?_, ?_⟩, ?_⟩
  · exact Header.parse_toBytes body rfl hext (Nat.le_add_right _ _) hpacked hunpacked
  · rw [hlength]
    simp only [header, headerSize, sizeOrigin]
    omega
  · rw [hlength, hbody, headerSize]
    omega

/-- Every byte value, so that the flag needs an escape, and one of them twice. -/
def everyByte : Bytes := (byteValues ++ [0]).toArray

theorem exists_packed_of_extension_everyByte :
    12 + 2 * everyByte.size < 0x100000000 ∧
    Text.ShiftJis.encode? "tx2" = some [0x74, 0x78, 0x32] ∧
    ∃ packed, compress everyByte "tx2" = .ok packed ∧ decompress packed = .ok everyByte ∧
      (∃ header, Header.parse packed 0 = .ok header ∧ header.compressedSize + 4 = packed.size) ∧
      packed.size ≤ 274 := by
  have hlength : everyByte.size = 257 := by
    rw [everyByte, List.size_toArray, List.length_append, byteValues, List.length_map,
      List.length_range, List.length_singleton]
  have hsize : 12 + 2 * everyByte.size < 0x100000000 := by
    rw [hlength]
    decide
  have hcode : Text.ShiftJis.encode? "tx2" = some [0x74, 0x78, 0x32] := by decide +kernel
  obtain ⟨packed, hcompress, hback, hheader, hle⟩ :=
    exists_packed_of_extension hsize hcode (by decide)
  rw [hlength] at hle
  exact ⟨hsize, hcode, packed, hcompress, hback, hheader, hle⟩

end Lzs
end GameArchive.Codec
