import GameArchive.Codec.Ykcmp
import GameArchive.Proofs.Bytes
/-!
# YKCMP streams of literals

A literal instruction appends its bytes, so literals that spell some data build it up from
nothing, and a stream of them unpacks to what was packed.
-/
namespace GameArchive.Codec

theorem sizeField_eq_ok {n size : Nat} (h : sizeField size = .ok n) :
    n = size ∧ size < numberBound 4 := by
  unfold sizeField at h
  split at h
  case isTrue hlt => exact ⟨(Except.ok.inj h).symm, hlt⟩
  case isFalse => cases h

namespace Ykcmp

@[simp]
theorem Header.length_toBytes (h : Header) : h.toBytes.length = headerSize := by
  simp [Header.toBytes, magic, headerSize]

/-- A header is read back from a buffer that starts with it. -/
theorem Header.parse_toBytes {h : Header} {data : Bytes} (rest : List UInt8)
    (hdata : data.toList = h.toBytes ++ rest) (hmin : headerSize ≤ h.compressedSize)
    (hpacked : h.compressedSize < numberBound 4) (hunpacked : h.decompressedSize < numberBound 4) :
    Header.parse data 0 = .ok h := by
  have hmagic : data.expectMagic 0 magic = .ok () := by
    apply Bytes.expectMagic_of_append [] (toLittleEndian 4 reservedValue ++
      toLittleEndian 4 h.compressedSize ++ toLittleEndian 4 h.decompressedSize ++ rest) ?_ rfl
    simp only [hdata, toBytes, List.append_assoc, List.nil_append]
  have hreserved : data.word 8 4 = .ok reservedValue := by
    apply Bytes.word_of_append magic (toLittleEndian 4 h.compressedSize ++
      toLittleEndian 4 h.decompressedSize ++ rest) ?_ rfl (by decide)
    simp only [hdata, toBytes, List.append_assoc]
  have hcompressed : data.word 12 4 = .ok h.compressedSize := by
    apply Bytes.word_of_append (magic ++ toLittleEndian 4 reservedValue)
      (toLittleEndian 4 h.decompressedSize ++ rest) ?_ rfl hpacked
    simp only [hdata, toBytes, List.append_assoc]
  have hdecompressed : data.word 16 4 = .ok h.decompressedSize := by
    apply Bytes.word_of_append (magic ++ toLittleEndian 4 reservedValue ++
      toLittleEndian 4 h.compressedSize) rest ?_ rfl hunpacked
    simp only [hdata, toBytes]
  have hge : ¬ h.compressedSize < headerSize := by omega
  unfold Header.parse
  simp [hmagic, hreserved, hcompressed, hdecompressed, hge, bind, Except.bind]

/-- Unpacking a buffer that starts with a header and as much input as it states is running the
input. -/
theorem decompress_of_header {h : Header} {data : Bytes} {body : List UInt8} (rest : List UInt8)
    (hdata : data.toList = h.toBytes ++ body ++ rest)
    (hsize : h.compressedSize = headerSize + body.length)
    (hpacked : h.compressedSize < numberBound 4) (hunpacked : h.decompressedSize < numberBound 4) :
    decompress data = (run h.decompressedSize (headerSize + body.length) #[] body).map
      (·.padTo h.decompressedSize) := by
  have hheader : Header.parse data 0 = .ok h := by
    refine Header.parse_toBytes (body ++ rest) ?_ ?_ hpacked hunpacked
    · rw [hdata, List.append_assoc]
    · omega
  have hinput : data.slice headerSize (h.compressedSize - headerSize) = .ok body.toArray := by
    apply Bytes.slice_of_append _ _ hdata h.length_toBytes.symm
    omega
  rw [decompress, decompressAt, hheader]
  simp only [bind, Except.bind, Nat.zero_add, hinput, List.size_toArray]
  cases run h.decompressedSize (headerSize + body.length) #[] body <;> rfl

variable {limit inputEnd : Nat} {out : Bytes}

/-- One literal instruction appends its bytes. -/
theorem run_literal {bytes rest : List UInt8} (hpos : 0 < bytes.length)
    (hmax : bytes.length ≤ literalLimit) (hfit : out.size + bytes.length ≤ limit) :
    run limit inputEnd out ((Instruction.literal bytes).encode ++ rest) =
      run limit inputEnd (out ++ bytes.toArray) rest := by
  unfold literalLimit at hmax
  have hcode : (UInt8.ofNat bytes.length).toNat = bytes.length := by
    rw [UInt8.toNat_ofNat']
    exact Nat.mod_eq_of_lt (by omega)
  have hne : UInt8.ofNat bytes.length ≠ 0 := by
    intro hzero
    rw [hzero] at hcode
    simp at hcode
    omega
  have hlt : UInt8.ofNat bytes.length < 0x80 := by
    rw [UInt8.lt_iff_toNat_lt, hcode]
    exact Nat.lt_succ_of_le hmax
  have hcount : Instruction.operandCount (UInt8.ofNat bytes.length) = bytes.length := by
    rw [Instruction.operandCount, if_neg hne, if_pos hlt, hcode]
  have hinstruction : Instruction.ofOperands (UInt8.ofNat bytes.length) bytes = .literal bytes := by
    simp only [Instruction.ofOperands, if_neg hne, if_pos hlt]
  have happend : append limit out bytes.toArray = .ok (out ++ bytes.toArray) := by
    have hroom : ¬ limit < out.size + bytes.toArray.size := by
      simp only [List.size_toArray]
      omega
    rw [append, if_neg hroom]
  rw [Instruction.encode, List.cons_append, run]
  simp only [hcount, List.take_left, List.drop_left, Nat.lt_irrefl, if_false, hinstruction,
    Instruction.execute, happend]

/-- Literals append the data that they spell. -/
theorem run_literals {data : List UInt8} (hfit : out.size + data.length ≤ limit) :
    run limit inputEnd out ((literals data).flatMap Instruction.encode) =
      .ok (out ++ data.toArray) := by
  induction data using literals.induct generalizing out with
  | case1 => simp [literals, run]
  | case2 b rest ih =>
    have hlen : ((b :: rest).take literalLimit).length ≤ literalLimit := List.length_take_le _ _
    have hpos : 0 < ((b :: rest).take literalLimit).length := by simp [literalLimit]
    have hsplit := List.take_append_drop literalLimit (b :: rest)
    have hsum := congrArg List.length hsplit
    rw [List.length_append] at hsum
    have hjoin : ((b :: rest).take literalLimit).toArray ++ ((b :: rest).drop literalLimit).toArray =
        (b :: rest).toArray := by
      rw [List.append_toArray, hsplit]
    rw [literals, List.flatMap_cons, run_literal hpos hlen (by omega), ih]
    · rw [Array.append_assoc, hjoin]
    · simp only [Array.size_append, List.size_toArray]
      omega

/-- What is packed starts like a stream and unpacks to the data. -/
theorem decompress_of_compress {data packed : Bytes} (h : compress data = .ok packed) :
    isYkcmp packed = true ∧ decompress packed = .ok data := by
  obtain ⟨compressedSize, hcompressed, h⟩ := bind_eq_ok.mp h
  obtain ⟨decompressedSize, hdecompressed, h⟩ := bind_eq_ok.mp h
  obtain ⟨rfl, hpacked⟩ := sizeField_eq_ok hcompressed
  obtain ⟨rfl, hunpacked⟩ := sizeField_eq_ok hdecompressed
  obtain rfl := Except.ok.inj h
  constructor
  · simp [isYkcmp, Header.toBytes, List.append_assoc]
  · rw [decompress_of_header [] (by rw [List.append_nil]) rfl hpacked hunpacked,
      run_literals (by simp), Except.map, Array.toArray_toList]
    apply congrArg
    rw [Bytes.padTo_of_le (by simp)]
    simp

end Ykcmp
end GameArchive.Codec
