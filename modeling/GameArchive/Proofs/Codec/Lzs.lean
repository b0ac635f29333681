import GameArchive.Codec.Lzs
import GameArchive.Proofs.Codec.Ykcmp
import GameArchive.Proofs.Text.FixedText
/-!
# LZS streams of literals

A literal token appends its byte whichever byte the flag is, so the tokens of some data build it
up from nothing, and a stream of them unpacks to what was packed.
-/
namespace GameArchive.Codec.Lzs

namespace Header

theorem length_toBytes {h : Header} (hext : h.extension.size = 4) :
    h.toBytes.length = headerSize := by
  simp [toBytes, headerSize, hext]

/-- A header is read back from a buffer that starts with it. -/
theorem parse_toBytes {h : Header} {data : Bytes} (rest : List UInt8)
    (hdata : data.toList = h.toBytes ++ rest) (hext : h.extension.size = 4)
    (hmin : headerSize - sizeOrigin ≤ h.compressedSize)
    (hpacked : h.compressedSize < numberBound 4) (hunpacked : h.decompressedSize < numberBound 4) :
    parse data 0 = .ok h := by
  have hlayout : data.toList = [] ++ h.extension.toList ++ (toLittleEndian 4 h.decompressedSize ++
      toLittleEndian 4 h.compressedSize ++ [h.flag, 0, 0, 0] ++ rest) := by
    simp only [hdata, toBytes, List.append_assoc, List.nil_append]
  have hextension : data.slice 0 4 = .ok h.extension := by
    have hslice : data.slice 0 4 = .ok h.extension.toList.toArray :=
      Bytes.slice_of_append [] _ hlayout rfl (by rw [Array.length_toList, hext])
    rwa [Array.toArray_toList] at hslice
  have hdecompressed : data.word 4 4 = .ok h.decompressedSize := by
    apply Bytes.word_of_append h.extension.toList
      (toLittleEndian 4 h.compressedSize ++ [h.flag, 0, 0, 0] ++ rest) ?_
      (by rw [Array.length_toList, hext]) hunpacked
    simp only [hdata, toBytes, List.append_assoc]
  have hcompressed : data.word 8 4 = .ok h.compressedSize := by
    apply Bytes.word_of_append (h.extension.toList ++ toLittleEndian 4 h.decompressedSize)
      ([h.flag, 0, 0, 0] ++ rest) ?_ (by simp [hext]) hpacked
    simp only [hdata, toBytes, List.append_assoc]
  have hflag : data.word 12 1 = .ok h.flag.toNat := by
    apply Bytes.word_of_append (h.extension.toList ++ toLittleEndian 4 h.decompressedSize ++
      toLittleEndian 4 h.compressedSize) ([0, 0, 0] ++ rest) ?_ (by simp [hext])
      h.flag.toNat_lt
    have hbyte : toLittleEndian 1 h.flag.toNat = [h.flag] := by simp [toLittleEndian]
    simp only [hdata, toBytes, hbyte, List.append_assoc, List.cons_append, List.nil_append]
  have hge : ¬ h.compressedSize < headerSize - sizeOrigin := by omega
  unfold parse
  simp [hextension, hdecompressed, hcompressed, hflag, hge, bind, Except.bind]

end Header

/-- Unpacking a buffer that starts with a header and as much input as it states is running the
input. -/
theorem decompress_of_header {h : Header} {data : Bytes} {body : List UInt8} (rest : List UInt8)
    (hdata : data.toList = h.toBytes ++ body ++ rest) (hext : h.extension.size = 4)
    (hsize : h.compressedSize = headerSize - sizeOrigin + body.length)
    (hpacked : h.compressedSize < numberBound 4) (hunpacked : h.decompressedSize < numberBound 4) :
    decompress data = (run h.flag h.decompressedSize (headerSize + body.length) #[] body).map
      (·.padTo h.decompressedSize) := by
  have hheader : Header.parse data 0 = .ok h := by
    refine Header.parse_toBytes (body ++ rest) ?_ hext ?_ hpacked hunpacked
    · rw [hdata, List.append_assoc]
    · omega
  have hend : sizeOrigin + h.compressedSize = headerSize + body.length := by
    rw [hsize]
    simp only [headerSize, sizeOrigin]
    omega
  have hinput : data.slice headerSize (headerSize + body.length - headerSize) = .ok body.toArray := by
    apply Bytes.slice_of_append _ _ hdata (Header.length_toBytes hext).symm
    omega
  rw [decompress, decompressAt, hheader]
  simp only [bind, Except.bind, Nat.zero_add, hend, hinput]
  cases run h.flag h.decompressedSize (headerSize + body.length) #[] body <;> rfl

variable {flag : UInt8} {limit inputEnd : Nat} {out : Bytes}

/-- One literal token appends its byte. -/
theorem run_literal {b : UInt8} {rest : List UInt8} (hfit : out.size < limit) :
    run flag limit inputEnd out ((Token.literal b).encode flag ++ rest) =
      run flag limit inputEnd (out.push b) rest := by
  have hroom : ¬ limit ≤ out.size := by omega
  by_cases hb : b = flag
  · subst hb
    rw [Token.encode, if_pos rfl, List.cons_append, run.eq_def]
    simp [hroom]
  · rw [Token.encode, if_neg hb, List.cons_append, run.eq_def]
    simp [hroom, hb]

/-- Literals append the data that they spell. -/
theorem run_literals {data : List UInt8} (hfit : out.size + data.length ≤ limit) :
    run flag limit inputEnd out (data.flatMap fun b => (Token.literal b).encode flag) =
      .ok (out ++ data.toArray) := by
  induction data generalizing out with
  | nil => simp [run]
  | cons b rest ih =>
    rw [List.length_cons] at hfit
    rw [List.flatMap_cons, run_literal (by omega), ih (by rw [Array.size_push]; omega)]
    simp

/-- What is packed unpacks to the data, whatever extension it was packed for. -/
theorem decompress_of_compress {data packed : Bytes} {extension : String}
    (h : compress data extension = .ok packed) : decompress packed = .ok data := by
  obtain ⟨decompressedSize, hdecompressed, h⟩ := bind_eq_ok.mp h
  obtain ⟨compressedSize, hcompressed, h⟩ := bind_eq_ok.mp h
  obtain ⟨field, hfield, h⟩ := bind_eq_ok.mp h
  obtain ⟨rfl, hunpacked⟩ := sizeField_eq_ok hdecompressed
  obtain ⟨rfl, hpacked⟩ := sizeField_eq_ok hcompressed
  obtain rfl := Except.ok.inj h
  have hlength := Text.FixedText.length_of_encode hfield
  rw [decompress_of_header [] (by rw [List.append_nil]) hlength rfl hpacked hunpacked,
    run_literals (by simp), Except.map]
  apply congrArg
  rw [Bytes.padTo_of_le (by simp)]
  simp

end GameArchive.Codec.Lzs
