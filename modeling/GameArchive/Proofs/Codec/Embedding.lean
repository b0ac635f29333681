import GameArchive.Codec.Ykcmp
import GameArchive.Proofs.Codec.Tokens
import GameArchive.Proofs.Regions
/-!
# Streams inside a buffer

A stream is read from its header up to the end that the header states and no further, and where it
stands matters only to how a failure is worded. So what it unpacks to does not depend on the bytes
before and behind it.
-/
namespace GameArchive

namespace Bytes

variable {s : Bytes} {position length : Nat} (p q : Bytes)

/-- What stands in a buffer stands in every buffer around it, that much further on. -/
theorem HoldsAt.embed {bytes : List UInt8} (h : s.HoldsAt position bytes) :
    (p ++ s ++ q).HoldsAt (p.size + position) bytes := by
  obtain ⟨pre, post, hs, rfl⟩ := h
  refine ⟨p.toList ++ pre, post ++ q.toList, ?_, ?_⟩
  · simp only [Array.toList_append, hs, List.append_assoc]
  · rw [List.length_append]
    rfl

theorem slice_embed (h : position + length ≤ s.size) :
    (p ++ s ++ q).slice (p.size + position) length = s.slice position length := by
  have hslice := slice_of_le h
  obtain ⟨hlength, hbytes⟩ := holdsAt_of_slice hslice
  rw [hslice, (hbytes.embed p q).slice_eq (by rw [Array.length_toList, hlength]),
    Array.toArray_toList]

theorem word_embed {width : Nat} (h : position + width ≤ s.size) :
    (p ++ s ++ q).word (p.size + position) width = s.word position width := by
  rw [word, slice_embed p q h, word]

theorem expectMagic_embed {expected : List UInt8} (h : position + expected.length ≤ s.size) :
    (p ++ s ++ q).expectMagic (p.size + position) expected = s.expectMagic position expected := by
  rw [expectMagic, slice_embed p q h, expectMagic]

end Bytes

namespace Codec

theorem toOption_map {α β : Type} (g : α → β) (x : Except Error α) :
    (x.map g).toOption = x.toOption.map g := by
  cases x <;> rfl

/-- Computations that agree but for how a failure is worded succeed with the same results. -/
theorem eq_ok_iff_of_toOption {α : Type} {x y : Except Error α} (h : x.toOption = y.toOption)
    {a : α} : x = .ok a ↔ y = .ok a := by
  cases x <;> cases y <;> simp_all [Except.toOption]

variable {data s : Bytes} {offset : Nat} (p q : Bytes)

namespace Ykcmp

variable {header : Header}

/-- A header that is read lies inside the buffer and states sizes that its words can hold. -/
theorem Header.bounds_of_parse (h : Header.parse data offset = .ok header) :
    offset + headerSize ≤ data.size ∧ headerSize ≤ header.compressedSize ∧
      header.compressedSize < 0x100000000 ∧ header.decompressedSize < 0x100000000 := by
  obtain ⟨-, -, h⟩ := bind_eq_ok.mp h
  obtain ⟨reserved, -, h⟩ := bind_eq_ok.mp h
  split at h
  case isTrue => cases h
  case isFalse =>
    obtain ⟨compressedSize, hpacked, h⟩ := bind_eq_ok.mp h
    split at h
    case isTrue => cases h
    case isFalse hmin =>
      obtain ⟨decompressedSize, hunpacked, h⟩ := bind_eq_ok.mp h
      obtain rfl := Except.ok.inj h
      exact ⟨Nat.add_assoc offset 0x10 4 ▸ Bytes.fits_of_word hunpacked, Nat.le_of_not_lt hmin,
        Bytes.lt_of_word hpacked, Bytes.lt_of_word hunpacked⟩

theorem Header.parse_embed (h : headerSize ≤ s.size) :
    Header.parse (p ++ s ++ q) p.size = Header.parse s 0 := by
  have hlength : 0 + magic.length ≤ s.size := Nat.le_trans (by decide) h
  have hmagic := Bytes.expectMagic_embed p q hlength
  unfold headerSize at h
  have hreserved := Bytes.word_embed p q (by omega : 0x08 + 4 ≤ s.size)
  have hpacked := Bytes.word_embed p q (by omega : 0x0C + 4 ≤ s.size)
  have hunpacked := Bytes.word_embed p q (by omega : 0x10 + 4 ≤ s.size)
  rw [Nat.add_zero] at hmagic
  simp only [Header.parse, hmagic, hreserved, hpacked, hunpacked, Nat.zero_add]

/-- Where the input ends matters only to how a failure is worded. -/
theorem toOption_run (limit inputEnd inputEnd' : Nat) (out : Bytes) (input : List UInt8) :
    (run limit inputEnd out input).toOption = (run limit inputEnd' out input).toOption := by
  fun_induction run limit inputEnd out input with
  | case1 out => rw [run]
  | case2 out opcode rest count operands hcut =>
    rw [run, if_pos hcut]
    rfl
  | case3 out opcode rest count operands hwhole e hexecute =>
    rw [run, if_neg hwhole, hexecute]
  | case4 out opcode rest count operands hwhole out' hexecute ih =>
    rw [run, if_neg hwhole, hexecute]
    exact ih

theorem decompressAt_of_slice {input : Bytes} (hheader : Header.parse data offset = .ok header)
    (hinput : data.slice (offset + headerSize) (header.compressedSize - headerSize) = .ok input) :
    decompressAt data offset =
      (run header.decompressedSize (offset + headerSize + input.size) #[] input.toList).map
        (·.padTo header.decompressedSize) := by
  simp only [decompressAt, hheader, hinput, bind, Except.bind]
  cases run header.decompressedSize (offset + headerSize + input.size) #[] input.toList <;> rfl

theorem toOption_decompressAt_embed (hheader : Header.parse s 0 = .ok header)
    (hfits : header.compressedSize ≤ s.size) :
    (decompressAt (p ++ s ++ q) p.size).toOption = (decompress s).toOption := by
  obtain ⟨-, hmin, -⟩ := Header.bounds_of_parse hheader
  have hroom : headerSize + (header.compressedSize - headerSize) ≤ s.size := by omega
  have hslice := Bytes.slice_of_le hroom
  have hheader' : Header.parse (p ++ s ++ q) p.size = .ok header := by
    rw [Header.parse_embed p q (Nat.le_trans hmin hfits), hheader]
  have hslice' : (p ++ s ++ q).slice (p.size + headerSize)
      (header.compressedSize - headerSize) = .ok _ := (Bytes.slice_embed p q hroom).trans hslice
  rw [decompress, decompressAt_of_slice hheader' hslice',
    decompressAt_of_slice hheader (by rw [Nat.zero_add]; exact hslice), toOption_map, toOption_map,
    toOption_run]

end Ykcmp

namespace Lzs

variable {header : Header}

/-- A header that is read lies inside the buffer, up to the flag, and states sizes that its words
can hold. -/
theorem Header.bounds_of_parse (h : Header.parse data offset = .ok header) :
    offset + 0x0D ≤ data.size ∧ headerSize - sizeOrigin ≤ header.compressedSize ∧
      header.compressedSize < 0x100000000 ∧ header.decompressedSize < 0x100000000 := by
  obtain ⟨extension, -, h⟩ := bind_eq_ok.mp h
  obtain ⟨decompressedSize, hunpacked, h⟩ := bind_eq_ok.mp h
  obtain ⟨compressedSize, hpacked, h⟩ := bind_eq_ok.mp h
  obtain ⟨flag, hflag, h⟩ := bind_eq_ok.mp h
  split at h
  case isTrue => cases h
  case isFalse hmin =>
    obtain rfl := Except.ok.inj h
    exact ⟨Nat.add_assoc offset 0x0C 1 ▸ Bytes.fits_of_word hflag, Nat.le_of_not_lt hmin,
      Bytes.lt_of_word hpacked, Bytes.lt_of_word hunpacked⟩

theorem Header.parse_embed (h : headerSize ≤ s.size) :
    Header.parse (p ++ s ++ q) p.size = Header.parse s 0 := by
  unfold headerSize at h
  have hextension := Bytes.slice_embed p q (by omega : 0 + 4 ≤ s.size)
  have hunpacked := Bytes.word_embed p q (by omega : 0x04 + 4 ≤ s.size)
  have hpacked := Bytes.word_embed p q (by omega : 0x08 + 4 ≤ s.size)
  have hflag := Bytes.word_embed p q (by omega : 0x0C + 1 ≤ s.size)
  rw [Nat.add_zero] at hextension
  simp only [Header.parse, hextension, hunpacked, hpacked, hflag, Nat.zero_add]

/-- Where the input ends matters only to how a failure is worded. -/
theorem toOption_run (flag : UInt8) (limit inputEnd inputEnd' : Nat) (out : Bytes)
    (input : List UInt8) :
    (run flag limit inputEnd out input).toOption =
      (run flag limit inputEnd' out input).toOption := by
  fun_induction run flag limit inputEnd out input with
  | case1 out => rw [run]
  | case2 out b rest hfull => rw [run_of_full inputEnd' hfull]
  | case3 out b rest hroom hliteral ih =>
    rw [ih]
    conv_rhs => rw [run.eq_def]
    simp only [if_neg hroom, if_pos hliteral]
  | case4 out b hroom hflag =>
    rw [run.eq_def]
    simp only [if_neg hroom, if_neg hflag]
    rfl
  | case5 out b hroom hflag rest ih =>
    rw [ih]
    conv_rhs => rw [run.eq_def]
    simp only [if_neg hroom, if_neg hflag, if_true]
  | case6 out b hroom hflag d hd =>
    rw [run.eq_def]
    simp only [if_neg hroom, if_neg hflag, if_neg hd]
    rfl
  | case7 out b hroom hflag d hd n rest e hcopy =>
    rw [run.eq_def]
    simp only [if_neg hroom, if_neg hflag, if_neg hd, hcopy]
  | case8 out b hroom hflag d hd n rest out' hcopy ih =>
    rw [ih]
    conv_rhs => rw [run.eq_def]
    simp only [if_neg hroom, if_neg hflag, if_neg hd, hcopy]

theorem decompressAt_of_slice {input : Bytes} (hheader : Header.parse data offset = .ok header)
    (hinput : data.slice (offset + headerSize) (header.compressedSize + sizeOrigin - headerSize) =
      .ok input) :
    decompressAt data offset =
      (run header.flag header.decompressedSize (offset + sizeOrigin + header.compressedSize) #[]
        input.toList).map (·.padTo header.decompressedSize) := by
  have hlength : offset + sizeOrigin + header.compressedSize - (offset + headerSize) =
      header.compressedSize + sizeOrigin - headerSize := by omega
  simp only [decompressAt, hheader, hlength, hinput, bind, Except.bind]
  cases run header.flag header.decompressedSize (offset + sizeOrigin + header.compressedSize) #[]
    input.toList <;> rfl

theorem toOption_decompressAt_embed (hheader : Header.parse s 0 = .ok header)
    (hfits : sizeOrigin + header.compressedSize ≤ s.size) :
    (decompressAt (p ++ s ++ q) p.size).toOption = (decompress s).toOption := by
  obtain ⟨-, hmin, -⟩ := Header.bounds_of_parse hheader
  have hwhole : headerSize ≤ s.size := by omega
  have hroom : headerSize + (header.compressedSize + sizeOrigin - headerSize) ≤ s.size := by omega
  have hslice := Bytes.slice_of_le hroom
  have hheader' : Header.parse (p ++ s ++ q) p.size = .ok header := by
    rw [Header.parse_embed p q hwhole, hheader]
  have hslice' : (p ++ s ++ q).slice (p.size + headerSize)
      (header.compressedSize + sizeOrigin - headerSize) = .ok _ :=
    (Bytes.slice_embed p q hroom).trans hslice
  rw [decompress, decompressAt_of_slice hheader' hslice',
    decompressAt_of_slice hheader (by rw [Nat.zero_add]; exact hslice), toOption_map, toOption_map,
    toOption_run]

end Lzs

/-- A stream that a buffer holds as a whole unpacks there to what it unpacks to by itself, whatever
bytes stand before and behind it. -/
theorem decompressAt_embed_eq_ok_iff (p s q out : Bytes) :
    (∀ header, Ykcmp.Header.parse s 0 = .ok header → header.compressedSize ≤ s.size →
      (Ykcmp.decompressAt (p ++ s ++ q) p.size = .ok out ↔ Ykcmp.decompress s = .ok out)) ∧
    (∀ header, Lzs.Header.parse s 0 = .ok header →
      Lzs.sizeOrigin + header.compressedSize ≤ s.size →
      (Lzs.decompressAt (p ++ s ++ q) p.size = .ok out ↔ Lzs.decompress s = .ok out)) := by
  constructor
  · intro header hheader hfits
    exact eq_ok_iff_of_toOption (Ykcmp.toOption_decompressAt_embed p q hheader hfits)
  · intro header hheader hfits
    exact eq_ok_iff_of_toOption (Lzs.toOption_decompressAt_embed p q hheader hfits)

/-- A stream of a literal and an overlapping copy, which ends before the last byte. -/
def ykcmpStream : Bytes :=
  ((Ykcmp.Header.mk 25 5).toBytes ++ [0x02, 0x61, 0x62, 0xC1, 0x01, 0xC1]).toArray

/-- A stream of two literals and an overlapping copy, which ends before the last byte. -/
def lzsStream : Bytes :=
  ((Lzs.Header.mk #[0x74, 0x78, 0x32, 0] 5 17 0xFF).toBytes ++
    [0x61, 0x62, 0xFF, 0x02, 0x03, 0xFF]).toArray

theorem decompressAt_embed_eq_ok_iff_overlappingCopies :
    Ykcmp.Header.parse ykcmpStream 0 = .ok ⟨25, 5⟩ ∧ 25 ≤ ykcmpStream.size ∧
    Ykcmp.decompressAt (#[0x59, 0x4B] ++ ykcmpStream ++ #[0xFF, 0xFF]) 2 =
      .ok #[0x61, 0x62, 0x61, 0x62, 0x61] ∧
    Lzs.Header.parse lzsStream 0 = .ok ⟨#[0x74, 0x78, 0x32, 0], 5, 17, 0xFF⟩ ∧
    Lzs.sizeOrigin + 17 ≤ lzsStream.size ∧
    Lzs.decompressAt (#[0x59, 0x4B] ++ lzsStream ++ #[0xFF, 0xFF]) 2 =
      .ok #[0x61, 0x62, 0x61, 0x62, 0x61] := by
  have hykcmp : Ykcmp.Header.parse ykcmpStream 0 = .ok ⟨25, 5⟩ := by cbv
  have hlzs : Lzs.Header.parse lzsStream 0 = .ok ⟨#[0x74, 0x78, 0x32, 0], 5, 17, 0xFF⟩ := by cbv
  refine ⟨hykcmp, by decide, ?_, hlzs, by decide, ?_⟩
  · refine ((decompressAt_embed_eq_ok_iff #[0x59, 0x4B] ykcmpStream #[0xFF, 0xFF] _).1 _ hykcmp
      (by decide)).mpr ?_
    cbv
  · refine ((decompressAt_embed_eq_ok_iff #[0x59, 0x4B] lzsStream #[0xFF, 0xFF] _).2 _ hlzs
      (by decide)).mpr ?_
    cbv

end Codec
end GameArchive
