import GameArchive.Proofs.Bytes
import GameArchive.Zstd.Decode
/-!
# Frames put back together

The bytes of a frame say how large its content is, and a decoder that reads them gives content of
that size or none. So putting the headers back and decoding fails in two ways only: a block is too
large for its header, or the frame does not decode.
-/
namespace GameArchive.Zstd

theorem map_length_body_cut {data : List UInt8} {chunks : List Int}
    (htotal : chunkTotal chunks ≤ data.length) :
    (cut data chunks).map (·.body.length) = chunks.map Int.natAbs := by
  induction chunks generalizing data with
  | nil => rfl
  | cons chunk rest ih =>
    have hsum : chunk.natAbs + chunkTotal rest ≤ data.length := htotal
    rw [cut, List.map_cons, ih (by rw [List.length_drop]; omega), List.map_cons,
      List.length_take_of_le (by omega)]

/-- Blocks are written unless one is too large for a header. -/
theorem writeBlocks_cases (blocks : List Block) :
    ((∀ block ∈ blocks, block.body.length ≤ maxBlockSize) ∧
        ∃ bytes, writeBlocks blocks = .ok bytes) ∨
      ∃ block ∈ blocks, maxBlockSize < block.body.length ∧
        writeBlocks blocks = .error (.malformed (.blockTooLarge block.body.length maxBlockSize)) := by
  induction blocks with
  | nil => exact Or.inl ⟨List.forall_mem_nil _, [], rfl⟩
  | cons block rest ih =>
    rw [writeBlocks, blockHeader]
    by_cases hlarge : maxBlockSize < block.body.length
    · rw [if_pos hlarge]
      exact Or.inr ⟨block, List.mem_cons_self, hlarge, rfl⟩
    · rw [if_neg hlarge]
      rcases ih with ⟨hfit, bytes, hbytes⟩ | ⟨other, hother, hover, herror⟩
      · rw [hbytes]
        exact Or.inl ⟨List.forall_mem_cons.mpr ⟨Nat.not_lt.mp hlarge, hfit⟩, _, rfl⟩
      · rw [herror]
        exact Or.inr ⟨other, List.mem_cons_of_mem _ hother, hover, rfl⟩

/-- All that can come of putting the headers back. -/
theorem reassemble_cases {size : Nat} {data : Bytes} {chunks : List Int}
    (hsize : size < contentLimit) :
    (chunkTotal chunks ≠ data.size ∧ reassemble size data chunks =
        .error (.sizeMismatch "zstd chunk sizes" data.size (chunkTotal chunks))) ∨
      (chunkTotal chunks = data.size ∧ ∃ chunk ∈ chunks, maxBlockSize < chunk.natAbs ∧
        reassemble size data chunks =
          .error (.malformed (.blockTooLarge chunk.natAbs maxBlockSize))) ∨
      (chunkTotal chunks = data.size ∧ (∀ chunk ∈ chunks, chunk.natAbs ≤ maxBlockSize) ∧
        ∃ rest, writeBlocks (cut data.toList chunks) = .ok rest ∧
          reassemble size data chunks = .ok (frameHeader (some size) ++ rest).toArray) := by
  by_cases htotal : chunkTotal chunks = data.size
  case neg => exact Or.inl ⟨htotal, if_pos htotal⟩
  right
  have hlengths : (cut data.toList chunks).map (·.body.length) = chunks.map Int.natAbs :=
    map_length_body_cut (Nat.le_of_eq (htotal.trans Array.length_toList.symm))
  have hframe : reassemble size data chunks = Frame.toBytes ⟨some size, cut data.toList chunks⟩ := by
    rw [reassemble, if_neg (not_not_intro htotal), statedSize, if_pos hsize]
  rw [hframe, Frame.toBytes]
  rcases writeBlocks_cases (cut data.toList chunks) with
    ⟨hfit, rest, hrest⟩ | ⟨block, hblock, hlarge, herror⟩
  · right
    refine ⟨htotal, fun chunk hchunk => ?_, rest, hrest, by rw [hrest]; rfl⟩
    have hmem : chunk.natAbs ∈ (cut data.toList chunks).map (·.body.length) :=
      hlengths ▸ List.mem_map_of_mem hchunk
    obtain ⟨block, hblock, hlength⟩ := List.mem_map.mp hmem
    exact hlength ▸ hfit block hblock
  · left
    have hmem : block.body.length ∈ chunks.map Int.natAbs :=
      hlengths ▸ List.mem_map_of_mem hblock
    obtain ⟨chunk, hchunk, hlength⟩ := List.mem_map.mp hmem
    exact ⟨htotal, chunk, hchunk, hlength ▸ hlarge, by rw [herror, hlength]; rfl⟩

theorem readFrameHeader?_append {contentSize : Option Nat} (rest : List UInt8)
    (hsize : ∀ n, contentSize = some n → n < numberBound 4) :
    readFrameHeader? (frameHeader contentSize ++ rest) = some (contentSize, rest) := by
  cases contentSize with
  | none => simp [readFrameHeader?, frameHeader, magic, unsizedDescriptor, sizedDescriptor]
  | some n =>
    have hlength := length_toLittleEndian 4 n
    have hvalue : ofLittleEndian (toLittleEndian 4 n) = n := by
      rw [ofLittleEndian_toLittleEndian, Nat.mod_eq_of_lt (hsize n rfl)]
    simp [readFrameHeader?, frameHeader, magic, List.take_left' hlength, List.drop_left' hlength,
      hvalue]

end GameArchive.Zstd
