import GameArchive.Proofs.Zstd.Frame
import Mathlib.Algebra.GroupWithZero.Nat
/-!
# Frames taken apart

Headers that have been put back can be read again: every block comes out with the type and the size
that its chunk asks for, and what is left when the headers are stripped off is the data and the
chunks that the frame was made from.
-/
namespace GameArchive.Zstd

/-- One block as its header states it. -/
structure StoredBlock where
  last : Bool
  type : Nat
  body : List UInt8
  deriving DecidableEq

/-- The blocks up to the one that is marked as the last, and what follows it. -/
def storedBlocks? (bytes : List UInt8) : Option (List StoredBlock × List UInt8) :=
  match bytes with
  | b₀ :: b₁ :: b₂ :: rest =>
    let word := ofLittleEndian [b₀, b₁, b₂]
    let size := word / 8
    let block : StoredBlock := ⟨word % 2 == 1, word / 2 % 4, rest.take size⟩
    if rest.length < size then none
    else if block.last then some ([block], rest.drop size)
    else (storedBlocks? (rest.drop size)).map fun read => (block :: read.1, read.2)
  | _ => none
termination_by bytes.length
decreasing_by simp; omega

/-- The chunk that stands for a block, if there is one. -/
def StoredBlock.chunk? (block : StoredBlock) : Option Int :=
  match block.type with
  | 0 => some (-(block.body.length : Int))
  | 2 => some block.body.length
  | _ => none

/-- The length of a header that starts with `descriptor` behind the magic bytes. -/
def headerLength (descriptor : UInt8) : Nat :=
  let single := descriptor.toNat / 32 % 2
  let dictionary := match descriptor.toNat % 4 with
    | 0 => 0
    | 1 => 1
    | 2 => 2
    | _ => 4
  let content := match descriptor.toNat / 64 with
    | 0 => single
    | 1 => 2
    | 2 => 4
    | _ => 8
  5 + (1 - single) + dictionary + content

/-- The length of the checksum that stands behind the blocks. -/
def checksumLength (descriptor : UInt8) : Nat :=
  if descriptor.toNat / 4 % 2 = 1 then 4 else 0

/-- What is left of a frame without its headers: the bodies of the blocks, and a chunk for each. -/
def strip? (frame : Bytes) : Option (Bytes × List Int) :=
  let bytes := frame.toList
  if bytes.take 4 ≠ magic then none
  else do
    let descriptor ← bytes[4]?
    let (blocks, after) ← storedBlocks? (bytes.drop (headerLength descriptor))
    if after.length ≠ checksumLength descriptor then none
    else
      let chunks ← blocks.mapM StoredBlock.chunk?
      some ((blocks.flatMap (·.body)).toArray, chunks)

/-- How a block is stored. -/
def Block.stored (block : Block) (last : Bool) : StoredBlock :=
  ⟨last, if block.compressed then 2 else 0, block.body⟩

/-- How the blocks of a frame are stored, one after another. -/
def stored : List Block → List StoredBlock
  | [] => []
  | block :: rest => block.stored rest.isEmpty :: stored rest

/-! ### One header -/

/-- The three bytes of a header hold the size, the type and the mark of a block. -/
theorem word_of_blockHeader {size : Nat} {compressed last : Bool} {header : List UInt8}
    (h : blockHeader size compressed last = .ok header) :
    ∃ b₀ b₁ b₂, header = [b₀, b₁, b₂] ∧ ofLittleEndian [b₀, b₁, b₂] / 8 = size ∧
      ofLittleEndian [b₀, b₁, b₂] / 2 % 4 = (if compressed then 2 else 0) ∧
      ofLittleEndian [b₀, b₁, b₂] % 2 = (if last then 1 else 0) := by
  have hsize : size ≤ maxBlockSize := by
    refine Nat.le_of_not_lt fun hlarge => ?_
    rw [blockHeader, if_pos hlarge] at h
    cases h
  rw [blockHeader, if_neg (Nat.not_lt.mpr hsize)] at h
  cases h
  refine ⟨_, _, _, rfl, ?_⟩
  generalize hword : 8 * size + (if compressed then 4 else 0) + (if last then 1 else 0) = word
  have hbound : word < numberBound 3 := by
    have : maxBlockSize = 0x1FFFFF := rfl
    have : numberBound 3 = 0x1000000 := rfl
    split at hword <;> split at hword <;> omega
  have hread : ofLittleEndian (toLittleEndian 3 word) = word := by
    rw [ofLittleEndian_toLittleEndian, Nat.mod_eq_of_lt hbound]
  simp only [toLittleEndian] at hread
  rw [hread, ← hword]
  cases compressed <;> cases last <;> simp only [if_true, Bool.false_eq_true, if_false] <;> omega

/-- One block is read back in front of whatever follows it. -/
theorem storedBlocks?_header {block : Block} {last : Bool} {header : List UInt8}
    (h : blockHeader block.body.length block.compressed last = .ok header) (rest : List UInt8) :
    storedBlocks? (header ++ (block.body ++ rest)) =
      if last then some ([block.stored last], rest)
      else (storedBlocks? rest).map fun read => (block.stored last :: read.1, read.2) := by
  obtain ⟨b₀, b₁, b₂, rfl, hsize, htype, hlast⟩ := word_of_blockHeader h
  have hfits : ¬ (block.body ++ rest).length < block.body.length := by
    rw [List.length_append]
    omega
  have hmark : (ofLittleEndian [b₀, b₁, b₂] % 2 == 1) = last := by
    cases last <;> simp [hlast]
  simp only [List.cons_append, List.nil_append]
  rw [storedBlocks?]
  simp only [hsize, htype, hmark, if_neg hfits, List.take_left, List.drop_left, Block.stored]

/-- The reader of whole frames takes the block for what it is, and the marked one for the end. -/
theorem readBlocks?_header {block : Block} {last : Bool} {header : List UInt8}
    (h : blockHeader block.body.length block.compressed last = .ok header) (rest : List UInt8) :
    readBlocks? (header ++ (block.body ++ rest)) =
      if last then if rest = [] then some [block] else none
      else (readBlocks? rest).map (block :: ·) := by
  obtain ⟨b₀, b₁, b₂, rfl, hsize, htype, hlast⟩ := word_of_blockHeader h
  have hblock : (⟨(if block.compressed then 2 else 0 : Nat) == 2, block.body⟩ : Block) = block := by
    rcases block with ⟨compressed, body⟩
    cases compressed <;> rfl
  have hread : ¬ (block.body.length < block.body.length ∨
      ¬ ((if block.compressed then 2 else 0) = 0 ∨ (if block.compressed then 2 else 0) = 2)) := by
    cases block.compressed <;> simp
  simp only [List.cons_append, List.nil_append]
  rw [readBlocks?]
  simp only [hsize, htype, hlast, List.take_left, List.drop_left, hblock, if_neg hread,
    List.length_append]
  cases last <;> simp

/-! ### All blocks -/

/-- Blocks that were written are read back as they were stored, up to the last one. -/
theorem storedBlocks?_writeBlocks {blocks : List Block} {bytes : List UInt8} (hne : blocks ≠ [])
    (h : writeBlocks blocks = .ok bytes) (after : List UInt8) :
    storedBlocks? (bytes ++ after) = some (stored blocks, after) := by
  induction blocks generalizing bytes with
  | nil => exact absurd rfl hne
  | cons block rest ih =>
    obtain ⟨header, hheader, h⟩ := bind_eq_ok.mp h
    obtain ⟨others, hothers, h⟩ := bind_eq_ok.mp h
    cases h
    rw [List.append_assoc, List.append_assoc, storedBlocks?_header hheader]
    cases rest with
    | nil =>
      cases hothers
      rfl
    | cons next rest =>
      rw [ih (List.cons_ne_nil next rest) hothers]
      rfl

theorem readBlocks?_writeBlocks {blocks : List Block} {bytes : List UInt8} (hne : blocks ≠ [])
    (h : writeBlocks blocks = .ok bytes) : readBlocks? bytes = some blocks := by
  induction blocks generalizing bytes with
  | nil => exact absurd rfl hne
  | cons block rest ih =>
    obtain ⟨header, hheader, h⟩ := bind_eq_ok.mp h
    obtain ⟨others, hothers, h⟩ := bind_eq_ok.mp h
    cases h
    rw [readBlocks?_header hheader]
    cases rest with
    | nil =>
      cases hothers
      rfl
    | cons next rest =>
      rw [ih (List.cons_ne_nil next rest) hothers]
      rfl

/-- Of a list of blocks the last one alone is marked. -/
theorem map_last_stored {blocks : List Block} (hne : blocks ≠ []) :
    (stored blocks).map (·.last) = List.replicate (blocks.length - 1) false ++ [true] := by
  induction blocks with
  | nil => exact absurd rfl hne
  | cons block rest ih =>
    cases rest with
    | nil => rfl
    | cons next rest =>
      rw [stored, List.map_cons, ih (List.cons_ne_nil next rest)]
      simp [Block.stored, List.replicate_succ]

theorem map_body_stored (blocks : List Block) :
    (stored blocks).map (·.body) = blocks.map (·.body) := by
  induction blocks with
  | nil => rfl
  | cons block rest ih => rw [stored, List.map_cons, ih, List.map_cons, Block.stored]

/-! ### Blocks that data is cut into -/

theorem chunkTotal_eq_sum (chunks : List Int) : chunkTotal chunks = (chunks.map Int.natAbs).sum := by
  rw [chunkTotal, List.sum, List.foldr_map]

theorem length_cut (data : List UInt8) (chunks : List Int) :
    (cut data chunks).length = chunks.length := by
  induction chunks generalizing data with
  | nil => rfl
  | cons chunk rest ih => rw [cut, List.length_cons, ih, List.length_cons]

theorem cut_ne_nil (data : List UInt8) {chunks : List Int} (hne : chunks ≠ []) :
    cut data chunks ≠ [] := by
  rw [← List.length_pos_iff, length_cut]
  exact List.length_pos_iff.mpr hne

theorem flatMap_body_cut (data : List UInt8) (chunks : List Int) :
    (cut data chunks).flatMap (·.body) = data.take (chunkTotal chunks) := by
  induction chunks generalizing data with
  | nil => rfl
  | cons chunk rest ih =>
    have hsum : chunkTotal (chunk :: rest) = chunk.natAbs + chunkTotal rest := rfl
    rw [cut, List.flatMap_cons, ih, hsum, List.take_add]

theorem map_type_stored_cut (data : List UInt8) (chunks : List Int) :
    (stored (cut data chunks)).map (·.type) =
      chunks.map fun chunk => if chunk < 0 then 0 else 2 := by
  induction chunks generalizing data with
  | nil => rfl
  | cons chunk rest ih =>
    rw [cut, stored, List.map_cons, ih, List.map_cons, Block.stored]
    by_cases hsign : chunk < 0 <;> simp [hsign, Int.not_lt.mp]

theorem map_length_body_stored_cut {data : List UInt8} {chunks : List Int}
    (htotal : chunkTotal chunks ≤ data.length) :
    (stored (cut data chunks)).map (·.body.length) = chunks.map Int.natAbs := by
  have hlengths := congrArg (List.map List.length) (map_body_stored (cut data chunks))
  rw [List.map_map, List.map_map] at hlengths
  exact hlengths.trans (map_length_body_cut htotal)

theorem flatMap_body_stored_cut {data : List UInt8} {chunks : List Int}
    (htotal : chunkTotal chunks = data.length) :
    (stored (cut data chunks)).flatMap (·.body) = data := by
  rw [List.flatMap_def, map_body_stored, ← List.flatMap_def, flatMap_body_cut, htotal,
    List.take_length]

/-- A block stands for the chunk that it was cut off for. -/
theorem chunk?_stored {chunk : Int} {body : List UInt8} (hlength : body.length = chunk.natAbs)
    (last : Bool) : (Block.stored ⟨decide (0 ≤ chunk), body⟩ last).chunk? = some chunk := by
  by_cases hsign : 0 ≤ chunk
  · simp only [Block.stored, StoredBlock.chunk?, decide_eq_true hsign, if_true, hlength]
    rw [Int.natAbs_of_nonneg hsign]
  · simp only [Block.stored, StoredBlock.chunk?, decide_eq_false hsign, Bool.false_eq_true,
      if_false, hlength]
    congr 1
    omega

theorem mapM_chunk?_stored_cut {data : List UInt8} {chunks : List Int}
    (htotal : chunkTotal chunks ≤ data.length) :
    (stored (cut data chunks)).mapM StoredBlock.chunk? = some chunks := by
  induction chunks generalizing data with
  | nil => rfl
  | cons chunk rest ih =>
    have hsum : chunk.natAbs + chunkTotal rest ≤ data.length := htotal
    rw [cut, stored, List.mapM_cons, chunk?_stored (List.length_take_of_le (by omega)),
      ih (by rw [List.length_drop]; omega)]
    rfl

/-! ### Whole frames -/

/-- A frame that was written is read back. -/
theorem ofBytes?_of_writeBlocks {f : Frame} {bytes : List UInt8} (hne : f.blocks ≠ [])
    (hsize : ∀ n, f.contentSize = some n → n < numberBound 4)
    (h : writeBlocks f.blocks = .ok bytes) :
    Frame.ofBytes? (frameHeader f.contentSize ++ bytes).toArray = some f := by
  rw [Frame.ofBytes?, List.toList_toArray, readFrameHeader?_append bytes hsize]
  dsimp only
  rw [readBlocks?_writeBlocks hne h]
  rfl

/-- A frame that states the size of its content comes apart into its blocks as they are stored. -/
theorem strip?_of_storedBlocks? {frame : Bytes} {size : Nat} {rest : List UInt8}
    {blocks : List StoredBlock} {chunks : List Int}
    (hframe : frame.toList = frameHeader (some size) ++ rest)
    (hblocks : storedBlocks? rest = some (blocks, []))
    (hchunks : blocks.mapM StoredBlock.chunk? = some chunks) :
    strip? frame = some ((blocks.flatMap (·.body)).toArray, chunks) := by
  have hlength : headerLength sizedDescriptor = 6 + 4 := rfl
  have hdrop : frame.toList.drop (headerLength sizedDescriptor) = rest := by
    rw [hframe, hlength]
    exact List.drop_left' (by simp [frameHeader, magic])
  have hmagic : frame.toList.take 4 = magic := by
    rw [hframe, frameHeader, List.append_assoc, List.append_assoc]
    exact List.take_left' rfl
  have hdescriptor : frame.toList[4]? = some sizedDescriptor := by
    rw [hframe]
    rfl
  have hchecksum : checksumLength sizedDescriptor = 0 := rfl
  simp [strip?, hmagic, hdescriptor, hdrop, hblocks, hchunks, hchecksum]

/-- Putting the headers back fails if the chunks do not take all of the data, else if one is too
large for a block, and not otherwise. Then the frame states the size of the content, and behind that
there is one block for each chunk, with its type and length; together they hold the data, and the
last one alone is marked. So stripping the headers off gives the data and the chunks again, and a
decoder gets the blocks that the data was cut into. -/
theorem reassemble_reads_back {size : Nat} {data : Bytes} {chunks : List Int}
    (hsize : size < contentLimit) (hne : chunks ≠ []) :
    ((∃ what expected found,
        reassemble size data chunks = .error (.sizeMismatch what expected found)) ↔
      (chunks.map Int.natAbs).sum ≠ data.size) ∧
    ((∃ reason, reassemble size data chunks = .error (.malformed reason)) ↔
      (chunks.map Int.natAbs).sum = data.size ∧ ∃ chunk ∈ chunks, maxBlockSize < chunk.natAbs) ∧
    ((chunks.map Int.natAbs).sum = data.size → (∀ chunk ∈ chunks, chunk.natAbs ≤ maxBlockSize) →
      ∃ frame rest blocks, reassemble size data chunks = .ok frame ∧
        frame.toList = magic ++ [sizedDescriptor, windowByte] ++ toLittleEndian 4 size ++ rest ∧
        readFrameHeader? frame.toList = some (some size, rest) ∧
        storedBlocks? rest = some (blocks, []) ∧
        blocks.map (·.type) = chunks.map (fun chunk => if chunk < 0 then 0 else 2) ∧
        blocks.map (·.body.length) = chunks.map Int.natAbs ∧
        blocks.flatMap (·.body) = data.toList ∧
        blocks.map (·.last) = List.replicate (chunks.length - 1) false ++ [true] ∧
        strip? frame = some (data, chunks) ∧
        Frame.ofBytes? frame = some ⟨some size, cut data.toList chunks⟩) := by
  rw [← chunkTotal_eq_sum]
  rcases @reassemble_cases size data chunks hsize with
    ⟨htotal, hframe⟩ | ⟨htotal, chunk, hchunk, hlarge, hframe⟩ | ⟨htotal, hfit, rest, hrest, hframe⟩
  case inl => simp [hframe, htotal]
  case inr.inl =>
    have hexists : ∃ chunk ∈ chunks, maxBlockSize < chunk.natAbs := ⟨chunk, hchunk, hlarge⟩
    have hfit : ¬ ∀ chunk ∈ chunks, chunk.natAbs ≤ maxBlockSize :=
      fun hfit => Nat.not_lt.mpr (hfit chunk hchunk) hlarge
    simp [hframe, htotal, hexists, hfit]
  case inr.inr =>
    have hnone : ¬ ∃ chunk ∈ chunks, maxBlockSize < chunk.natAbs :=
      fun ⟨chunk, hchunk, hlarge⟩ => Nat.not_lt.mpr (hfit chunk hchunk) hlarge
    refine ⟨by simp [hframe, htotal], by simp [hframe, hnone], fun _ _ => ?_⟩
    have hlength : chunkTotal chunks = data.toList.length := htotal.trans Array.length_toList.symm
    have hcut := cut_ne_nil data.toList hne
    have hlist : (frameHeader (some size) ++ rest).toArray.toList = frameHeader (some size) ++ rest :=
      List.toList_toArray
    have hblocks : storedBlocks? rest = some (stored (cut data.toList chunks), []) := by
      have hread := storedBlocks?_writeBlocks hcut hrest []
      rwa [List.append_nil] at hread
    have hbodies := flatMap_body_stored_cut hlength
    have hstrip := strip?_of_storedBlocks? hlist hblocks
      (mapM_chunk?_stored_cut (Nat.le_of_eq hlength))
    rw [hbodies, Array.toArray_toList] at hstrip
    have hstated : ∀ n, some size = some n → n < numberBound 4 :=
      fun n hn => Option.some.inj hn ▸ hsize
    have hlast : (stored (cut data.toList chunks)).map (·.last) =
        List.replicate (chunks.length - 1) false ++ [true] := by
      rw [map_last_stored hcut, length_cut]
    exact ⟨_, rest, _, hframe, hlist, hlist ▸ readFrameHeader?_append rest hstated, hblocks,
      map_type_stored_cut data.toList chunks, map_length_body_stored_cut (Nat.le_of_eq hlength),
      hbodies, hlast, hstrip,
      @ofBytes?_of_writeBlocks ⟨some size, cut data.toList chunks⟩ rest hcut hstated hrest⟩

theorem reassemble_reads_back_twoAndNone :
    ∃ frame, reassemble 6 #[1, 2, 3, 4, 5, 6] [-2, 0, 4] = .ok frame ∧
      frame.toList = magic ++ [sizedDescriptor, windowByte, 6, 0, 0, 0] ++
        ([16, 0, 0, 1, 2] ++ [4, 0, 0] ++ [37, 0, 0, 3, 4, 5, 6]) ∧
      strip? frame = some (#[1, 2, 3, 4, 5, 6], [-2, 0, 4]) := by
  obtain ⟨-, -, hread⟩ := @reassemble_reads_back 6 #[1, 2, 3, 4, 5, 6] [-2, 0, 4] (by decide)
    (by decide)
  obtain ⟨frame, rest, blocks, hframe, -, -, -, -, -, -, -, hstrip, -⟩ :=
    hread (by decide) (by decide)
  refine ⟨frame, hframe, ?_, hstrip⟩
  have hbytes : reassemble 6 #[1, 2, 3, 4, 5, 6] [-2, 0, 4] = .ok (magic ++
      [sizedDescriptor, windowByte, 6, 0, 0, 0] ++
        ([16, 0, 0, 1, 2] ++ [4, 0, 0] ++ [37, 0, 0, 3, 4, 5, 6])).toArray := rfl
  rw [Except.ok.inj (hframe.symm.trans hbytes), List.toList_toArray]

end GameArchive.Zstd
