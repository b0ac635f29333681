import GameArchive.Bytes
/-! Frames without checksum or dictionary: a header and a list of blocks, the last one marked. -/
namespace GameArchive.Zstd

/-- The bytes that a frame starts with. -/
def magic : List UInt8 := [0x28, 0xB5, 0x2F, 0xFD]

/-- The byte that stands for a window of 128 MiB. -/
def windowByte : UInt8 := 0x88

/-- The descriptor of a header that states the size of the content in four bytes. -/
def sizedDescriptor : UInt8 := 0x80

/-- The descriptor of a header that does not state the size of the content. -/
def unsizedDescriptor : UInt8 := 0x00

/-- The most bytes that a block header can state. -/
def maxBlockSize : Nat := 0x1FFFFF

/-- The least size of content that a header cannot state. -/
def contentLimit : Nat := 0x100000000

/-- One block: bytes that stand for themselves or for more in compressed form. -/
structure Block where
  compressed : Bool
  body : List UInt8
  deriving DecidableEq

/-- A frame. -/
structure Frame where
  /-- The size of the content, if the header states it. -/
  contentSize : Option Nat
  blocks : List Block
  deriving DecidableEq

/-! ### Writing -/

/-- The header of a frame. -/
def frameHeader : (contentSize : Option Nat) → List UInt8
  | some n => magic ++ [sizedDescriptor, windowByte] ++ toLittleEndian 4 n
  | none => magic ++ [unsizedDescriptor, windowByte]

/-- The header of a block: whether it is the last one, its type and its size, from the lowest bit
up. -/
def blockHeader (size : Nat) (compressed last : Bool) : Except Error (List UInt8) :=
  if maxBlockSize < size then .error (.malformed (.blockTooLarge size maxBlockSize))
  else
    .ok (toLittleEndian 3 (8 * size + (if compressed then 4 else 0) + if last then 1 else 0))

/-- The bytes of a list of blocks, each behind its header. -/
def writeBlocks : List Block → Except Error (List UInt8)
  | [] => .ok []
  | block :: rest => do
    let header ← blockHeader block.body.length block.compressed rest.isEmpty
    let others ← writeBlocks rest
    .ok (header ++ (block.body ++ others))

/-- The bytes of a frame. -/
def Frame.toBytes (f : Frame) : Except Error Bytes :=
  (writeBlocks f.blocks).map fun blocks => (frameHeader f.contentSize ++ blocks).toArray

/-! ### Frames without headers -/

/-- The number of bytes that `chunks` take. -/
def chunkTotal (chunks : List Int) : Nat :=
  chunks.foldr (fun chunk total => chunk.natAbs + total) 0

/-- The blocks that `data` is cut into. The length of each is the absolute value of its chunk; a
negative chunk makes a block that stands for itself. -/
def cut (data : List UInt8) : (chunks : List Int) → List Block
  | [] => []
  | chunk :: rest =>
    ⟨decide (0 ≤ chunk), data.take chunk.natAbs⟩ :: cut (data.drop chunk.natAbs) rest

/-- The size of content that a header states, if it can. -/
def statedSize (size : Nat) : Option Nat :=
  if size < contentLimit then some size else none

/-- The frame that results when the headers are put back before the blocks of `data`. -/
def reassemble (decompressedSize : Nat) (data : Bytes) (chunks : List Int) :
    Except Error Bytes :=
  if chunkTotal chunks ≠ data.size then
    .error (.sizeMismatch "zstd chunk sizes" data.size (chunkTotal chunks))
  else Frame.toBytes ⟨statedSize decompressedSize, cut data.toList chunks⟩

/-! ### Reading -/

/-- The size of the content as the header of a frame states it, and what follows the header. -/
def readFrameHeader? (bytes : List UInt8) : Option (Option Nat × List UInt8) :=
  if bytes.take 4 ≠ magic then none
  else
    match bytes.drop 4 with
    | descriptor :: _window :: rest =>
      if descriptor = sizedDescriptor then
        if rest.length < 4 then none
        else some (some (ofLittleEndian (rest.take 4)), rest.drop 4)
      else if descriptor = unsizedDescriptor then some (none, rest)
      else none
    | _ => none

/-- The blocks that fill `bytes`. Only the last one is marked as such. -/
def readBlocks? (bytes : List UInt8) : Option (List Block) :=
  match bytes with
  | b₀ :: b₁ :: b₂ :: rest =>
    let word := ofLittleEndian [b₀, b₁, b₂]
    let size := word / 8
    let body := rest.take size
    let type := word / 2 % 4
    if body.length < size ∨ ¬ (type = 0 ∨ type = 2) then none
    else
      let block : Block := ⟨type == 2, body⟩
      if word % 2 = 1 then
        if rest.length = size then some [block] else none
      else (readBlocks? (rest.drop size)).map (block :: ·)
  | _ => none
termination_by bytes.length
decreasing_by simp; omega

/-- The frame that fills `bytes`. -/
def Frame.ofBytes? (bytes : Bytes) : Option Frame :=
  match readFrameHeader? bytes.toList with
  | none => none
  | some (contentSize, rest) => (readBlocks? rest).map fun blocks => ⟨contentSize, blocks⟩

end GameArchive.Zstd
