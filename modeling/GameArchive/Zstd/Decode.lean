import GameArchive.Zstd.Frame
import GameArchive.Zstd.Sequences
/-! What frames stand for. -/
namespace GameArchive.Zstd

/-- The output of the blocks so far, and what later blocks may refer to. -/
structure Progress where
  out : Bytes
  table : Option Huffman.Table
  tables : Option SequenceTables
  recent : Recent

namespace Progress

/-- At the start of a frame. -/
def initial : Progress :=
  ⟨#[], none, none, Recent.initial⟩

/-- The progress that a compressed block makes, its output ending at `limit` or before. -/
def decompressBlock? (p : Progress) (limit : Nat) (block : Bytes) : Option Progress := do
  let literals ← Literals.read? block p.table (min blockLimit (limit - p.out.size))
  let sequences ←
    Sequences.read? (block.extract literals.used block.size) p.tables p.recent
  let out ← Sequences.execute? limit literals.bytes p.out 0 sequences.list
  some ⟨out, literals.table, sequences.tables, sequences.recent⟩

/-- The progress that a block makes, its output ending at `limit` or before. -/
def decodeBlock? (p : Progress) (limit : Nat) (block : Block) : Option Progress :=
  if block.compressed then
    if blockLimit < block.body.length then none
    else p.decompressBlock? limit block.body.toArray
  else if limit < p.out.size + block.body.length then none
  else some { p with out := p.out ++ block.body.toArray }

/-- The progress that some blocks make one after another. -/
def decodeBlocks? (p : Progress) (limit : Nat) : List Block → Option Progress
  | [] => some p
  | block :: rest => (p.decodeBlock? limit block).bind fun p => p.decodeBlocks? limit rest

end Progress

/-- The content of a frame, of at most `limit` bytes and of the size that its header states. -/
def Frame.decode? (f : Frame) (limit : Nat) : Option Bytes :=
  match Progress.initial.decodeBlocks? limit f.blocks with
  | none => none
  | some p =>
    match f.contentSize with
    | none => some p.out
    | some n => if p.out.size = n then some p.out else none

/-- The content, `decompressedSize` bytes long, of the frame whose blocks `data` holds without
their headers. -/
def decompressChunked (decompressedSize : Nat) (data : Bytes) (chunks : List Int) :
    Except Error Bytes := do
  let frame ← reassemble decompressedSize data chunks
  match (Frame.ofBytes? frame).bind (·.decode? decompressedSize) with
  | none => .error .undecodable
  | some out =>
    if out.size = decompressedSize then .ok out
    else .error (.sizeMismatch "zstd decompressed size" decompressedSize out.size)

end GameArchive.Zstd
