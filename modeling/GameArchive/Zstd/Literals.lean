import GameArchive.Zstd.Huffman
/-! The literals of a compressed block: the bytes that its sequences take in turn. -/
namespace GameArchive.Zstd

/-- The most bytes that the compressed form of a block or its literals can have. -/
def blockLimit : Nat := 128 * 1024

/-- The literals of a block, and what reading them leaves. -/
structure Literals where
  bytes : Bytes
  /-- How many bytes of the block they take. -/
  used : Nat
  /-- The table that later blocks may use again. -/
  table : Option Huffman.Table

namespace Literals

/-- The header of raw or repeated literals: their number, and the length of the header. -/
def plainHeader (block : Bytes) : Nat × Nat :=
  match bitsAt block 2 2 with
  | 1 => (bitsAt block 4 12, 2)
  | 3 => (bitsAt block 4 20, 3)
  | _ => (bitsAt block 3 5, 1)

/-- The header of coded literals: their number, the length of their code and of the header. -/
def codedHeader (block : Bytes) : Nat × Nat × Nat :=
  match bitsAt block 2 2 with
  | 2 => (bitsAt block 4 14, bitsAt block 18 14, 4)
  | 3 => (bitsAt block 4 18, bitsAt block 22 18, 5)
  | _ => (bitsAt block 4 10, bitsAt block 14 10, 3)

/-- Literals that stand in the block as they are. -/
def readRaw? (block : Bytes) (table : Option Huffman.Table) (limit : Nat) : Option Literals :=
  let (count, header) := plainHeader block
  if limit < count ∨ block.size < header + count then none
  else some ⟨block.extract header (header + count), header + count, table⟩

/-- One byte that stands for a number of equal literals. -/
def readRepeated? (block : Bytes) (table : Option Huffman.Table) (limit : Nat) :
    Option Literals :=
  let (count, header) := plainHeader block
  if limit < count then none
  else
    match block[header]? with
    | none => none
    | some b => some ⟨Array.replicate count b, header + 1, table⟩

/-- The symbols in `code`, in one stream or in four. -/
def decodeCode? (table : Huffman.Table) (single : Bool) (count : Nat) (code : Bytes) :
    Option Bytes :=
  if single then table.decodeStream? count code else table.decodeFourStreams? count code

/-- Huffman-coded literals. Their table stands in front of them or, in a repeating block, is that
of the literals before. -/
def readCoded? (block : Bytes) (repeats : Bool) (table : Option Huffman.Table) (limit : Nat) :
    Option Literals :=
  let (count, length, header) := codedHeader block
  let single := bitsAt block 2 2 == 0
  let code := block.extract header (header + length)
  if block.size < 5 ∨ limit < count ∨ block.size < header + length ∨ (!single && count < 6) then
    none
  else if repeats then
    match table with
    | none => none
    | some t =>
      (decodeCode? t single count code).map fun bytes => ⟨bytes, header + length, some t⟩
  else
    match Huffman.Table.read? code with
    | none => none
    | some (t, used) =>
      if code.size ≤ used then none
      else
        (decodeCode? t single count (code.extract used code.size)).map fun bytes =>
          ⟨bytes, header + length, some t⟩

/-- The literals at the start of `block`, at most `limit` of them. -/
def read? (block : Bytes) (table : Option Huffman.Table) (limit : Nat) : Option Literals :=
  if block.size < 2 then none
  else
    match bitsAt block 0 2 with
    | 0 => readRaw? block table limit
    | 1 => readRepeated? block table limit
    | 2 => readCoded? block false table limit
    | _ => readCoded? block true table limit

end Literals
end GameArchive.Zstd
