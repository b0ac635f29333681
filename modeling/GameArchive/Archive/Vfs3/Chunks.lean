import GameArchive.Archive.Vfs3.Names
/-! Chunk tables of VFS3 archives: for each file the lengths of the zstd blocks of its payload,
negative for a block that stands for itself. -/
namespace GameArchive.Vfs3

/-- The `count` integers from `position` on. -/
def integersAt (data : Bytes) (position : Nat) : (count : Nat) → Except Error (List Int)
  | 0 => .ok []
  | count + 1 => do
    let first ← data.signedWord position 4
    let others ← integersAt data (position + 4) count
    .ok (first :: others)

/-- The lists that fill the bytes from `position` to `stop`, each behind its length in bytes. -/
def listsAt (data : Bytes) (stop position : Nat) : Except Error (List (List Int)) :=
  if position < stop then
    if stop < position + 4 then
      .error (.malformed (.chunkHeaderCrossesEnd position stop))
    else
      match data.word position 4 with
      | .error e => .error e
      | .ok length =>
        if length % 4 ≠ 0 ∨ stop < position + 4 + length then
          .error (.malformed (.chunkListTooLong (position + 4) length stop))
        else do
          let list ← integersAt data (position + 4) (length / 4)
          let others ← listsAt data stop (position + 4 + length)
          .ok (list :: others)
  else .ok []
termination_by stop - position

/-- The chunks of each file, by id. -/
structure ChunkTable where
  lists : List (List Int)
  deriving DecidableEq

namespace ChunkTable

/-- The chunk table at `offset`. -/
def parse (data : Bytes) (offset : Nat) : Except Error ChunkTable := do
  let length ← data.word offset 4
  let _ ← data.slice (offset + 4) length
  let lists ← listsAt data (offset + 4 + length) (offset + 4)
  .ok ⟨lists⟩

/-- The chunks of a file. -/
def ofFile (t : ChunkTable) (id : Int) : Except Error (List Int) :=
  match lookup? t.lists id with
  | some list => .ok list
  | none => .error (.malformed (.noChunkList id))

end ChunkTable
end GameArchive.Vfs3
