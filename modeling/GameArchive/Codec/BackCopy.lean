import GameArchive.Bytes
/-! Copies inside a growing output. A copy reads and writes one byte at a time, so a source that
reaches the bytes being written repeats. -/
namespace GameArchive.Codec

/-- `out` followed by `length` bytes, read one after another from position `source` on. -/
def copyOnto (out : Bytes) (source : Nat) : (length : Nat) → Bytes
  | 0 => out
  | length + 1 => copyOnto (out.push (out.getD source 0)) (source + 1) length

@[simp]
theorem size_copyOnto (out : Bytes) (source length : Nat) :
    (copyOnto out source length).size = out.size + length := by
  induction length generalizing out source with
  | zero => rfl
  | succ length ih => rw [copyOnto, ih, Array.size_push]; omega

/-- `out` followed by `length` bytes copied from position `source` on. The copy has to start
inside `out` and end at `limit` or before; a copy of no bytes is always possible. -/
def copyFrom (limit : Nat) (out : Bytes) (source length : Nat) : Except Error Bytes :=
  if length = 0 then .ok out
  else if out.size ≤ source then .error (.outOfBounds source length out.size)
  else if limit < out.size + length then .error (.outOfBounds out.size length limit)
  else .ok (copyOnto out source length)

/-- `out` followed by `length` bytes copied from `distance` bytes before its end. -/
def copyBack (limit : Nat) (out : Bytes) (distance length : Nat) : Except Error Bytes :=
  if out.size < distance then .error (.outOfBounds out.size distance out.size)
  else copyFrom limit out (out.size - distance) length

/-- `out` followed by `bytes`, which have to end at `limit` or before. -/
def append (limit : Nat) (out bytes : Bytes) : Except Error Bytes :=
  if limit < out.size + bytes.size then .error (.outOfBounds out.size bytes.size limit)
  else .ok (out ++ bytes)

/-- The bound of the sizes that stream headers state. -/
def sizeLimit : Nat := 0x100000000

/-- The size of a stream, if its header can state it. -/
def sizeField (size : Nat) : Except Error Nat :=
  if size < sizeLimit then .ok size else .error (.outOfBounds 0 size (sizeLimit - 1))

end GameArchive.Codec
