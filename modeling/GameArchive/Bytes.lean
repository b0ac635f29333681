import GameArchive.Error
/-! Buffers of bytes and the numbers that stand in them, least significant byte first. -/
namespace GameArchive

/-- A buffer. -/
abbrev Bytes := Array UInt8

/-- The bound of positions and lengths. -/
def wordLimit : Nat := 0x10000000000000000

/-- The bound of the numbers that `width` bytes can hold. -/
def numberBound : (width : Nat) → Nat
  | 0 => 1
  | width + 1 => 256 * numberBound width

/-- The number whose bytes are `bytes`. -/
def ofLittleEndian : List UInt8 → Nat
  | [] => 0
  | b :: rest => b.toNat + 256 * ofLittleEndian rest

/-- The `width` lowest bytes of `n`. -/
def toLittleEndian : (width n : Nat) → List UInt8
  | 0, _ => []
  | width + 1, n => UInt8.ofNat n :: toLittleEndian width (n / 256)

/-- The integer that `width` bytes holding the number `n` stand for in two's complement. -/
def toSigned (width n : Nat) : Int :=
  if 2 * n < numberBound width then n else (n : Int) - numberBound width

/-- The number that `width` bytes hold for the integer `v` in two's complement. -/
def ofSigned (width : Nat) (v : Int) : Nat :=
  (v % numberBound width).toNat

@[simp]
theorem length_toLittleEndian (width n : Nat) : (toLittleEndian width n).length = width := by
  induction width generalizing n with
  | zero => rfl
  | succ width ih => simp [toLittleEndian, ih]

theorem ofLittleEndian_toLittleEndian (width n : Nat) :
    ofLittleEndian (toLittleEndian width n) = n % numberBound width := by
  induction width generalizing n with
  | zero => rw [toLittleEndian, ofLittleEndian, numberBound, Nat.mod_one]
  | succ width ih =>
    rw [toLittleEndian, ofLittleEndian, ih, UInt8.toNat_ofNat', numberBound, Nat.mod_mul]

namespace Bytes

/-- The `length` bytes from `offset` on. -/
def slice (data : Bytes) (offset length : Nat) : Except Error Bytes :=
  if offset + length ≤ data.size then .ok (data.extract offset (offset + length))
  else .error (.outOfBounds offset length data.size)

/-- The number held by the `width` bytes from `offset` on. -/
def word (data : Bytes) (offset width : Nat) : Except Error Nat :=
  (data.slice offset width).map fun bytes => ofLittleEndian bytes.toList

/-- The integer held by the `width` bytes from `offset` on. -/
def signedWord (data : Bytes) (offset width : Nat) : Except Error Int :=
  (data.word offset width).map (toSigned width)

/-- Refuses a buffer that does not hold `expected` at `offset`. -/
def expectMagic (data : Bytes) (offset : Nat) (expected : List UInt8) : Except Error Unit := do
  let found ← data.slice offset expected.length
  if found.toList = expected then .ok ()
  else .error (.malformed (.badMagic expected found.toList))

/-- `data` with the bytes from `offset` on replaced by `bytes`. The size stays: what would fall
behind the end is dropped. -/
def overwrite (data : Bytes) (offset : Nat) (bytes : Bytes) : Bytes :=
  data.mapIdx fun i b => if offset ≤ i then bytes.getD (i - offset) b else b

@[simp]
theorem size_overwrite (data : Bytes) (offset : Nat) (bytes : Bytes) :
    (data.overwrite offset bytes).size = data.size := by
  simp [overwrite]

theorem getElem?_overwrite (data : Bytes) (offset : Nat) (bytes : Bytes) (i : Nat) :
    (data.overwrite offset bytes)[i]? =
      data[i]?.map fun b => if offset ≤ i then bytes.getD (i - offset) b else b := by
  simp [overwrite]

/-- `length` zero bytes. -/
def zeros (length : Nat) : Bytes :=
  Array.replicate length 0

/-- `data` followed by zero bytes up to `length`. -/
def padTo (data : Bytes) (length : Nat) : Bytes :=
  data ++ zeros (length - data.size)

end Bytes
end GameArchive
