import GameArchive.Bytes
/-! Bits inside a buffer. Bit `8 * i + j` is bit `j` of byte `i`; past the end all bits are zero. -/
namespace GameArchive.Zstd

/-- The number held by the `count` bits from `position` on. -/
def bitsAt (bytes : Bytes) (position count : Nat) : Nat :=
  let first := position / 8
  let window := bytes.extract first ((position + count + 7) / 8)
  ofLittleEndian window.toList >>> (position % 8) % (1 <<< count)

theorem bitsAt_lt (bytes : Bytes) (position count : Nat) :
    bitsAt bytes position count < 1 <<< count :=
  Nat.mod_lt _ (by rw [Nat.one_shiftLeft]; exact Nat.two_pow_pos count)

/-- Bits that are read from the end of a buffer to its start. -/
structure BackwardBits where
  bytes : Bytes
  /-- How many bits are left. -/
  left : Nat

namespace BackwardBits

/-- The bits below the highest set bit of the last byte, which only marks where they end. -/
def ofBytes? (bytes : Bytes) : Option BackwardBits :=
  match bytes.back? with
  | none => none
  | some b => if b = 0 then none else some ⟨bytes, 8 * (bytes.size - 1) + b.toNat.log2⟩

/-- The next `count` bits, the first of them the most significant, and what is left. -/
def read? (bits : BackwardBits) (count : Nat) : Option (Nat × BackwardBits) :=
  if count ≤ bits.left then
    some (bitsAt bits.bytes (bits.left - count) count, { bits with left := bits.left - count })
  else none

/-- The next `count` bits, zeros standing in for bits that are not there. -/
def peek (bits : BackwardBits) (count : Nat) : Nat :=
  if count ≤ bits.left then bitsAt bits.bytes (bits.left - count) count
  else bitsAt bits.bytes 0 bits.left <<< (count - bits.left)

end BackwardBits
end GameArchive.Zstd
