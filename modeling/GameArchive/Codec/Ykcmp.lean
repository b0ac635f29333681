import GameArchive.Codec.BackCopy
/-! YKCMP streams: a header and a list of instructions, each an opcode byte with its operands, that
build the output from literal bytes and from copies of earlier output. -/
namespace GameArchive.Codec.Ykcmp

/-- The bytes that a stream starts with: `YKCMP_V1`. -/
def magic : List UInt8 := [0x59, 0x4B, 0x43, 0x4D, 0x50, 0x5F, 0x56, 0x31]

/-- The number of bytes in a header. -/
def headerSize : Nat := 0x14

/-- The value of the reserved word. -/
def reservedValue : Nat := 4

/-- The most bytes that a literal instruction can hold. -/
def literalLimit : Nat := 0x7F

/-- The sizes that a stream states of itself. -/
structure Header where
  /-- The length of the stream, header included. -/
  compressedSize : Nat
  decompressedSize : Nat
  deriving DecidableEq

namespace Header

/-- The header that stands at `offset`. -/
def parse (data : Bytes) (offset : Nat) : Except Error Header := do
  data.expectMagic offset magic
  let reserved ← data.word (offset + 0x08) 4
  if reserved ≠ reservedValue then .error (.malformed (.ykcmpReserved reserved))
  else
    let compressedSize ← data.word (offset + 0x0C) 4
    if compressedSize < headerSize then .error (.malformed (.ykcmpSizeTooSmall compressedSize))
    else
      let decompressedSize ← data.word (offset + 0x10) 4
      .ok ⟨compressedSize, decompressedSize⟩

/-- The bytes of the header. -/
def toBytes (h : Header) : List UInt8 :=
  magic ++ toLittleEndian 4 reservedValue ++ toLittleEndian 4 h.compressedSize ++
    toLittleEndian 4 h.decompressedSize

end Header

/-- One step in building the output. -/
inductive Instruction where
  /-- Copy from a position of the output. -/
  | absolute (source length : Nat)
  /-- Append the bytes given. -/
  | literal (bytes : List UInt8)
  /-- Copy 1 to 4 bytes from at most 16 back. -/
  | short (distance length : Nat)
  /-- Copy 2 to 33 bytes from at most 256 back. -/
  | medium (distance length : Nat)
  /-- Copy 3 to 514 bytes from at most 4096 back. -/
  | long (distance length : Nat)
  deriving DecidableEq

namespace Instruction

/-- How many operand bytes follow an opcode. -/
def operandCount (opcode : UInt8) : Nat :=
  if opcode = 0 then 6
  else if opcode < 0x80 then opcode.toNat
  else if opcode < 0xC0 then 0
  else if opcode < 0xE0 then 1
  else 2

/-- The instruction that an opcode and its operand bytes stand for. A long copy holds its length
in the first twelve bits and its distance in the last twelve. -/
def ofOperands (opcode : UInt8) (operands : List UInt8) : Instruction :=
  let n := opcode.toNat
  let x := (operands.map UInt8.toNat).getD 0 0
  let y := (operands.map UInt8.toNat).getD 1 0
  if opcode = 0 then
    .absolute (ofLittleEndian (operands.take 4)) (ofLittleEndian (operands.drop 4))
  else if opcode < 0x80 then .literal operands
  else if opcode < 0xC0 then .short (n % 16 + 1) (n / 16 - 8 + 1)
  else if opcode < 0xE0 then .medium (x + 1) (n - 0xC0 + 2)
  else .long (256 * (x % 16) + y + 1) (16 * (n - 0xE0) + x / 16 + 3)

/-- The bytes of an instruction. -/
def encode : Instruction → List UInt8
  | .absolute source length => 0 :: (toLittleEndian 4 source ++ toLittleEndian 2 length)
  | .literal bytes => UInt8.ofNat bytes.length :: bytes
  | .short distance length => [UInt8.ofNat (0x80 + 16 * (length - 1) + (distance - 1))]
  | .medium distance length => [UInt8.ofNat (0xC0 + (length - 2)), UInt8.ofNat (distance - 1)]
  | .long distance length =>
    [UInt8.ofNat (0xE0 + (length - 3) / 16),
     UInt8.ofNat (16 * ((length - 3) % 16) + (distance - 1) / 256),
     UInt8.ofNat (distance - 1)]

/-- Carry out an instruction on an output that may grow to `limit`. -/
def execute (limit : Nat) (out : Bytes) : Instruction → Except Error Bytes
  | .absolute source length => copyFrom limit out source length
  | .literal bytes => append limit out bytes.toArray
  | .short distance length
  | .medium distance length
  | .long distance length => copyBack limit out distance length

end Instruction

/-- What is missing when the operands of `opcode` end early, the input ending at `inputEnd` with
`available` bytes behind the opcode: all bytes of a literal, else the first absent byte. -/
def truncated (inputEnd : Nat) (opcode : UInt8) (available : Nat) : Error :=
  if opcode ≠ 0 ∧ opcode < 0x80 then
    .outOfBounds (inputEnd - available) opcode.toNat inputEnd
  else .outOfBounds inputEnd 1 inputEnd

/-- Carry out the instructions in `input`, which ends at position `inputEnd` of its buffer, on an
output that may grow to `limit`. -/
def run (limit inputEnd : Nat) (out : Bytes) (input : List UInt8) : Except Error Bytes :=
  match input with
  | [] => .ok out
  | opcode :: rest =>
    let count := Instruction.operandCount opcode
    let operands := rest.take count
    if operands.length < count then .error (truncated inputEnd opcode rest.length)
    else
      match Instruction.execute limit out (Instruction.ofOperands opcode operands) with
      | .error e => .error e
      | .ok out => run limit inputEnd out (rest.drop count)
termination_by input.length

/-- The output of the stream whose header stands at `offset`. Where the instructions leave it
short of the size stated, it ends in zero bytes. -/
def decompressAt (data : Bytes) (offset : Nat) : Except Error Bytes := do
  let header ← Header.parse data offset
  let start := offset + headerSize
  let input ← data.slice start (header.compressedSize - headerSize)
  let out ← run header.decompressedSize (start + input.size) #[] input.toList
  .ok (out.padTo header.decompressedSize)

/-- The output of the stream at the start of `data`. -/
def decompress (data : Bytes) : Except Error Bytes :=
  decompressAt data 0

/-- Whether `data` starts like a stream. -/
def isYkcmp (data : Bytes) : Bool :=
  magic.isPrefixOf data.toList

/-- Literal instructions that spell `data`, all but the last as long as they can be. -/
def literals (data : List UInt8) : List Instruction :=
  match data with
  | [] => []
  | b :: rest =>
    .literal ((b :: rest).take literalLimit) :: literals ((b :: rest).drop literalLimit)
termination_by data.length
decreasing_by simp only [List.length_drop, List.length_cons, literalLimit]; omega

/-- A stream of literal instructions whose output is `data`. -/
def compress (data : Bytes) : Except Error Bytes := do
  let body := (literals data.toList).flatMap Instruction.encode
  let compressedSize ← sizeField (headerSize + body.length)
  let decompressedSize ← sizeField data.size
  .ok ((Header.mk compressedSize decompressedSize).toBytes ++ body).toArray

end GameArchive.Codec.Ykcmp
