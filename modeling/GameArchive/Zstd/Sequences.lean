import GameArchive.Codec.BackCopy
import GameArchive.Zstd.Literals
/-! The sequences of a compressed block. Each takes some literals and then copies a match from
earlier output; its lengths and its distance are coded with three tables that take turns. -/
namespace GameArchive.Zstd

/-! ### Codes -/

/-- A code stands for `base` and the number in the `bits` that follow it. -/
structure Code where
  base : Nat
  bits : Nat

/-- One kind of number in a sequence. -/
structure CodeKind where
  /-- What each code stands for. -/
  codes : List Code
  /-- The most bits that a state of its table can have. -/
  maxLog : Nat
  /-- The table of a block that states none. -/
  standard : Fse.Distribution

namespace CodeKind

/-- Codes that stand side by side, from `base` on, given how many bits each has. -/
def ranges (base : Nat) : List Nat → List Code
  | [] => []
  | bits :: rest => ⟨base, bits⟩ :: ranges (base + (1 <<< bits)) rest

/-- Numbers of literals. -/
def literalLength : CodeKind where
  codes := ranges 0 (List.replicate 16 0 ++
    [1, 1, 1, 1, 2, 2, 3, 3, 4, 6, 7, 8, 9, 10, 11, 12, 13, 14, 15, 16])
  maxLog := 9
  standard := ⟨6, [4, 3, 2, 2, 2, 2, 2, 2, 2, 2, 2, 2, 2, 1, 1, 1, 2, 2, 2, 2, 2, 2, 2, 2, 2, 3,
    2, 1, 1, 1, 1, 1, -1, -1, -1, -1]⟩

/-- Lengths of matches. -/
def matchLength : CodeKind where
  codes := ranges 3 (List.replicate 32 0 ++
    [1, 1, 1, 1, 2, 2, 3, 3, 4, 4, 5, 7, 8, 9, 10, 11, 12, 13, 14, 15, 16])
  maxLog := 9
  standard := ⟨6, [1, 4, 3, 2, 2, 2, 2, 2, 2, 1, 1, 1, 1, 1, 1, 1, 1, 1, 1, 1, 1, 1, 1, 1, 1, 1,
    1, 1, 1, 1, 1, 1, 1, 1, 1, 1, 1, 1, 1, 1, 1, 1, 1, 1, 1, 1, -1, -1, -1, -1, -1, -1, -1]⟩

/-- Distances of matches, three added to those that are given outright. -/
def offset : CodeKind where
  codes := (List.range 32).map fun n => ⟨1 <<< n, n⟩
  maxLog := 8
  standard := ⟨5, [1, 1, 1, 1, 1, 1, 2, 2, 2, 1, 1, 1, 1, 1, 1, 1, 1, 1, 1, 1, 1, 1, 1, 1, -1, -1,
    -1, -1, -1]⟩

/-- What `symbol` stands for. -/
def code (k : CodeKind) (symbol : Nat) : Code :=
  k.codes.getD symbol ⟨0, 0⟩

/-- The table of this kind that stands at the start of `bytes`, if `mode` calls for one, and the
number of bytes it takes: the standard table, that of one symbol, a new one, or the one before. -/
def readTable? (k : CodeKind) (mode : Nat) (before : Option Fse.Table) (bytes : Bytes) :
    Option (Fse.Table × Nat) :=
  match mode with
  | 0 => some (Fse.Table.ofDistribution k.standard, 0)
  | 1 =>
    match bytes[0]? with
    | none => none
    | some b => if b.toNat < k.codes.length then some (Fse.Table.constant b.toNat, 1) else none
  | 2 =>
    (Fse.Distribution.read? bytes k.codes.length k.maxLog).map fun (d, used) =>
      (Fse.Table.ofDistribution d, used)
  | _ => before.map fun t => (t, 0)

end CodeKind

/-- The tables of the three kinds. -/
structure SequenceTables where
  literalLength : Fse.Table
  offset : Fse.Table
  matchLength : Fse.Table

/-! ### Decoding -/

/-- What a sequence says. -/
structure Sequence where
  literalLength : Nat
  distance : Nat
  matchLength : Nat

/-- The last three distances, the latest first. -/
structure Recent where
  first : Nat
  second : Nat
  third : Nat

namespace Recent

/-- The distances at the start of a frame. -/
def initial : Recent :=
  ⟨1, 4, 8⟩

/-- The distance that an offset value stands for, and the recent distances after it. The values 1
to 3 repeat a recent distance; without literals they are read one further on, the last of them as
one less than the latest distance. -/
def resolve (r : Recent) (value literalLength : Nat) : Nat × Recent :=
  if 3 < value then (value - 3, ⟨value - 3, r.first, r.second⟩)
  else
    match if literalLength = 0 then value + 1 else value with
    | 1 => (r.first, r)
    | 2 => (r.second, ⟨r.second, r.first, r.third⟩)
    | 3 => (r.third, ⟨r.third, r.first, r.second⟩)
    | _ => (r.first - 1, ⟨r.first - 1, r.first, r.second⟩)

end Recent

/-- Where a decoder of sequences stands: the states of its tables, the recent distances and the
bits that are left. -/
structure SequenceState where
  literalLength : Nat
  offset : Nat
  matchLength : Nat
  recent : Recent
  bits : BackwardBits

namespace SequenceState

/-- The state that the first bits give. -/
def start? (tables : SequenceTables) (recent : Recent) (bits : BackwardBits) :
    Option SequenceState := do
  let (literalLength, bits) ← bits.read? tables.literalLength.log
  let (offset, bits) ← bits.read? tables.offset.log
  let (matchLength, bits) ← bits.read? tables.matchLength.log
  some ⟨literalLength, offset, matchLength, recent, bits⟩

/-- The sequence that the state holds, its extra bits taken from those that are left. -/
def sequence? (s : SequenceState) (tables : SequenceTables) : Option (Sequence × SequenceState) := do
  let offset := CodeKind.offset.code (tables.offset.cell s.offset).symbol
  let matching := CodeKind.matchLength.code (tables.matchLength.cell s.matchLength).symbol
  let literal := CodeKind.literalLength.code (tables.literalLength.cell s.literalLength).symbol
  let (offsetExtra, bits) ← s.bits.read? offset.bits
  let (matchExtra, bits) ← bits.read? matching.bits
  let (literalExtra, bits) ← bits.read? literal.bits
  let literalLength := literal.base + literalExtra
  let (distance, recent) := s.recent.resolve (offset.base + offsetExtra) literalLength
  some (⟨literalLength, distance, matching.base + matchExtra⟩, { s with recent, bits })

/-- The state after a sequence that is not the last. -/
def advance? (s : SequenceState) (tables : SequenceTables) : Option SequenceState := do
  let literalLength := tables.literalLength.cell s.literalLength
  let matchLength := tables.matchLength.cell s.matchLength
  let offset := tables.offset.cell s.offset
  let (literalStep, bits) ← s.bits.read? literalLength.bits
  let (matchStep, bits) ← bits.read? matchLength.bits
  let (offsetStep, bits) ← bits.read? offset.bits
  some { s with
    literalLength := literalLength.base + literalStep
    matchLength := matchLength.base + matchStep
    offset := offset.base + offsetStep
    bits }

/-- `count` sequences, which have to use up all bits, and the recent distances after them. -/
def sequences? (tables : SequenceTables) : (count : Nat) → SequenceState →
    Option (List Sequence × Recent)
  | 0, s => if s.bits.left = 0 then some ([], s.recent) else none
  | count + 1, s =>
    match s.sequence? tables with
    | none => none
    | some (sequence, s) =>
      match if count = 0 then some s else s.advance? tables with
      | none => none
      | some s => (sequences? tables count s).map fun r => (sequence :: r.1, r.2)

end SequenceState

/-! ### Reading and carrying out -/

/-- The sequences of a block, and what reading them leaves. -/
structure Sequences where
  list : List Sequence
  tables : Option SequenceTables
  recent : Recent

namespace Sequences

/-- The number of sequences, and where the statement of it ends. -/
def readCount? (bytes : Bytes) : Option (Nat × Nat) :=
  match bytes[0]? with
  | none => none
  | some b =>
    if b < 0x80 then some (b.toNat, 1)
    else if b < 0xFF then
      if bytes.size < 2 then none else some (256 * (b.toNat - 0x80) + bitsAt bytes 8 8, 2)
    else if bytes.size < 3 then none
    else some (bitsAt bytes 8 16 + 0x7F00, 3)

/-- The three tables that the byte at `position` calls for, and where they end. -/
def readTables? (bytes : Bytes) (position : Nat) (before : Option SequenceTables) :
    Option (SequenceTables × Nat) := do
  let modes ← bytes[position]?
  if modes.toNat % 4 ≠ 0 then none
  else
    let position := position + 1
    let (literalLength, used) ← CodeKind.literalLength.readTable? (modes.toNat / 64)
      (before.map (·.literalLength)) (bytes.extract position bytes.size)
    let position := position + used
    let (offset, used) ← CodeKind.offset.readTable? (modes.toNat / 16 % 4)
      (before.map (·.offset)) (bytes.extract position bytes.size)
    let position := position + used
    let (matchLength, used) ← CodeKind.matchLength.readTable? (modes.toNat / 4 % 4)
      (before.map (·.matchLength)) (bytes.extract position bytes.size)
    some (⟨literalLength, offset, matchLength⟩, position + used)

/-- The sequences that fill `bytes`. -/
def read? (bytes : Bytes) (before : Option SequenceTables) (recent : Recent) :
    Option Sequences := do
  let (count, position) ← readCount? bytes
  if count = 0 then
    if position = bytes.size then some ⟨[], before, recent⟩ else none
  else
    let (tables, position) ← readTables? bytes position before
    let bits ← BackwardBits.ofBytes? (bytes.extract position bytes.size)
    let state ← SequenceState.start? tables recent bits
    let (list, recent) ← state.sequences? tables count
    some ⟨list, some tables, recent⟩

/-- `out` after some sequences, which take their literals from `position` on, and behind them all
literals that are left. The output may grow to `limit`. -/
def execute? (limit : Nat) (literals : Bytes) (out : Bytes) (position : Nat) :
    List Sequence → Option Bytes
  | [] =>
    if limit < out.size + (literals.size - position) then none
    else some (out ++ literals.extract position literals.size)
  | s :: rest =>
    if limit < out.size + s.literalLength + s.matchLength then none
    else if literals.size < position + s.literalLength then none
    else
      let out := out ++ literals.extract position (position + s.literalLength)
      if s.distance = 0 ∨ out.size < s.distance then none
      else
        execute? limit literals (Codec.copyOnto out (out.size - s.distance) s.matchLength)
          (position + s.literalLength) rest

end Sequences
end GameArchive.Zstd
