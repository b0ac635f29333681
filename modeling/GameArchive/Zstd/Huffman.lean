import GameArchive.Zstd.Fse
/-! Huffman codes, given by the weights of their symbols: a symbol of weight `w` takes `2 ^ (w - 1)`
cells of the table, and a symbol of weight zero does not occur. -/
namespace GameArchive.Zstd.Huffman

/-- The most bits that a code can have. -/
def maxLog : Nat := 12

/-! ### Weights -/

/-- The next `count` bits, if no bits have been missing before; zero if bits are missing. -/
def take (bits : Option BackwardBits) (count : Nat) : Nat × Option BackwardBits :=
  match bits.bind (·.read? count) with
  | some (value, rest) => (value, some rest)
  | none => (0, none)

/-- The symbols that two states in turn give until bits are missing, at most `room` and one more. -/
def alternate (t : Fse.Table) : (room now later : Nat) → Option BackwardBits → Option (List Nat)
  | 0, _, _, _ => none
  | room + 1, now, later, bits =>
    let cell := t.cell now
    match take bits cell.bits with
    | (_, none) => some [cell.symbol, (t.cell later).symbol]
    | (value, some rest) =>
      (alternate t room later (cell.base + value) (some rest)).map (cell.symbol :: ·)

/-- The weights that `bytes` hold in compressed form. -/
def compressedWeights? (bytes : Bytes) : Option (List Nat) :=
  match Fse.Distribution.read? bytes 256 6 with
  | none => none
  | some (d, used) =>
    let t := Fse.Table.ofDistribution d
    match BackwardBits.ofBytes? (bytes.extract used bytes.size) with
    | none => none
    | some bits =>
      let (now, bits) := take (some bits) t.log
      let (later, bits) := take bits t.log
      alternate t 254 now later bits

/-- The weights that stand at the start of `bytes`, the last one left out, and the number of bytes
they take. -/
def readWeights? (bytes : Bytes) : Option (List Nat × Nat) :=
  match bytes[0]? with
  | none => none
  | some first =>
    let n := first.toNat
    if n < 128 then
      if bytes.size < n + 1 then none
      else (compressedWeights? (bytes.extract 1 (n + 1))).map fun weights => (weights, n + 1)
    else
      let count := n - 127
      let used := (count + 1) / 2 + 1
      if bytes.size < used then none
      else
        let halves := (bytes.extract 1 used).toList.flatMap fun b => [b.toNat / 16, b.toNat % 16]
        some (halves.take count, used)

/-- The cells that a symbol of this weight takes. -/
def cellsOf (weight : Nat) : Nat :=
  if weight = 0 then 0 else 1 <<< (weight - 1)

/-- The cells that symbols of these weights take. -/
def cellTotal (weights : List Nat) : Nat :=
  weights.foldr (fun weight total => cellsOf weight + total) 0

/-- The weights of a full code: the last symbol takes what the others leave of the table. -/
def complete? (weights : List Nat) : Option (List Nat) :=
  let total := cellTotal weights
  if weights.any (maxLog < ·) then none
  else if total = 0 then none
  else
    let log := total.log2 + 1
    let rest := (1 <<< log) - total
    if maxLog < log ∨ 1 <<< rest.log2 ≠ rest then none
    else
      let weights := weights ++ [rest.log2 + 1]
      let ones := weights.count 1
      if ones < 2 ∨ ones % 2 = 1 then none else some weights

/-! ### Tables -/

/-- A decoding table, indexed by the next bits. -/
structure Table where
  /-- How many bits index the table. -/
  log : Nat
  /-- The symbol that the bits start with and the length of its code. -/
  cells : Array (UInt8 × Nat)

namespace Table

/-- The table of a full code. Symbols of lower weight, and of equal weight the lower ones, stand
in front. -/
def ofWeights (weights : List Nat) : Table :=
  let log := (cellTotal weights).log2
  let ofWeight := fun (weight : Nat) =>
    weights.zipIdx.flatMap fun (w, symbol) =>
      if w = weight then
        List.replicate (cellsOf weight) (UInt8.ofNat symbol, log + 1 - weight)
      else []
  ⟨log, (((List.range log).map (· + 1)).flatMap ofWeight).toArray⟩

/-- The table that stands at the start of `bytes`, and the number of bytes it takes. -/
def read? (bytes : Bytes) : Option (Table × Nat) :=
  match readWeights? bytes with
  | none => none
  | some (weights, used) => (complete? weights).map fun weights => (ofWeights weights, used)

/-- `out` followed by the next `count` symbols, and the bits that are left. -/
def decode? (t : Table) : (count : Nat) → Bytes → BackwardBits → Option (Bytes × BackwardBits)
  | 0, out, bits => some (out, bits)
  | count + 1, out, bits =>
    let (symbol, length) := t.cells.getD (bits.peek t.log) (0, 0)
    match bits.read? length with
    | none => none
    | some (_, rest) => decode? t count (out.push symbol) rest

/-- The `count` symbols that fill `bytes`. -/
def decodeStream? (t : Table) (count : Nat) (bytes : Bytes) : Option Bytes :=
  match (BackwardBits.ofBytes? bytes).bind (t.decode? count #[]) with
  | none => none
  | some (out, bits) => if bits.left = 0 then some out else none

/-- The `count` symbols at the end of `bytes`. -/
def decodeEnd? (t : Table) (count : Nat) (bytes : Bytes) : Option Bytes :=
  let bits := (BackwardBits.ofBytes? bytes).getD ⟨bytes, 8 * bytes.size⟩
  (t.decode? count #[] bits).map (·.1)

/-- Where the streams of four-stream code end: the lengths of the first three stand in front of
them, and the last takes the rest. -/
def streamEnds (bytes : Bytes) : Nat × Nat × Nat × Nat :=
  let first := 6 + bitsAt bytes 0 16
  let second := first + bitsAt bytes 16 16
  (first, second, second + bitsAt bytes 32 16, bytes.size)

/-- The most bits that a code can have for streams to be read in step. -/
def steppedLog : Nat := 11

/-- The least number of bytes that each stream must have for streams to be read in step. -/
def steppedLength : Nat := 8

/-- The `count` symbols of four streams. The first three give a quarter each, rounded up. Each
stream has to be used up, except where all are long and codes short: then the streams are read in
step, and one that runs out goes on in the bytes before it. -/
def decodeFourStreams? (t : Table) (count : Nat) (bytes : Bytes) : Option Bytes :=
  let (a, b, c, d) := streamEnds bytes
  let quarter := (count + 3) / 4
  if bytes.size < 10 ∨ d < c ∨ count < 3 * quarter then none
  else
    let stepped := decide (t.log ≤ steppedLog ∧ 3 * quarter < count ∧
      steppedLength ≤ a - 6 ∧ steppedLength ≤ b - a ∧ steppedLength ≤ c - b ∧ steppedLength ≤ d - c)
    let stream := fun (count start stop : Nat) =>
      if stepped then t.decodeEnd? count (bytes.extract 0 stop)
      else t.decodeStream? count (bytes.extract start stop)
    match stream quarter 6 a, stream quarter a b, stream quarter b c,
      stream (count - 3 * quarter) c d with
    | some first, some second, some third, some fourth =>
      some (first ++ second ++ third ++ fourth)
    | _, _, _, _ => none

end Table
end GameArchive.Zstd.Huffman
