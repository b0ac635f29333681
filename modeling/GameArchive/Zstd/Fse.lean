import GameArchive.Zstd.Bits
/-! Finite state entropy coding: symbol distributions and the decoding tables made from them. -/
namespace GameArchive.Zstd.Fse

/-- How the cells of a table are shared out. -/
structure Distribution where
  /-- The table has two to this power cells. -/
  log : Nat
  /-- The cells that each symbol has, by symbol. A symbol with `-1` is rarer than one cell says
  and has one cell at the end of the table. -/
  counts : List Int

/-! ### Reading a distribution -/

/-- Where the reader goes on from bit `position` of a buffer of `size` bytes. It holds at most the
last four bytes, so a position behind the end falls back by whole words of 32 bits. -/
def settle (size position : Nat) : Nat :=
  if position < 8 * size then position
  else 8 * (size - 4) + (position - 8 * (size - 4)) % 32

/-- The count whose bits start at `position` when `remaining` cells and one more are to be shared
out, and where its bits end. Small values take one bit less than large ones. -/
def readCount (bytes : Bytes) (remaining position : Nat) : Int × Nat :=
  let threshold := 1 <<< remaining.log2
  let small := 2 * threshold - 1 - remaining
  let low := bitsAt bytes position remaining.log2
  if low < small then ((low : Int) - 1, position + remaining.log2)
  else
    let value := bitsAt bytes position (remaining.log2 + 1)
    let value := if threshold ≤ value then value - small else value
    ((value : Int) - 1, position + remaining.log2 + 1)

/-- How many symbols in a row have no cells, as stated from bit `position` on, and where the
statement ends. Each pair of set bits stands for three symbols and goes on; the pair after them
gives the rest. -/
def readAbsent (bytes : Bytes) : (fuel position skipped : Nat) → Nat × Nat
  | 0, position, skipped => (skipped, position)
  | fuel + 1, position, skipped =>
    if bitsAt bytes position 24 = 0xFFFFFF then
      readAbsent bytes fuel (settle bytes.size (position + 24)) (skipped + 36)
    else
      let pairs := (List.range 12).takeWhile fun k => bitsAt bytes (position + 2 * k) 2 = 3
      let next := position + 2 * pairs.length
      (skipped + 3 * pairs.length + bitsAt bytes next 2, next + 2)

/-- The counts of the symbols from bit `position` on, at most `room` of them, and where they end.
One more than the cells that are still to be shared out is `remaining`. -/
def readCounts (bytes : Bytes) : (room remaining position : Nat) → Option (List Int × Nat)
  | 0, _, _ => none
  | room + 1, remaining, position =>
    let (count, next) := readCount bytes remaining position
    let remaining := remaining - count.natAbs
    if remaining ≤ 1 then some ([count], next)
    else if count = 0 then
      let (skipped, next) := readAbsent bytes (bytes.size + 2) (settle bytes.size next) 0
      if room ≤ skipped then none
      else
        (readCounts bytes (room - skipped) remaining (settle bytes.size next)).map fun r =>
          (count :: (List.replicate skipped 0 ++ r.1), r.2)
    else
      (readCounts bytes room remaining (settle bytes.size next)).map fun r =>
        (count :: r.1, r.2)
termination_by room => room
decreasing_by all_goals omega

/-- The distribution of at most `symbols` symbols that stands at the start of `bytes`, and the
number of bytes it takes. -/
def Distribution.read? (bytes : Bytes) (symbols maxLog : Nat) : Option (Distribution × Nat) :=
  if bytes.size = 0 then none
  else
    let padded := bytes.padTo 8
    let log := bitsAt padded 0 4 + 5
    if maxLog < log then none
    else
      match readCounts padded symbols ((1 <<< log) + 1) 4 with
      | none => none
      | some (counts, position) =>
        let used := (position + 7) / 8
        if bytes.size < used then none else some (⟨log, counts⟩, used)

/-! ### Decoding tables -/

/-- One cell of a decoding table. -/
structure Cell where
  symbol : Nat
  /-- How many bits lead to the next cell. -/
  bits : Nat
  /-- The next cell when these bits are zero. -/
  base : Nat
  deriving Inhabited

/-- A decoding table: the state of the decoder is the number of a cell. -/
structure Table where
  /-- The number of bits that give the first state. -/
  log : Nat
  cells : Array Cell

namespace Table

/-- The cell of a state. -/
def cell (t : Table) (state : Nat) : Cell :=
  t.cells.getD state ⟨0, 0, 0⟩

/-- The table of a single symbol, which takes no bits. -/
def constant (symbol : Nat) : Table :=
  ⟨0, #[⟨symbol, 0, 0⟩]⟩

/-- The symbols whose count `holds`, each as often as `times` says. -/
def symbolsWhere (counts : List Int) (times : Int → Nat) : List Nat :=
  counts.zipIdx.flatMap fun (count, symbol) => List.replicate (times count) symbol

/-- The symbol of every cell. Rare symbols fill the table from its end. The cells of the others
are dealt out in steps of a little over five eighths of the table. -/
def spread (d : Distribution) : List Nat :=
  let size := 1 <<< d.log
  let rare := symbolsWhere d.counts fun count => if count = -1 then 1 else 0
  let common := symbolsWhere d.counts Int.toNat
  let step := size / 2 + size / 8 + 3
  let places := ((List.range size).map fun k => k * step % size).filter (· < size - rare.length)
  let dealt := (places.zip common).foldl (fun cells (place, symbol) => cells.setIfInBounds place symbol)
    (Array.replicate (size - rare.length) 0)
  dealt.toList ++ rare.reverse

/-- The table of a distribution. The cells of one symbol are numbered in order from its count on;
each leads to a range of cells as large as its number leaves bits to choose. -/
def ofDistribution (d : Distribution) : Table :=
  let first := d.counts.map fun count => if count = -1 then 1 else count.toNat
  let number := fun (state : Array Nat × Array Cell) (symbol : Nat) =>
    let n := state.1.getD symbol 0
    let bits := d.log - n.log2
    (state.1.setIfInBounds symbol (n + 1), state.2.push ⟨symbol, bits, (n <<< bits) - (1 <<< d.log)⟩)
  ⟨d.log, ((spread d).foldl number (first.toArray, #[])).2⟩

end Table
end GameArchive.Zstd.Fse
