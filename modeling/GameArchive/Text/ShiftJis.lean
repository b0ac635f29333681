import GameArchive.Text.ShiftJis.Rows
/-! Shift_JIS: one byte for ASCII and half-width katakana, two bytes for the cells of `rows`. -/
namespace GameArchive.Text.ShiftJis

/-- Stands for bytes that hold no character. -/
def replacement : Char := '\ufffd'

/-- The first row that is left to private use. -/
def firstPrivateRow : Nat := 94

/-- The first row after those left to private use. -/
def endPrivateRows : Nat := 114

/-- The first row that repeats characters of other rows. -/
def firstRepeatedRow : Nat := 88

/-- The character of cell number `pointer`, the rows being counted one after another. Rows for
private use map in order to the private code points from U+E000 on. -/
def characterAt (pointer : Nat) : Option Char :=
  let row := pointer / rowLength
  if firstPrivateRow ≤ row ∧ row < endPrivateRows then
    some (Char.ofNat (0xE000 + (pointer - firstPrivateRow * rowLength)))
  else
    match rows[row]? with
    | none => none
    | some cells => (cells[pointer % rowLength]?).filter (· ≠ '.')

/-- The number of the first cell that holds `c`, outside repeated and private rows. -/
def pointerOf (c : Char) : Option Nat :=
  rows.zipIdx.findSome? fun (cells, row) =>
    if firstRepeatedRow ≤ row ∧ row < endPrivateRows then none
    else (cells.idxOf? c).map (rowLength * row + ·)

/-- The character that `b` holds on its own. -/
def single? (b : UInt8) : Option Char :=
  let n := b.toNat
  if n ≤ 0x80 then some (Char.ofNat n)
  else if 0xA1 ≤ n ∧ n ≤ 0xDF then some (Char.ofNat (0xFF61 + (n - 0xA1)))
  else none

/-- Whether `b` is the first byte of a two-byte code. -/
def isLead (b : UInt8) : Bool :=
  (0x81 ≤ b && b ≤ 0x9F) || (0xE0 ≤ b && b ≤ 0xFC)

/-- The cell that a two-byte code names. -/
def pointer? (lead trail : UInt8) : Option Nat :=
  let l := lead.toNat - (if lead < 0xA0 then 0x81 else 0xC1)
  let t := trail.toNat
  if 0x40 ≤ t ∧ t ≤ 0x7E then some (188 * l + (t - 0x40))
  else if 0x80 ≤ t ∧ t ≤ 0xFC then some (188 * l + (t - 0x41))
  else none

/-- The two-byte code of a cell. -/
def pointerBytes (pointer : Nat) : List UInt8 :=
  let l := pointer / 188
  let t := pointer % 188
  [UInt8.ofNat (l + if l < 0x1F then 0x81 else 0xC1),
   UInt8.ofNat (t + if t < 0x3F then 0x40 else 0x41)]

/-- The characters that `bytes` hold. A two-byte code without a character reads as the
replacement character; if its second byte is ASCII, that byte is read again. -/
def decodeChars : List UInt8 → List Char
  | [] => []
  | b :: rest =>
    match single? b with
    | some c => c :: decodeChars rest
    | none =>
      if isLead b then
        match rest with
        | [] => [replacement]
        | t :: tail =>
          match (pointer? b t).bind characterAt with
          | some c => c :: decodeChars tail
          | none =>
            if t < 0x80 then replacement :: decodeChars (t :: tail)
            else replacement :: decodeChars tail
      else replacement :: decodeChars rest

/-- The text that `bytes` hold. -/
def decode (bytes : List UInt8) : String :=
  String.ofList (decodeChars bytes)

/-- The code of one character. The yen sign and the overline share the codes of the backslash and
the tilde, and the minus sign has the code of its full-width form. -/
def encodeChar (c : Char) : Option (List UInt8) :=
  let n := c.toNat
  if n ≤ 0x80 then some [UInt8.ofNat n]
  else if n = 0xA5 then some [0x5C]
  else if n = 0x203E then some [0x7E]
  else if 0xFF61 ≤ n ∧ n ≤ 0xFF9F then some [UInt8.ofNat (n - 0xFF61 + 0xA1)]
  else if n = 0x2212 then (pointerOf '\uff0d').map pointerBytes
  else (pointerOf c).map pointerBytes

/-- The codes of the characters of a text, one after another, if each has one. -/
def encodeChars : List Char → Option (List UInt8)
  | [] => some []
  | c :: cs =>
    match encodeChar c, encodeChars cs with
    | some bytes, some rest => some (bytes ++ rest)
    | _, _ => none

/-- The bytes that hold `s`, if each of its characters has a code. -/
def encode? (s : String) : Option (List UInt8) :=
  encodeChars s.toList

end GameArchive.Text.ShiftJis
