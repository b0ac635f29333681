import GameArchive.Codec.BackCopy
import GameArchive.Text.FixedText
/-! LZS streams: a header that names a flag byte, and a list of tokens. Every byte but the flag
stands for itself; the flag starts a copy of earlier output, or, doubled, stands for itself. -/
namespace GameArchive.Codec.Lzs

/-- The number of bytes in a header. -/
def headerSize : Nat := 0x10

/-- Where the compressed size starts to count: behind the extension. -/
def sizeOrigin : Nat := 0x04

/-- What a stream states of itself. -/
structure Header where
  /-- The file name extension of the output, four bytes of padded text. -/
  extension : Bytes
  decompressedSize : Nat
  /-- The length of the stream, the extension left out. -/
  compressedSize : Nat
  flag : UInt8
  deriving DecidableEq

namespace Header

/-- The header that stands at `offset`. -/
def parse (data : Bytes) (offset : Nat) : Except Error Header := do
  let extension ← data.slice offset 4
  let decompressedSize ← data.word (offset + 0x04) 4
  let compressedSize ← data.word (offset + 0x08) 4
  let flag ← data.word (offset + 0x0C) 1
  if compressedSize < headerSize - sizeOrigin then
    .error (.malformed (.lzsSizeTooSmall compressedSize))
  else .ok ⟨extension, decompressedSize, compressedSize, UInt8.ofNat flag⟩

/-- The extension as text. -/
def extensionText (h : Header) : String :=
  Text.FixedText.decode h.extension.toList

/-- The bytes of the header. The three behind the flag are reserved. -/
def toBytes (h : Header) : List UInt8 :=
  h.extension.toList ++ toLittleEndian 4 h.decompressedSize ++
    toLittleEndian 4 h.compressedSize ++ [h.flag, 0, 0, 0]

end Header

/-- One step in building the output. -/
inductive Token where
  /-- Append a byte. -/
  | literal (b : UInt8)
  /-- Copy earlier output. -/
  | copy (distance length : Nat)
  deriving DecidableEq

/-- The distance that a byte behind the flag stands for. The flag itself is passed over, so the
bytes above it stand for one less than their value. -/
def distanceOf (flag b : UInt8) : Nat :=
  if flag < b then b.toNat - 1 else b.toNat

/-- The byte that stands for a distance behind the flag. -/
def distanceByte (flag : UInt8) (distance : Nat) : UInt8 :=
  UInt8.ofNat (if distance < flag.toNat then distance else distance + 1)

/-- The bytes of a token. -/
def Token.encode (flag : UInt8) : Token → List UInt8
  | .literal b => if b = flag then [flag, flag] else [b]
  | .copy distance length => [flag, distanceByte flag distance, UInt8.ofNat length]

/-- Carry out the tokens in an input that ends at position `inputEnd` of its buffer, until the
output holds `limit` bytes. -/
def run (flag : UInt8) (limit inputEnd : Nat) (out : Bytes) : List UInt8 → Except Error Bytes
  | [] => .ok out
  | b :: rest =>
    if limit ≤ out.size then .ok out
    else if b ≠ flag then run flag limit inputEnd (out.push b) rest
    else
      match rest with
      | [] => .error (.outOfBounds inputEnd 1 inputEnd)
      | d :: rest =>
        if d = flag then run flag limit inputEnd (out.push flag) rest
        else
          match rest with
          | [] => .error (.outOfBounds inputEnd 1 inputEnd)
          | n :: rest =>
            match copyBack limit out (distanceOf flag d) n.toNat with
            | .error e => .error e
            | .ok out => run flag limit inputEnd out rest

/-- The output of the stream whose header stands at `offset`. Where the tokens leave it short of
the size stated, it ends in zero bytes. -/
def decompressAt (data : Bytes) (offset : Nat) : Except Error Bytes := do
  let header ← Header.parse data offset
  let start := offset + headerSize
  let inputEnd := offset + sizeOrigin + header.compressedSize
  let input ← data.slice start (inputEnd - start)
  let out ← run header.flag header.decompressedSize inputEnd #[] input.toList
  .ok (out.padTo header.decompressedSize)

/-- The output of the stream at the start of `data`. -/
def decompress (data : Bytes) : Except Error Bytes :=
  decompressAt data 0

/-- All byte values in ascending order. -/
def byteValues : List UInt8 :=
  (List.range 256).map UInt8.ofNat

/-- The least of the byte values that occur least often. -/
def leastFrequent (data : List UInt8) : UInt8 :=
  (byteValues.foldl (fun best b =>
    let n := data.count b
    if n < best.2 then (b, n) else best) (0, data.count 0)).1

/-- A stream of literal tokens whose output is `data`, made for files with this extension. -/
def compress (data : Bytes) (extension : String) : Except Error Bytes := do
  let flag := leastFrequent data.toList
  let body := data.toList.flatMap fun b => (Token.literal b).encode flag
  let decompressedSize ← sizeField data.size
  let compressedSize ← sizeField (headerSize - sizeOrigin + body.length)
  let extension ← Text.FixedText.encode extension sizeOrigin
  .ok ((Header.mk extension.toArray decompressedSize compressedSize flag).toBytes ++ body).toArray

end GameArchive.Codec.Lzs
