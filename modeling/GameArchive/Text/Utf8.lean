/-! Reading UTF-8 that may be damaged. Each longest run of bytes that begins a character without
completing it, and each byte that begins none, reads as the replacement character. -/
namespace GameArchive.Text.Utf8

/-- Stands for bytes that hold no character. -/
def replacement : Char := '\ufffd'

/-- A character of which some bytes have been read. -/
structure Pending where
  /-- The bits read so far. -/
  value : Nat
  /-- How many bytes are still to come. -/
  missing : Nat
  /-- The least byte that may come next. -/
  least : UInt8
  /-- The greatest byte that may come next. -/
  greatest : UInt8

/-- Read a byte that continues no character. -/
def start (b : UInt8) : List Char × Option Pending :=
  let n := b.toNat
  if n < 0x80 then ([Char.ofNat n], none)
  else if n < 0xC2 then ([replacement], none)
  else if n < 0xE0 then ([], some ⟨n - 0xC0, 1, 0x80, 0xBF⟩)
  else if n = 0xE0 then ([], some ⟨0, 2, 0xA0, 0xBF⟩)
  else if n = 0xED then ([], some ⟨0xD, 2, 0x80, 0x9F⟩)
  else if n < 0xF0 then ([], some ⟨n - 0xE0, 2, 0x80, 0xBF⟩)
  else if n = 0xF0 then ([], some ⟨0, 3, 0x90, 0xBF⟩)
  else if n < 0xF4 then ([], some ⟨n - 0xF0, 3, 0x80, 0xBF⟩)
  else if n = 0xF4 then ([], some ⟨4, 3, 0x80, 0x8F⟩)
  else ([replacement], none)

/-- Read one byte: the characters that it settles, and what is pending after it. -/
def step : Option Pending → UInt8 → List Char × Option Pending
  | none, b => start b
  | some p, b =>
    if p.least ≤ b ∧ b ≤ p.greatest then
      let value := 64 * p.value + (b.toNat - 0x80)
      if p.missing ≤ 1 then ([Char.ofNat value], none)
      else ([], some ⟨value, p.missing - 1, 0x80, 0xBF⟩)
    else
      let (cs, next) := start b
      (replacement :: cs, next)

/-- Read the bytes that come after a pending character. -/
def decodeFrom : Option Pending → List UInt8 → List Char
  | none, [] => []
  | some _, [] => [replacement]
  | p, b :: rest =>
    let (cs, next) := step p b
    cs ++ decodeFrom next rest

/-- The text that `bytes` hold, damage replaced. -/
def decodeLossy (bytes : List UInt8) : String :=
  String.ofList (decodeFrom none bytes)

end GameArchive.Text.Utf8
