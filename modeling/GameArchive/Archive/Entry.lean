import GameArchive.Bytes
/-! Entries: the named byte ranges that an archive lists. -/
namespace GameArchive

/-- What an archive says about the compression of an entry. -/
structure CompressionFlags where
  bits : Nat
  deriving DecidableEq

namespace CompressionFlags

/-- The flags of an entry of which nothing is said. -/
def none : CompressionFlags := ⟨0⟩

/-- Whether the payload is compressed: bit 1. -/
def isCompressed (f : CompressionFlags) : Bool :=
  f.bits / 2 % 2 == 1

/-- Whether the payload is compressed with zstd: bits 0 and 1. -/
def isZstd (f : CompressionFlags) : Bool :=
  f.isCompressed && f.bits % 2 == 1

/-- Whether the payload is compressed with zlib: bit 1 without bit 0. -/
def isZlib (f : CompressionFlags) : Bool :=
  f.isCompressed && !f.isZstd

end CompressionFlags

/-- A named byte range of an archive. -/
structure Entry where
  /-- The name, or the whole path in an archive with folders. -/
  name : String
  /-- Where the payload starts in the archive. -/
  offset : Nat
  /-- The number of bytes that the payload takes. -/
  size : Nat
  /-- The size of the payload after decompression, or else its size. -/
  decompressedSize : Nat
  flags : CompressionFlags
  /-- The number of the record that lists the entry. -/
  index : Nat
  deriving DecidableEq

namespace Entry

/-- Where the payload ends. -/
def endOffset (e : Entry) : Nat :=
  e.offset + e.size

/-- The bytes of the payload in `data`. -/
def read (e : Entry) (data : Bytes) : Except Error Bytes :=
  data.slice e.offset e.size

/-- The first entry called `name`. -/
def find (entries : List Entry) (name : String) : Except Error Entry :=
  match entries.find? fun e => e.name == name with
  | some e => .ok e
  | none => .error (.notFound name)

end Entry
end GameArchive
