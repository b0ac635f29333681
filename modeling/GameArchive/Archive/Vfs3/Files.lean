import GameArchive.Archive.Entry
import GameArchive.Archive.Vfs3.Chunks
import GameArchive.Record.Table
import GameArchive.Zstd.Frame
/-! Files of VFS3 archives, and what has to agree between a file and its chunks. -/
namespace GameArchive.Vfs3

/-- What an archive records of a file. -/
structure File where
  /-- Where the payload starts in the data. -/
  dataOffset : Nat
  compressedSize : Nat
  decompressedSize : Nat
  crc : Nat
  id : Int
  /-- The folder that the file lies in. -/
  folder : Int
  flags : CompressionFlags
  /-- The dictionary that the payload needs, or `noDictionary`. -/
  dictionary : Int
  deriving DecidableEq

/-- What stands in place of a dictionary where none is needed. -/
def noDictionary : Int := -1

namespace File

/-! The fields of a file record. -/

def dataOffsetField : Field := ⟨"data_offset", 0x00, .u64⟩
def compressedSizeField : Field := ⟨"compressed_size", 0x08, .u64⟩
def decompressedSizeField : Field := ⟨"decompressed_size", 0x10, .u64⟩
def crcField : Field := ⟨"crc", 0x18, .u32⟩
def idField : Field := ⟨"file_id", 0x1C, .i32⟩
def folderField : Field := ⟨"parent_folder_id", 0x20, .i32⟩
def flagsField : Field := ⟨"flags", 0x24, .u16⟩
def dictionaryField : Field := ⟨"dict_id", 0x26, .i16⟩

/-- The layout of a file record. -/
def layout : Layout :=
  ⟨"vfs3 file", 0x28,
    [dataOffsetField, compressedSizeField, decompressedSizeField, crcField, idField, folderField,
     flagsField, dictionaryField]⟩

/-- The file that a record describes. -/
def ofRecord (r : Record layout) : File where
  dataOffset := r.number dataOffsetField
  compressedSize := r.number compressedSizeField
  decompressedSize := r.number decompressedSizeField
  crc := r.number crcField
  id := r.integer idField
  folder := r.integer folderField
  flags := ⟨r.number flagsField⟩
  dictionary := r.integer dictionaryField

/-- A quantity that a file and its chunks both state: what it is, what is expected and what is
found. -/
def statement (file : File) (chunks : List Int) : String × Nat × Nat :=
  if file.flags.isCompressed then
    if chunks.isEmpty then ("chunk count", 1, 0)
    else ("chunk sizes", file.compressedSize, Zstd.chunkTotal chunks)
  else if chunks.isEmpty then
    ("decompressed size", file.compressedSize, file.decompressedSize)
  else ("chunk count", 0, chunks.length)

/-- Refuses a file that is packed in a way not provided for or that its chunks do not agree
with. -/
def check (file : File) (name : String) (chunks : List Int) : Except Error Unit :=
  if file.flags.isZlib then .error (.unsupported (.zlib name file.id file.flags.bits))
  else if file.dictionary ≠ noDictionary then
    .error (.unsupported (.dictionary name file.id file.dictionary))
  else
    let (what, expected, found) := file.statement chunks
    if expected = found then .ok ()
    else .error (.sizeMismatch (what ++ " of " ++ Text.quoted name) expected found)

end File
end GameArchive.Vfs3
