import GameArchive.Archive.Flat
import GameArchive.Archive.Vfs3
import GameArchive.Extraction
/-! Containers: archives of any format. -/
namespace GameArchive

/-- The formats of archives. -/
inductive ContainerFormat where
  | flat (format : FlatFormat)
  | vfs3
  deriving DecidableEq

/-- An archive of some format. -/
inductive Container where
  | flat (format : FlatFormat) (archive : FlatArchive format)
  | vfs3 (archive : Vfs3.Archive)

namespace Container

/-- The archive that `data` holds. -/
def ofBytes : ContainerFormat → (data : Bytes) → Except Error Container
  | .flat format, data => (FlatArchive.ofBytes format data).map (.flat format)
  | .vfs3, data => (Vfs3.Archive.ofBytes data).map .vfs3

/-- The bytes of the archive. -/
def data : Container → Bytes
  | .flat _ a => a.data
  | .vfs3 a => a.data

/-- The entries of the archive. -/
def entries : Container → List Entry
  | .flat _ a => a.entries
  | .vfs3 a => a.entries

/-- The entry called `name`. -/
def find : Container → (name : String) → Except Error Entry
  | .flat _ a, name => a.find name
  | .vfs3 a, name => a.find name

/-- The payload of an entry as it is stored. -/
def read (c : Container) (e : Entry) : Except Error Bytes :=
  e.read c.data

/-- The payload of an entry with its compression undone. -/
def decompress : Container → Entry → Except Error Bytes
  | .flat _ a, e => a.decompress e
  | .vfs3 a, e => a.decompress e

/-- The archive in which `bytes` is the payload of the entry called `name`. VFS3 archives are not
changed. -/
def replace : Container → (name : String) → (bytes : Bytes) → (decompressedSize : Nat) →
    Except Error Container
  | .flat format a, name, bytes, decompressedSize =>
    (a.replace name bytes decompressedSize).map (.flat format)
  | .vfs3 _, name, _, _ => .error (.unsupported (.readOnly name))

/-- The bytes of the START.DAT archive that stands in the archive with compression. -/
def decompressStartDat : Container → Except Error Bytes
  | .flat _ a => a.decompressStartDat
  | .vfs3 a => a.decompressStartDat

/-- The files that extracting the archive leaves, and how many were written. -/
def extract (c : Container) : FileTree × Except Error Nat :=
  Extraction.run c.entries c.decompress

end Container
end GameArchive
