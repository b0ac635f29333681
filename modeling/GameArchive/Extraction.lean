import GameArchive.Archive.Entry
import GameArchive.Extraction.FileTree
/-! Extraction: writing the entries of an archive below an empty folder. -/
namespace GameArchive.Extraction

/-- The path of each entry. -/
def targets : List Entry → Except Error (List (Entry × RelativePath))
  | [] => .ok []
  | e :: rest => do
    let path ← RelativePath.ofName e.name
    let others ← targets rest
    .ok ((e, path) :: others)

/-- The tree after one more entry. -/
def writeEntry (decompress : Entry → Except Error Bytes) (t : FileTree) (e : Entry)
    (path : RelativePath) : Except Error FileTree := do
  t.makeFolders path
  let bytes ← decompress e
  t.write path bytes

/-- The tree after more entries, up to the first that fails. -/
def writeEntries (decompress : Entry → Except Error Bytes) (t : FileTree) :
    List (Entry × RelativePath) → FileTree × Except Error Unit
  | [] => (t, .ok ())
  | (e, path) :: rest =>
    match writeEntry decompress t e path with
    | .error error => (t, .error error)
    | .ok t => writeEntries decompress t rest

/-- What extracting `entries` leaves, and how many files were written. Nothing is written unless
all names are paths below the folder. -/
def run (entries : List Entry) (decompress : Entry → Except Error Bytes) :
    FileTree × Except Error Nat :=
  match targets entries with
  | .error error => (.empty, .error error)
  | .ok targets =>
    let (t, outcome) := writeEntries decompress .empty targets
    (t, outcome.map fun _ => targets.length)

end GameArchive.Extraction
