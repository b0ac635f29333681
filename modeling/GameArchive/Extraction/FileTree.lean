import GameArchive.Bytes
import GameArchive.Extraction.RelativePath
/-! Files below a folder. A path holds either a file or a folder, and a part of a path has at most
255 bytes. -/
namespace GameArchive

/-- The files below a folder, at most one at each path. -/
structure FileTree where
  files : List (RelativePath × Bytes)

namespace FileTree

/-- A folder without files. -/
def empty : FileTree := ⟨[]⟩

/-- The most bytes that a part of a path can have. -/
def partLimit : Nat := 255

/-- Whether `part` can be the name of a file or a folder. -/
def fits (part : String) : Bool :=
  decide (part.utf8ByteSize ≤ partLimit)

/-- Whether `outer` is the path of a folder around `inner`. -/
def isAbove (outer inner : RelativePath) : Bool :=
  outer.isPrefixOf inner && decide (outer.length < inner.length)

/-- Refuses a path whose folders cannot be made. -/
def makeFolders (t : FileTree) (path : RelativePath) : Except Error Unit :=
  if path.dropLast.all fits && !(t.files.any fun file => isAbove file.1 path) then .ok ()
  else .error .unwritable

/-- The tree with `bytes` at `path`, in place of what the file there held. -/
def write (t : FileTree) (path : RelativePath) (bytes : Bytes) : Except Error FileTree :=
  if path.all fits && !(t.files.any fun file => isAbove path file.1) then
    .ok ⟨(path, bytes) :: t.files.filter fun file => file.1 != path⟩
  else .error .unwritable

/-- The paths as texts, in ascending order, with what the files hold. -/
def listing (t : FileTree) : List (String × Bytes) :=
  (t.files.map fun (path, bytes) => (path.text, bytes)).mergeSort fun a b => !decide (b.1 < a.1)

end FileTree
end GameArchive
