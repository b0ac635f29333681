import GameArchive.Archive.Vfs3.Names
import GameArchive.Record.Table
/-! Folders of VFS3 archives, which name their parents, and the paths that follow from that. -/
namespace GameArchive.Vfs3

/-- A folder. -/
structure Folder where
  crc : Nat
  id : Int
  /-- The folder it lies in, or `rootParent`. -/
  parent : Int
  firstSubfolder : Int
  subfolderCount : Nat
  /-- How many files lie in it. -/
  fileCount : Nat
  deriving DecidableEq

/-- What stands in place of a parent in a folder that has none. -/
def rootParent : Int := -1

namespace Folder

/-! The fields of a folder record. -/

def crcField : Field := ⟨"crc", 0x00, .u32⟩
def idField : Field := ⟨"folder_id", 0x04, .i32⟩
def parentField : Field := ⟨"parent_folder_id", 0x08, .i32⟩
def firstSubfolderField : Field := ⟨"first_subfolder_id", 0x0C, .i32⟩
def subfolderCountField : Field := ⟨"subfolder_count", 0x10, .u32⟩
def reservedField : Field := ⟨"reserved", 0x14, .u32⟩
def fileCountField : Field := ⟨"file_count", 0x18, .u32⟩

/-- The layout of a folder record. -/
def layout : Layout :=
  ⟨"vfs3 folder", 0x1C,
    [crcField, idField, parentField, firstSubfolderField, subfolderCountField, reservedField,
     fileCountField]⟩

/-- The folder that a record describes. -/
def ofRecord (r : Record layout) : Folder where
  crc := r.number crcField
  id := r.integer idField
  parent := r.integer parentField
  firstSubfolder := r.integer firstSubfolderField
  subfolderCount := r.number subfolderCountField
  fileCount := r.number fileCountField

end Folder

/-- The last folder with an id, and its position. -/
def lastWithId? (folders : List Folder) (id : Int) : Option (Folder × Nat) :=
  folders.zipIdx.reverse.find? fun (folder, _) => folder.id == id

/-- `name` below the folder with the path `base`. The empty path needs no separator. -/
def joinPath (base name : String) : String :=
  if base.isEmpty then name else base ++ "/" ++ name

/-- The path of a folder, whose chain of parents may hold `fuel` folders. A chain that ends holds
each folder once at most, so one that takes more than there are runs in a circle; it is reported
for the folder `start` that it was followed from. -/
def pathWithin (folders : List Folder) (names : NameTable) (start : Int) : (fuel : Nat) →
    Folder → Except Error String
  | 0, _ => .error (.malformed (.cyclicFolder start))
  | fuel + 1, folder => do
    let name ← names.folderName folder.id
    if folder.parent = rootParent then .ok name
    else
      match lastWithId? folders folder.parent with
      | none => .error (.malformed (.unknownParent folder.id folder.parent))
      | some (parent, _) => do
        let base ← pathWithin folders names start fuel parent
        .ok (joinPath base name)

/-- The path of a folder. -/
def pathOf (folders : List Folder) (names : NameTable) (folder : Folder) : Except Error String :=
  pathWithin folders names folder.id (folders.length + 1) folder

/-- The paths of some folders. -/
def pathsOf (folders : List Folder) (names : NameTable) : List Folder →
    Except Error (List String)
  | [] => .ok []
  | folder :: rest => do
    let path ← pathOf folders names folder
    let paths ← pathsOf folders names rest
    .ok (path :: paths)

/-- The path of each folder. -/
def folderPaths (folders : List Folder) (names : NameTable) : Except Error (List String) :=
  pathsOf folders names folders

end GameArchive.Vfs3
