import GameArchive.Bytes
import GameArchive.Text.Utf16
/-! Name tables of VFS3 archives: the names of files and of folders, each list behind its count
and each name in UTF-16 behind which a zero unit stands. -/
namespace GameArchive.Vfs3

/-- The units from `position` up to the next zero unit, and the position behind that. -/
def unitsAt (data : Bytes) (position : Nat) : Except Error (List Nat × Nat) :=
  if position + 2 ≤ data.size then
    let unit := ofLittleEndian (data.extract position (position + 2)).toList
    if unit = 0 then .ok ([], position + 2)
    else
      match unitsAt data (position + 2) with
      | .error e => .error e
      | .ok (units, next) => .ok (unit :: units, next)
  else .error (.outOfBounds position 2 data.size)
termination_by data.size - position

/-- The name at `position`, and the position behind it. -/
def nameAt (data : Bytes) (position : Nat) : Except Error (String × Nat) :=
  match unitsAt data position with
  | .error e => .error e
  | .ok (units, next) =>
    match Text.Utf16.decode? units with
    | some name => .ok (name, next)
    | none => .error (.malformed (.unpairedSurrogate position))

/-- The `count` names from `position` on, and the position behind them. -/
def namesAt (data : Bytes) : (count position : Nat) → Except Error (List String × Nat)
  | 0, position => .ok ([], position)
  | count + 1, position => do
    let (name, next) ← nameAt data position
    let (names, stop) ← namesAt data count next
    .ok (name :: names, stop)

/-- The names whose count stands at `offset`, and the position behind them. As each takes two
bytes or more, a count for which too few bytes are left is refused at once. -/
def nameListAt (data : Bytes) (offset : Nat) : Except Error (List String × Nat) := do
  let count ← data.word offset 4
  let _ ← data.slice (offset + 4) (count * 2)
  namesAt data count (offset + 4)

/-- The element of a list that an id names. -/
def lookup? {α : Type} (list : List α) (id : Int) : Option α :=
  if id < 0 then none else list[id.toNat]?

/-- The names of an archive, by id. -/
structure NameTable where
  files : List String
  folders : List String
  deriving DecidableEq

namespace NameTable

/-- The name table at `offset`. -/
def parse (data : Bytes) (offset : Nat) : Except Error NameTable := do
  let (files, next) ← nameListAt data offset
  let (folders, _) ← nameListAt data next
  .ok ⟨files, folders⟩

/-- The name of a file. -/
def fileName (t : NameTable) (id : Int) : Except Error String :=
  match lookup? t.files id with
  | some name => .ok name
  | none => .error (.malformed (.unnamedId "file" id t.files.length))

/-- The name of a folder. -/
def folderName (t : NameTable) (id : Int) : Except Error String :=
  match lookup? t.folders id with
  | some name => .ok name
  | none => .error (.malformed (.unnamedId "folder" id t.folders.length))

end NameTable
end GameArchive.Vfs3
