import GameArchive.Error
/-! Entry names as paths below a folder. -/
namespace GameArchive

/-- A path below a folder: the names of the folders on the way and of the file. -/
abbrev RelativePath := List String

namespace RelativePath

/-- Whether `c` stands between the parts of a name. -/
def isSeparator (c : Char) : Bool :=
  c == '/' || c == '\\'

/-- The runs of characters between separators, empty ones included. -/
def runs : List Char → List (List Char)
  | [] => [[]]
  | c :: rest =>
    if isSeparator c then [] :: runs rest
    else
      match runs rest with
      | [] => [[c]]
      | run :: others => (c :: run) :: others

/-- The parts of a name. -/
def parts (name : String) : List String :=
  ((runs name.toList).filter fun run => !run.isEmpty).map String.ofList

/-- Whether a part could lead out of the folder. -/
def isUnsafe (part : String) : Bool :=
  part == "." || part == ".." || part.toList.contains ':'

/-- The path that a name stands for. -/
def ofName (name : String) : Except Error RelativePath :=
  let parts := parts name
  if parts.any isUnsafe then .error (.malformed (.escapesFolder name))
  else if parts.isEmpty then .error (.malformed (.notFileName name))
  else .ok parts

/-- The path in one text. -/
def text (p : RelativePath) : String :=
  "/".intercalate p

end RelativePath
end GameArchive
