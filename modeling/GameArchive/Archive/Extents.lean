import GameArchive.Adjacent
import GameArchive.Archive.Entry
/-! Where payloads may lie: inside the archive and, in some formats, apart from each other. -/
namespace GameArchive

/-- Refuses an entry whose payload does not end within `size` bytes. -/
def checkRange (size : Nat) (e : Entry) : Except Error Unit :=
  if wordLimit ≤ e.endOffset then .error (.malformed (.rangeOverflow e.name))
  else if size < e.endOffset then .error (.outOfBounds e.offset e.size size)
  else .ok ()

/-- Refuses entries of which one does not end within `size` bytes. -/
def checkRanges (size : Nat) : List Entry → Except Error Unit
  | [] => .ok ()
  | e :: rest =>
    match checkRange size e with
    | .error error => .error error
    | .ok () => checkRanges size rest

/-- The entries that take bytes, by where they start. -/
def byOffset (entries : List Entry) : List Entry :=
  (entries.filter fun e => decide (0 < e.size)).mergeSort fun a b => decide (a.offset ≤ b.offset)

/-- Refuses entries of which two share a byte. -/
def checkDisjoint (entries : List Entry) : Except Error Unit :=
  match findAdjacent? (fun a b => decide (b.offset < a.endOffset)) (byOffset entries) with
  | some (a, b) => .error (.malformed (.overlap a.name b.name))
  | none => .ok ()

/-- Refuses entries that do not end within `size` bytes, or of which two that should be disjoint
share a byte. -/
def checkExtents (size : Nat) (disjoint : Bool) (entries : List Entry) : Except Error Unit := do
  checkRanges size entries
  if disjoint then checkDisjoint entries else .ok ()

end GameArchive
