import GameArchive.Archive.Entry
/-! Making room for a payload of another size. The entries stored behind it move by the
difference; all others stay. -/
namespace GameArchive

/-- Where a payload is to lie. -/
structure Placement where
  offset : Nat
  size : Nat
  deriving DecidableEq

/-- Where the payload is to end. -/
def Placement.endOffset (p : Placement) : Nat :=
  p.offset + p.size

/-- Where all payloads are to lie when one is replaced. -/
structure Relayout where
  /-- A placement for each entry, in the order of the entries. -/
  placements : List Placement
  /-- The position of the entry that is replaced. -/
  target : Nat
  deriving DecidableEq

namespace Relayout

/-- Whether entry `i` is stored before entry `j`. At one offset, empty entries come before others,
and else the order of the list decides. -/
def storedBefore (a : Entry) (i : Nat) (b : Entry) (j : Nat) : Bool :=
  decide (a.offset < b.offset) ||
    (a.offset == b.offset &&
      ((a.size == 0 && b.size != 0) || ((a.size == 0) == (b.size == 0) && decide (i < j))))

/-- Whether two entries overlap. An empty entry overlaps one that it lies strictly inside. -/
def sharesBytes (a b : Entry) : Bool :=
  if a.size = 0 then
    if b.size = 0 then false
    else decide (b.offset < a.offset ∧ a.offset < b.endOffset)
  else if b.size = 0 then decide (a.offset < b.offset ∧ b.offset < a.endOffset)
  else decide (a.offset < b.endOffset ∧ b.offset < a.endOffset)

/-- The placement of entry `i` when entry `target`, that is `old`, takes `size` bytes. -/
def place (old : Entry) (target size : Nat) (e : Entry) (i : Nat) : Except Error Placement :=
  if i = target then .ok ⟨e.offset, size⟩
  else if storedBefore old target e i then
    if e.offset + size < old.size then .error (.malformed (.movedBeforeStart e.name))
    else .ok ⟨e.offset + size - old.size, e.size⟩
  else .ok ⟨e.offset, e.size⟩

/-- Placements of the entries from number `i` on. -/
def placeFrom (old : Entry) (target size : Nat) : (i : Nat) → List Entry →
    Except Error (List Placement)
  | _, [] => .ok []
  | i, e :: rest => do
    let p ← place old target size e i
    let others ← placeFrom old target size (i + 1) rest
    .ok (p :: others)

/-- The first entry from number `i` on, the target apart, that overlaps `old`. -/
def findShared? (old : Entry) (target : Nat) : (i : Nat) → List Entry → Option Entry
  | _, [] => none
  | i, e :: rest =>
    if i ≠ target ∧ sharesBytes old e then some e else findShared? old target (i + 1) rest

/-- The placements when the first entry called `name` takes `size` bytes. Its bytes must not be
shared, as they could not follow both owners. -/
def ofReplacement (entries : List Entry) (name : String) (size : Nat) : Except Error Relayout :=
  let target := entries.findIdx fun e => e.name == name
  match entries[target]? with
  | none => .error (.notFound name)
  | some old =>
    match findShared? old target 0 entries with
    | some other => .error (.malformed (.sharedBytes name other.name))
    | none => (placeFrom old target size 0 entries).map fun placements => ⟨placements, target⟩

/-- Where the last payload is to end. -/
def totalLength (r : Relayout) : Nat :=
  r.placements.foldl (fun total p => max total p.endOffset) 0

/-- Copy payloads into `out`: the entries' own bytes in `data`, or `bytes` for the target. -/
def copyPayloads (data : Bytes) (target : Nat) (bytes : Bytes) : (i : Nat) →
    List (Entry × Placement) → Bytes → Bytes
  | _, [], out => out
  | i, (e, p) :: rest, out =>
    let payload := if i = target then bytes else data.extract e.offset e.endOffset
    copyPayloads data target bytes (i + 1) rest (out.overwrite p.offset payload)

/-- How many bytes in front of the payloads stay as they are in `data`: those before the first
payload, and at least the directory. -/
def headLength (r : Relayout) (data : Bytes) (directoryEnd : Nat) (entries : List Entry) : Nat :=
  let first := (entries.map (·.offset)).min?.getD 0
  max (min first (min (max r.totalLength directoryEnd) data.size)) directoryEnd

/-- The bytes with every payload at its place, `bytes` being that of the target, and zero bytes
between them. The directory is still the old one. -/
def assemble (r : Relayout) (data : Bytes) (directoryEnd : Nat) (entries : List Entry)
    (bytes : Bytes) : Bytes :=
  let head : Bytes := data.extract 0 (r.headLength data directoryEnd entries)
  copyPayloads data r.target bytes 0 (entries.zip r.placements)
    (head.padTo (max r.totalLength directoryEnd))

end Relayout
end GameArchive
