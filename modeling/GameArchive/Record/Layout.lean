import GameArchive.Adjacent
import GameArchive.Error
/-! Layouts: which fields a record of fixed size has, and where they stand in it. -/
namespace GameArchive

/-- One field of a layout. -/
structure Field where
  name : String
  /-- Where the field starts in the record. -/
  offset : Nat
  kind : FieldKind
  deriving DecidableEq

/-- Where the field ends in the record. -/
def Field.endOffset (f : Field) : Nat :=
  f.offset + f.kind.width

/-- The fields of a record of `size` bytes. -/
structure Layout where
  name : String
  size : Nat
  fields : List Field

namespace Layout

/-- The first field called `name`. -/
def field (l : Layout) (name : String) : Except Error Field :=
  match l.fields.find? fun f => f.name == name with
  | some f => .ok f
  | none => .error (.notFound (l.name ++ "." ++ name))

/-- Where the fields start and end, in ascending order. -/
def spans (l : Layout) : List (Nat × Nat) :=
  (l.fields.map fun f => (f.offset, f.endOffset)).mergeSort fun a b =>
    decide (a.1 < b.1 ∨ (a.1 = b.1 ∧ a.2 ≤ b.2))

/-- Whether every field ends inside the record and none reaches into the next one. -/
def isConsistent (l : Layout) : Bool :=
  (l.spans.all fun s => decide (s.2 ≤ l.size)) &&
    (findAdjacent? (fun a b => decide (b.1 < a.2)) l.spans).isNone

end Layout
end GameArchive
