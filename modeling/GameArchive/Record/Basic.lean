import GameArchive.Bytes
import GameArchive.Record.Layout
import GameArchive.Text.FixedText
/-! Records: the bytes of one entry of a layout, read and changed field by field. -/
namespace GameArchive

/-- The bytes of one record. -/
structure Record (l : Layout) where
  raw : Bytes
  size_raw : raw.size = l.size

namespace Record

variable {l : Layout}

/-- The record that `raw` holds. -/
def ofBytes (l : Layout) (raw : Bytes) : Except Error (Record l) :=
  if h : raw.size = l.size then .ok ⟨raw, h⟩
  else .error (.sizeMismatch l.name l.size raw.size)

/-- The record of zero bytes. -/
def zeroed (l : Layout) : Record l :=
  ⟨Bytes.zeros l.size, by simp [Bytes.zeros]⟩

/-- The bytes of `f`, as far as they lie inside the record. -/
def contents (r : Record l) (f : Field) : List UInt8 :=
  (r.raw.extract f.offset f.endOffset).toList

/-- The number in `f`. -/
def number (r : Record l) (f : Field) : Nat :=
  ofLittleEndian (r.contents f)

/-- The integer in `f`. -/
def integer (r : Record l) (f : Field) : Int :=
  toSigned f.kind.width (r.number f)

/-- The text in `f`. -/
def string (r : Record l) (f : Field) : String :=
  Text.FixedText.decode (r.contents f)

/-- The record with `bytes` standing at the start of `f`. -/
def put (r : Record l) (f : Field) (bytes : List UInt8) : Record l :=
  ⟨r.raw.overwrite f.offset bytes.toArray, by rw [Bytes.size_overwrite, r.size_raw]⟩

/-- The record with the number `value` in `f`, if it is below the bound of the field. -/
def putNumber (r : Record l) (f : Field) (value : Nat) : Except Error (Record l) :=
  if value < numberBound f.kind.width then .ok (r.put f (toLittleEndian f.kind.width value))
  else .error (.malformed (.numberTooWide value l.name f.name))

/-- The record with the integer `value` in `f`, if the field can hold it. -/
def putInteger (r : Record l) (f : Field) (value : Int) : Except Error (Record l) :=
  let bound := numberBound f.kind.width
  if -bound ≤ 2 * value ∧ 2 * value < bound then
    .ok (r.put f (toLittleEndian f.kind.width (ofSigned f.kind.width value)))
  else .error (.malformed (.integerTooWide value l.name f.name))

/-- The field called `name`, if its bytes lie inside the record. -/
def slot (r : Record l) (name : String) : Except Error Field := do
  let f ← l.field name
  if f.endOffset ≤ r.raw.size then .ok f
  else .error (.outOfBounds f.offset f.kind.width r.raw.size)

/-- The field called `name`, if its bytes lie inside the record and `accepts` its kind. -/
def slotOf (r : Record l) (accepts : FieldKind → Bool) (name : String) : Except Error Field := do
  let f ← r.slot name
  if accepts f.kind then .ok f else .error (.malformed (.wrongKind l.name name f.kind))

/-- The number in the field called `name`. -/
def uint (r : Record l) (name : String) : Except Error Nat :=
  (r.slotOf FieldKind.isUnsigned name).map r.number

/-- The integer in the field called `name`. -/
def int (r : Record l) (name : String) : Except Error Int :=
  (r.slotOf FieldKind.isSigned name).map r.integer

/-- The text in the field called `name`. -/
def str (r : Record l) (name : String) : Except Error String :=
  (r.slotOf FieldKind.isText name).map r.string

/-- The bytes of the field called `name`. -/
def bytes (r : Record l) (name : String) : Except Error Bytes :=
  (r.slot name).map fun f => (r.contents f).toArray

/-- The record with the number `value` in the field called `name`. -/
def setUint (r : Record l) (name : String) (value : Nat) : Except Error (Record l) := do
  let f ← r.slotOf FieldKind.isUnsigned name
  r.putNumber f value

/-- The record with the integer `value` in the field called `name`. -/
def setInt (r : Record l) (name : String) (value : Int) : Except Error (Record l) := do
  let f ← r.slotOf FieldKind.isSigned name
  r.putInteger f value

/-- The record with the text `value` in the field called `name`. -/
def setStr (r : Record l) (name : String) (value : String) : Except Error (Record l) := do
  let f ← r.slotOf FieldKind.isText name
  let bytes ← Text.FixedText.encode value f.kind.width
  .ok (r.put f bytes)

/-- What a field holds, by its kind. -/
inductive Value where
  | unsigned (n : Nat)
  | signed (v : Int)
  | text (s : String)
  | bytes (b : Bytes)

/-- What the field called `name` holds, read as a field of kind `kind`. -/
def value (r : Record l) (name : String) (kind : FieldKind) : Except Error Value :=
  match kind with
  | .u8 | .u16 | .u32 | .u64 => (r.uint name).map .unsigned
  | .i16 | .i32 => (r.int name).map .signed
  | .text _ => (r.str name).map .text
  | .bytes _ => (r.bytes name).map .bytes

/-- The names of the fields in order, each with what is found under that name. -/
def values (r : Record l) : List (String × Except Error Value) :=
  l.fields.map fun f => (f.name, r.value f.name f.kind)

end Record
end GameArchive
