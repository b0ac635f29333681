import GameArchive.Proofs.Record
/-!
# Setters that work in place

A setter that is given the bytes of a record to change looks for the field first, then checks the
value, and then writes byte after byte. What it has written stays when it fails. Such a setter
agrees with the one that gives a new record: it fails with the same error, and then the bytes are
those it started from.
-/
namespace GameArchive

variable {l : Layout}

/-- A value for a field. -/
inductive Setting where
  | number (n : Nat)
  | integer (v : Int)
  | text (s : String)

namespace Record

/-- The record with a value in the field called `name`. -/
def set (r : Record l) (name : String) : Setting → Except Error (Record l)
  | .number n => r.setUint name n
  | .integer v => r.setInt name v
  | .text s => r.setStr name s

/-- The record with the byte `b` at position `k`. -/
def setByte (r : Record l) (k : Nat) (b : UInt8) : Record l :=
  ⟨r.raw.setIfInBounds k b, by rw [Array.size_setIfInBounds, r.size_raw]⟩

/-- The record with `bytes` standing at position `k`. -/
def overwrite (r : Record l) (k : Nat) (bytes : List UInt8) : Record l :=
  ⟨r.raw.overwrite k bytes.toArray, by rw [Bytes.size_overwrite, r.size_raw]⟩

theorem overwrite_nil (r : Record l) (k : Nat) : r.overwrite k [] = r := by
  apply ext
  apply Array.ext_getElem?
  intro i
  rw [overwrite, Bytes.getElem?_overwrite]
  simp

theorem overwrite_cons (r : Record l) (k : Nat) (b : UInt8) (rest : List UInt8) :
    r.overwrite k (b :: rest) = (r.setByte k b).overwrite (k + 1) rest := by
  apply ext
  apply Array.ext_getElem?
  intro i
  simp only [overwrite, setByte, Bytes.getElem?_overwrite, Array.getElem?_setIfInBounds]
  rcases Nat.lt_trichotomy i k with hlt | rfl | hlt
  · rw [if_neg (Nat.ne_of_gt hlt)]
    simp [Nat.not_le.mpr hlt, Nat.not_le.mpr (Nat.lt_succ_of_lt hlt)]
  · rcases Nat.lt_or_ge i r.raw.size with hi | hi
    · simp [hi, Nat.not_succ_le_self i]
    · simp [hi]
  · rw [if_neg (Nat.ne_of_lt hlt)]
    obtain ⟨j, rfl⟩ := Nat.exists_eq_add_of_lt hlt
    have hj : k + (j + 1) - (k + 1) = j := by omega
    simp [Nat.add_assoc, hj]

end Record

/-- A program that changes the bytes of a record, and may fail after it has changed some. -/
abbrev InPlace (l : Layout) := ExceptT Error (StateM (Record l))

namespace InPlace

/-- What a program gives for the record `r`, and what is in the place of `r` afterwards. -/
def on {α : Type} (program : InPlace l α) (r : Record l) : Except Error α × Record l :=
  program.run.run r

/-- Writes `bytes` one after another, the first one at position `k`. -/
def write (k : Nat) : List UInt8 → InPlace l Unit
  | [] => pure ()
  | b :: rest => do
    modify fun r => r.setByte k b
    write (k + 1) rest

/-- The field called `name`, if it can be found and `accepts` its kind. -/
def slotOf (accepts : FieldKind → Bool) (name : String) : InPlace l Field := do
  let r ← get
  ExceptT.mk (pure (r.slotOf accepts name))

/-- Writes the number `value` into the field called `name`. -/
def setUint (name : String) (value : Nat) : InPlace l Unit := do
  let f ← slotOf FieldKind.isUnsigned name
  if value < numberBound f.kind.width then write f.offset (toLittleEndian f.kind.width value)
  else throw (.malformed (.numberTooWide value l.name f.name))

/-- Writes the integer `value` into the field called `name`. -/
def setInt (name : String) (value : Int) : InPlace l Unit := do
  let f ← slotOf FieldKind.isSigned name
  let bound := numberBound f.kind.width
  if -bound ≤ 2 * value ∧ 2 * value < bound then
    write f.offset (toLittleEndian f.kind.width (ofSigned f.kind.width value))
  else throw (.malformed (.integerTooWide value l.name f.name))

/-- Writes the text `value` into the field called `name`, and zero bytes behind it up to the end
of the field. -/
def setStr (name : String) (value : String) : InPlace l Unit := do
  let f ← slotOf FieldKind.isText name
  match Text.ShiftJis.encode? value with
  | none => throw (.malformed (.notEncodable value))
  | some code =>
    if code.length ≤ f.kind.width then
      write f.offset code
      write (f.offset + code.length) (List.replicate (f.kind.width - code.length) 0)
    else throw (.malformed (.textTooLong value code.length f.kind.width))

/-- Writes a value into the field called `name`. -/
def set (name : String) : Setting → InPlace l Unit
  | .number n => setUint name n
  | .integer v => setInt name v
  | .text s => setStr name s

/-- What a program in place is to give, when `result` is the record that it leaves or the error
that it fails with. -/
def settle (r : Record l) : Except Error (Record l) → Except Error Unit × Record l
  | .ok r' => (.ok (), r')
  | .error err => (.error err, r)

variable {r : Record l}

theorem on_bind {α β : Type} (program : InPlace l α) (next : α → InPlace l β) (r : Record l) :
    (program >>= next).on r =
      match program.on r with
      | (.ok a, r') => (next a).on r'
      | (.error err, r') => (.error err, r') := by
  rcases h : program.on r with ⟨found, r'⟩
  unfold on at h ⊢
  rw [ExceptT.run_bind, StateT.run_bind, h]
  cases found <;> rfl

theorem on_slotOf (accepts : FieldKind → Bool) (name : String) :
    (slotOf accepts name).on r = (r.slotOf accepts name, r) :=
  rfl

theorem on_write (k : Nat) (bytes : List UInt8) (r : Record l) :
    (write k bytes).on r = (.ok (), r.overwrite k bytes) := by
  induction bytes generalizing k r with
  | nil => rw [Record.overwrite_nil]; rfl
  | cons b rest ih => rw [Record.overwrite_cons, ← ih]; rfl

/-- A setter looks for the field before it writes, so it is enough to follow it from there. -/
theorem on_slotOf_bind {accepts : FieldKind → Bool} {name : String}
    {next : Field → InPlace l Unit} {result : Field → Except Error (Record l)}
    (h : ∀ f, (next f).on r = settle r (result f)) :
    (slotOf accepts name >>= next).on r = settle r (r.slotOf accepts name >>= result) := by
  rw [on_bind, on_slotOf]
  cases r.slotOf accepts name with
  | error err => rfl
  | ok f => exact h f

theorem on_setUint (name : String) (value : Nat) (r : Record l) :
    (setUint name value).on r = settle r (r.setUint name value) := by
  apply on_slotOf_bind
  intro f
  unfold Record.putNumber
  split
  case isTrue => exact on_write ..
  case isFalse => rfl

theorem on_setInt (name : String) (value : Int) (r : Record l) :
    (setInt name value).on r = settle r (r.setInt name value) := by
  apply on_slotOf_bind
  intro f
  unfold Record.putInteger
  dsimp only
  split
  case isTrue => exact on_write ..
  case isFalse => rfl

theorem write_append (k : Nat) (a b : List UInt8) :
    (write k (a ++ b) : InPlace l Unit) = (do
      write k a
      write (k + a.length) b) := by
  induction a generalizing k with
  | nil => rw [write, pure_bind]; rfl
  | cons byte rest ih =>
    rw [List.cons_append, write, write, ih, bind_assoc, List.length_cons, Nat.add_right_comm]
    rfl

theorem on_setStr (name value : String) (r : Record l) :
    (setStr name value).on r = settle r (r.setStr name value) := by
  apply on_slotOf_bind
  intro f
  unfold Text.FixedText.encode
  cases Text.ShiftJis.encode? value with
  | none => rfl
  | some code =>
    dsimp only
    split
    case isTrue =>
      rw [← write_append]
      exact on_write ..
    case isFalse => rfl

/-- A setter in place gives the record that the setter makes. Where that fails, so does the setter
in place, and has written nothing. -/
theorem on_set (name : String) (setting : Setting) (r : Record l) :
    (set name setting).on r = settle r (r.set name setting) := by
  cases setting with
  | number n => exact on_setUint name n r
  | integer v => exact on_setInt name v r
  | text s => exact on_setStr name s r

end InPlace
end GameArchive
