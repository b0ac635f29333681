/-! The kinds of field that a record can hold. -/
namespace GameArchive

/-- How the bytes of a field are to be read. Numbers have their least significant byte first. -/
inductive FieldKind where
  | u8
  | u16
  | i16
  | u32
  | i32
  | u64
  /-- Shift_JIS text, filled up with zero bytes. -/
  | text (width : Nat)
  /-- Bytes without a meaning of their own. -/
  | bytes (width : Nat)
  deriving DecidableEq

namespace FieldKind

/-- The number of bytes that a field of this kind takes. -/
def width : FieldKind → Nat
  | u8 => 1
  | u16 | i16 => 2
  | u32 | i32 => 4
  | u64 => 8
  | text n | bytes n => n

/-- Whether the field holds a number from zero up. -/
def isUnsigned : FieldKind → Bool
  | u8 | u16 | u32 | u64 => true
  | _ => false

/-- Whether the field holds a number that may be negative. -/
def isSigned : FieldKind → Bool
  | i16 | i32 => true
  | _ => false

/-- Whether the field holds text. -/
def isText : FieldKind → Bool
  | text _ => true
  | _ => false

/-- The name of the kind in messages. -/
def label : FieldKind → String
  | u8 => "U8"
  | u16 => "U16"
  | i16 => "I16"
  | u32 => "U32"
  | i32 => "I32"
  | u64 => "U64"
  | text n => s!"Str({n})"
  | bytes n => s!"Bytes({n})"

end FieldKind
end GameArchive
