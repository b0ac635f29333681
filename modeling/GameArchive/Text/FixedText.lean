import GameArchive.Error
import GameArchive.Text.ShiftJis
/-! Shift_JIS text in a field of fixed width, filled up with zero bytes. -/
namespace GameArchive.Text.FixedText

/-- The text in `field`: it ends at the first zero byte, or else at the end of the field. -/
def decode (field : List UInt8) : String :=
  ShiftJis.decode (field.takeWhile (· ≠ 0))

/-- The field of `width` bytes that holds `s`. -/
def encode (s : String) (width : Nat) : Except Error (List UInt8) :=
  match ShiftJis.encode? s with
  | none => .error (.malformed (.notEncodable s))
  | some bytes =>
    if bytes.length ≤ width then .ok (bytes ++ List.replicate (width - bytes.length) 0)
    else .error (.malformed (.textTooLong s bytes.length width))

end GameArchive.Text.FixedText
