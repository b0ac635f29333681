/-! Texts as lists of 16-bit units. -/
namespace GameArchive.Text.Utf16

/-- The characters that `units` spell, unless a surrogate stands alone. -/
def decodeChars : List Nat → Option (List Char)
  | [] => some []
  | u :: rest =>
    if u < 0xD800 ∨ 0xE000 ≤ u then (decodeChars rest).map (Char.ofNat u :: ·)
    else if 0xDC00 ≤ u then none
    else
      match rest with
      | [] => none
      | v :: tail =>
        if 0xDC00 ≤ v ∧ v < 0xE000 then
          (decodeChars tail).map
            (Char.ofNat (0x10000 + 0x400 * (u - 0xD800) + (v - 0xDC00)) :: ·)
        else none

/-- The text that `units` spell, unless a surrogate stands alone. -/
def decode? (units : List Nat) : Option String :=
  (decodeChars units).map String.ofList

end GameArchive.Text.Utf16
