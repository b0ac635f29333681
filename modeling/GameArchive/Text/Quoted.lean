import GameArchive.Text.Combining
import GameArchive.Text.Unprintable
/-! Quoted text, in which every character can be seen or is given by its code point. -/
namespace GameArchive.Text

/-- The digits of `n` to the base sixteen, in lower case. -/
def hexDigits (n : Nat) : String :=
  String.ofList (Nat.toDigits 16 n)

/-- `n` to the base sixteen, marked as such. -/
def hexNumber (n : Nat) : String :=
  "0x" ++ hexDigits n

/-- The code point of `c` in braces. -/
def codePoint (c : Char) : String :=
  "\\u\x7b" ++ hexDigits c.toNat ++ "\x7d"

/-- How `c` stands between quotes. -/
def quotedChar (c : Char) : String :=
  if c = '\x00' then "\\0"
  else if c = '\t' then "\\t"
  else if c = '\r' then "\\r"
  else if c = '\n' then "\\n"
  else if c = '\\' then "\\\\"
  else if c = '"' then "\\\""
  else if isCombining c || isUnprintable c then codePoint c
  else String.singleton c

/-- `s` between quotes. -/
def quoted (s : String) : String :=
  "\"" ++ String.join (s.toList.map quotedChar) ++ "\""

end GameArchive.Text
