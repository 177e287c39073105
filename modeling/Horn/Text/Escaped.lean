import Horn.Text.Hidden

/-!
# Text in diagnostics

A text in double quotes. The quote, the backslash and the usual control characters are written with
a backslash, other characters that do not show by their number in hexadecimal.
-/

namespace Horn.Text

/-- A character by its number. -/
def numbered (c : Char) : String :=
  "\\u\x7b" ++ String.ofList (Nat.toDigits 16 c.toNat) ++ "\x7d"

/-- A character between double quotes. -/
def escapeChar (c : Char) : String :=
  if c = '"' then "\\\""
  else if c = '\\' then "\\\\"
  else if c = '\n' then "\\n"
  else if c = '\t' then "\\t"
  else if c = '\r' then "\\r"
  else if c.toNat = 0 then "\\0"
  else if c.toNat < 0x20 then numbered c
  else if c.toNat < 0x7f then c.toString
  else if isHidden c then numbered c
  else c.toString

/-- A text in double quotes. -/
def escaped (s : String) : String :=
  "\"" ++ s.toList.foldl (fun text c => text ++ escapeChar c) "" ++ "\""

end Horn.Text
