import ClassScript.Text.Visible

/-!
# Quoted text

Text between double quotes.  Quotes and backslashes stand behind a backslash, four control characters
have letters, and every other character that is not visible is written by its code point.
-/

namespace ClassScript.Text

/-- How a character is written between double quotes. -/
def escaped (c : Char) : String :=
  if c = '"' then "\\\""
  else if c = '\\' then "\\\\"
  else if c = '\n' then "\\n"
  else if c = '\r' then "\\r"
  else if c = '\t' then "\\t"
  else if c.toNat = 0 then "\\0"
  else if isVisible c then c.toString
  else "\\u\x7b" ++ String.ofList (Nat.toDigits 16 c.toNat) ++ "\x7d"

/-- A text between double quotes. -/
def quoted (s : String) : String := "\"" ++ String.join (s.toList.map escaped) ++ "\""

end ClassScript.Text
