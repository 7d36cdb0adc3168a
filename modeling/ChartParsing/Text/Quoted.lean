/-
ChartParsing/Text/Quoted.lean

Tokens as messages show them: in double quotes, every character that could not
be read back from the page escaped.

A double quote and a backslash take a backslash before them.  NUL, tab, line
feed and carriage return have short escapes.  Any other character that is not
printable, or that would merge with the one before it, is written by its code
point.
-/
import ChartParsing.Text.Combining

namespace ChartParsing.Text

/-- A code point in lower-case hexadecimal digits, without leading zeros. -/
def hex (code : Nat) : String := String.ofList (Nat.toDigits 16 code)

/-- One character as it stands between the quotes. -/
def quotedChar (c : Char) : String :=
  if c = '\x00' then "\\0"
  else if c = '\t' then "\\t"
  else if c = '\n' then "\\n"
  else if c = '\r' then "\\r"
  else if c = '"' then "\\\""
  else if c = '\\' then "\\\\"
  else if isCombining c || !isPrintable c then "\\u\x7b" ++ hex c.toNat ++ "\x7d"
  else c.toString

/-- A text in double quotes. -/
def quoted (s : String) : String := "\"" ++ String.join (s.toList.map quotedChar) ++ "\""

end ChartParsing.Text
