import Midend.Text.Extending
import Midend.Text.Visible

namespace Midend.Text

/-- The code point in lower-case hexadecimal without padding, between braces. -/
def codePoint (c : Char) : String :=
  "\\u\x7b" ++ String.ofList (Nat.toDigits 16 c.toNat) ++ "\x7d"

/-- A character as it stands between the quotes. A single quote needs no escape there. -/
def escape (c : Char) : String :=
  if c = '\x00' then "\\0"
  else if c = '\t' then "\\t"
  else if c = '\r' then "\\r"
  else if c = '\n' then "\\n"
  else if c = '\\' then "\\\\"
  else if c = '\"' then "\\\""
  else if isExtending c || !isVisible c then codePoint c
  else String.singleton c

def quoted (s : String) : String := "\"" ++ String.join (s.toList.map escape) ++ "\""

end Midend.Text
