import Provenance.Text.Hex
import Provenance.Text.Visible

/-!
# Quoted text

A string literal is shown between double quotes. Six characters have a short escape; any other
character that cannot be shown as itself is written by its code point in hexadecimal.
-/

namespace Provenance.Text

/-- How a character is written between quotes. -/
def quoteChar (c : Char) : String :=
  if c = '\x00' then "\\0"
  else if c = '\t' then "\\t"
  else if c = '\r' then "\\r"
  else if c = '\n' then "\\n"
  else if c = '"' then "\\\""
  else if c = '\\' then "\\\\"
  else if isVisible c then c.toString
  else "\\u\x7b" ++ lowerHex c.toNat ++ "\x7d"

/-- A text between double quotes. -/
def quote (text : String) : String :=
  "\"" ++ String.join (text.toList.map quoteChar) ++ "\""

end Provenance.Text
