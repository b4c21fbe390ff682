import Botscript.Text.Numeral
import Botscript.Text.Visible

/-!
# Quoted text

Messages show a character or a text between quotes, so that it is clear where it ends: `quotedChar`
and `quotedText`. Inside, the quote and the backslash are marked, the common control characters
have letters, and what cannot be seen on its own is written as `\u{…}` with its code.
-/

namespace Botscript

/-- One character as it is shown between the quotes `quote`. -/
def shown (quote c : Char) : String :=
  if c = quote ∨ c = '\\' then String.ofList ['\\', c]
  else if c = '\x00' then "\\0"
  else if c = '\t' then "\\t"
  else if c = '\n' then "\\n"
  else if c = '\r' then "\\r"
  else if isVisible c then String.singleton c
  else "\\u\x7b" ++ Numeral.hex c.toNat ++ "\x7d"

/-- A character between single quotes. -/
def quotedChar (c : Char) : String := "'" ++ shown '\'' c ++ "'"

/-- A text between double quotes. -/
def quotedText (text : String) : String :=
  "\"" ++ String.join (text.toList.map (shown '"')) ++ "\""

end Botscript
