import Botscript.Text.Numeral

/-!
# Writing JSON

`Json.pretty` writes a value over several lines: two spaces a level, one item or member a line, and
empty brackets where there is nothing to list. Members keep their order, and characters beyond
ASCII stand for themselves.
-/

namespace Botscript

/-- A value to be written as JSON. -/
inductive Json where
  | null
  | number (n : Nat)
  | string (text : String)
  | list (items : List Json)
  | object (members : List (String × Json))
deriving Repr, Inhabited

namespace Json

/-- One character inside a string. -/
def stringChar (c : Char) : String :=
  match c with
  | '"' => "\\\""
  | '\\' => "\\\\"
  | '\x08' => "\\b"
  | '\x0c' => "\\f"
  | '\n' => "\\n"
  | '\r' => "\\r"
  | '\t' => "\\t"
  | c => if c.toNat < 32 then "\\u00" ++ Numeral.hexByte (.ofNat c.toNat) else c.toString

/-- A string between quotes. -/
def quote (text : String) : String := "\"" ++ String.join (text.toList.map stringChar) ++ "\""

/-- The start of a line at a level. -/
def newLine (level : Nat) : String := "\n" ++ String.join (List.replicate level "  ")

mutual

/-- A value that starts in a line of a level. -/
def prettyAt (level : Nat) : Json → String
  | null => "null"
  | number n => toString n
  | string text => quote text
  | list [] => "[]"
  | list (first :: rest) =>
    "[" ++ newLine (level + 1) ++ first.prettyAt (level + 1) ++ prettyItems (level + 1) rest ++
      newLine level ++ "]"
  | object [] => "\x7b\x7d"
  | object ((key, value) :: rest) =>
    "\x7b" ++ newLine (level + 1) ++ quote key ++ ": " ++ value.prettyAt (level + 1) ++
      prettyMembers (level + 1) rest ++ newLine level ++ "\x7d"

/-- The items of a list behind the first. -/
def prettyItems (level : Nat) : List Json → String
  | [] => ""
  | item :: rest => "," ++ newLine level ++ item.prettyAt level ++ prettyItems level rest

/-- The members of an object behind the first. -/
def prettyMembers (level : Nat) : List (String × Json) → String
  | [] => ""
  | (key, value) :: rest =>
    "," ++ newLine level ++ quote key ++ ": " ++ value.prettyAt level ++ prettyMembers level rest

end

/-- A value as a text of several lines. -/
def pretty (value : Json) : String := value.prettyAt 0

end Json

end Botscript
