import Botscript.Parse.Cursor

/-!
# Nested productions

Statements, expressions, initial values and operands may stand inside one another, to a limited
depth. The grammar is written for a `Nested`, which holds the productions with one level less; an
`Item` is what a statement gives to its block.
-/

namespace Botscript.Parse

/-- A statement, as a block takes it in. -/
inductive Item where
  | empty
  | plain (text : String)
  | command (c : Command)
deriving DecidableEq, Repr

/-- The productions that count as a level of nesting. -/
structure Nested where
  statement : ParseM Item
  expression : ParseM Unit
  init : ParseM Unit
  operand : ParseM Unit

end Botscript.Parse
