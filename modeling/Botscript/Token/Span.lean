import Botscript.Token.Basic

/-!
# Texts put together from tokens

The tree of a program keeps statements and conditions as text. `spanText` puts the images of tokens
together, and `statementText` does so for a statement with its semicolon.
-/

namespace Botscript

/-- The images of tokens with single spaces between them. -/
def spanText (tokens : List Token) : String := " ".intercalate (tokens.map Token.image)

/-- The text of a statement: a semicolon at the end follows without a space. -/
def statementText (tokens : List Token) : String :=
  match tokens.getLast? with
  | some last => if last.kind = .semicolon then spanText tokens.dropLast ++ ";" else spanText tokens
  | none => spanText tokens

end Botscript
