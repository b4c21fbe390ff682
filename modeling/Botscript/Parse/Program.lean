import Botscript.Parse.Statement

/-!
# Parsing programs

`Nested.ofLevels` closes the productions over the levels of nesting that are left; with none left,
each of them fails at the current token. `parse` reads a source text and `parseTokens` a list of
tokens, both for the functions that a registry knows; `parseTokensPlain` does so without remembering
what was read.
-/

namespace Botscript

namespace Parse

open ParseM

/-- The nested productions with a number of levels left. -/
def Nested.ofLevels : Nat → Nested
  | 0 => ⟨failTooDeep, failTooDeep, failTooDeep, failTooDeep⟩
  | left + 1 =>
    let inner := ofLevels left
    ⟨inner.statementBody, inner.expressionBody, inner.initBody, inner.operandBody⟩

/-- A whole program: `func`, a name, parameters and a body, and then nothing more. -/
def Nested.program (outer : Nested) : ParseM Program := do
  let _ ← expect .kwFunc
  let name ← expect .identifier
  let _ ← expect .lparen
  let params ← outer.parameters
  let _ ← expect .rparen
  let body ← outer.braced
  let _ ← expect .endOfInput
  return ⟨name.image, params, body⟩

/-- A whole program with all levels of nesting left. -/
def program : ParseM Program := (Nested.ofLevels maxNesting).program

/-- The program that the tokens of an input make up. -/
def Input.parse (input : Input) : Except ParseError Program :=
  match program.run input .initial with
  | .ok program _ => .ok program
  | .error failure c => .error (failure.report input c)

end Parse

/-- Parses tokens of a source. -/
def parseTokens (source : String) (tokens : List Token) (registry : Registry) :
    Except ParseError Program :=
  Parse.Input.parse ⟨source.toList, tokens.toArray, registry, true⟩

/-- Parses tokens of a source as `parseTokens` does, but reads each primary anew. -/
def parseTokensPlain (source : String) (tokens : List Token) (registry : Registry) :
    Except ParseError Program :=
  Parse.Input.parse ⟨source.toList, tokens.toArray, registry, false⟩

/-- Parses a source text. -/
def parse (source : String) (registry : Registry) : Except SourceError Program :=
  match tokenize source with
  | .error e => .error (.lexical e)
  | .ok tokens => (parseTokens source tokens registry).mapError .grammatical

end Botscript
