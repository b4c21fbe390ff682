import Botscript.Token.Basic

/-!
# Why a program is refused

A `ParseError` names the offending token and a cause; a `SourceError` is either that or a fault in
the spelling of the source. Messages begin with the place of the token.
-/

namespace Botscript

/-- The number of nested statements, expressions, initial values and operands that a program may
have. -/
def maxNesting : Nat := 100

/-- What is wrong with a token. -/
inductive ParseError.Cause where
  /-- The token is none of the kinds that could stand there, listed in order. -/
  | unexpected (expected : List Token.Kind)
  /-- The token calls a function that is not registered. -/
  | unknownFunction
  /-- The token would start one level of nesting too many. -/
  | tooDeep
deriving DecidableEq, Repr

/-- A fault in the grammar of a program. -/
structure ParseError where
  token : Token
  cause : ParseError.Cause
deriving DecidableEq, Repr

namespace ParseError

/-- Whether a program could not be read on at the token. -/
def isUnexpected (e : ParseError) : Bool :=
  match e.cause with
  | .unexpected _ => true
  | _ => false

/-- What a message says about the kinds that could have stood there. -/
def expectation : List Token.Kind → String
  | [] => ""
  | [kind] => ", expected " ++ kind.spelling
  | kinds => ", expected one of " ++ ", ".intercalate (kinds.map Token.Kind.spelling)

/-- A message without its place. -/
def complaint (e : ParseError) : String :=
  match e.cause with
  | .unexpected expected => "unexpected " ++ e.token.describe ++ expectation expected
  | .unknownFunction => "Invalid function call: " ++ e.token.image
  | .tooDeep => "nested too deeply (limit " ++ toString maxNesting ++ ")"

/-- A message with its place. -/
def message (e : ParseError) : String := e.token.pos.announce ++ e.complaint

end ParseError

/-- Why a source text is no program. -/
inductive SourceError where
  | lexical (e : LexError)
  | grammatical (e : ParseError)
deriving DecidableEq, Repr

/-- The message of either fault. -/
def SourceError.message : SourceError → String
  | lexical e => e.message
  | grammatical e => e.message

end Botscript
