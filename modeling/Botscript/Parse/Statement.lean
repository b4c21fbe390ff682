import Botscript.Parse.Expression
import Botscript.Token.Span

/-!
# Statements

Statements become the commands of a block: plain ones are kept as text, neighbours together in one
procedure, and control structures and calls are commands of their own. As for expressions, nested
statements are taken from a `Nested` with one level less.
-/

namespace Botscript.Parse

open Token ParseM

/-- A block after one more statement. -/
def Item.addTo (b : Block) : Item → Block
  | empty => b
  | plain text => b.addStatement text
  | command c => b ++ [c]

/-- The block of a sequence of statements. -/
def Item.block (items : List Item) : Block := items.foldl Item.addTo []

/-- The kinds that a statement starts with. -/
def statementStarts : List Kind :=
  [.kwVar, .kwIf, .kwWhile, .kwBreak, .kwContinue, .kwReturn, .lbrace, .semicolon, .identifier,
   .lparen] ++ literals ++ unaryOperators

/-- The text of the tokens from an index up to the current one. -/
def textFrom (start : Nat) : ParseM String :=
  return spanText ((← read).span start (← position))

/-- The plain statement from an index up to the current token. -/
def plainFrom (start : Nat) : ParseM Item :=
  return .plain (statementText ((← read).span start (← position)))

/-- The call that the tokens from `start` up to `stop` are, if they are one call and no more. -/
def wholeCall? (start stop : Nat) : ParseM (Option Call) := do
  let input ← read
  match (← get).calls.find? fun site => site.name = start ∧ site.closing + 1 = stop with
  | some site =>
    return (input.registry (input.token site.name).image).map fun make =>
      make (input.between (site.opening + 1) site.closing)
  | none => return none

namespace Nested

variable (inner : Nested)

/-! ## Declarations -/

/-- A pair of brackets behind a name. -/
def dimension? : ParseM (Option Token) := do
  if ← eat .lbracket then some <$> expect .rbracket else return none

/-- The text of what is assigned behind a name, if anything is. -/
def initText? : ParseM (Option String) := do
  if ← eat .assign then
    let start ← position
    inner.init
    some <$> textFrom start
  else return none

/-- A name, pairs of brackets, and what is assigned to it, if anything is. -/
def declarator : ParseM Param := do
  let name ← expect .identifier
  let pairs ← many dimension?
  let init ← inner.initText?
  return ⟨name.image, pairs.length, init⟩

/-- A declarator behind `var`, which may be left out. -/
def parameter : ParseM Param := do
  let _ ← eat .kwVar
  inner.declarator

/-- Parameters between commas, up to a closing parenthesis. -/
def parameters : ParseM (List Param) := do
  if ← check .rparen then return [] else sepByComma inner.parameter

/-! ## Statements -/

/-- One more statement of a block. -/
def nextStatement? : ParseM (Option Item) := do
  if ← checkAny statementStarts then some <$> inner.statement else return none

/-- Statements between braces. -/
def braced : ParseM Block := do
  let _ ← expect .lbrace
  let items ← many inner.nextStatement?
  let _ ← expect .rbrace
  return Item.block items

/-- What `if`, `else` and `while` rule over: braces of their own, or one statement. -/
def body : ParseM Block := do
  if ← check .lbrace then inner.braced else return Item.block [← inner.statement]

/-- An expression in parentheses, as text. -/
def condition : ParseM String := do
  let _ ← expect .lparen
  let start ← position
  inner.expression
  let text ← textFrom start
  let _ ← expect .rparen
  return text

/-- The body behind `else`, if there is one. -/
def elseBody : ParseM Block := do
  if ← eat .kwElse then inner.body else return []

/-- `if`, a condition and a body, and perhaps `else` and another body. -/
def branch : ParseM Item := do
  let _ ← expect .kwIf
  let condition ← inner.condition
  let thenBody ← inner.body
  let elseBody ← inner.elseBody
  return .command (.branch condition thenBody elseBody)

/-- `while`, a condition and a body. -/
def loop : ParseM Item := do
  let _ ← expect .kwWhile
  let condition ← inner.condition
  let body ← inner.body
  return .command (.loop condition body)

/-- Declarators between commas. -/
def declaration (start : Nat) : ParseM Item := do
  advance
  let _ ← sepByComma inner.declarator
  let _ ← expect .semicolon
  plainFrom start

/-- `break` or `continue`. -/
def jump (start : Nat) : ParseM Item := do
  advance
  let _ ← expect .semicolon
  plainFrom start

/-- `return`, with an expression or without. -/
def result (start : Nat) : ParseM Item := do
  advance
  let _ ← upTo .semicolon inner.expression
  plainFrom start

/-- An expression as a statement: a command if it is a call of a known function, else text. -/
def evaluation (start : Nat) : ParseM Item := do
  modify Cursor.forgetCalls
  inner.expression
  let stop ← position
  let _ ← expect .semicolon
  match ← wholeCall? start stop with
  | some call => return .command (.call call)
  | none => plainFrom start

/-- The statement at an index that starts with a token of a kind. -/
def statementFrom (start : Nat) : Kind → ParseM Item
  | .lbrace => return .command (.block (← inner.braced))
  | .semicolon => do advance; return .empty
  | .kwIf => inner.branch
  | .kwWhile => inner.loop
  | .kwVar => inner.declaration start
  | .kwBreak | .kwContinue => jump start
  | .kwReturn => inner.result start
  | _ => inner.evaluation start

/-- A statement, told apart by its first token. -/
def statementBody : ParseM Item := do
  if ← checkAny statementStarts then inner.statementFrom (← position) (← currentKind)
  else throw .mismatch

end Nested

end Botscript.Parse
