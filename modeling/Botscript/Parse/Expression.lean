import Botscript.Parse.Nested

/-!
# Expressions

Expressions are recognised, not built; the calls of known functions in them are noted on the way.
Whether an expression is an assignment is found out by trying. The productions here are open: what
counts as a level of nesting is taken from a `Nested` with one level less.
-/

namespace Botscript.Parse

open Token ParseM

/-! ## Operators -/

/-- The kinds of literals. -/
def literals : List Kind := [.integer, .float, .string]

/-- The operators before an operand. -/
def unaryOperators : List Kind := [.plus, .minus, .incr, .decr, .bang, .tilde]

/-- The operators behind an operand. -/
def postOperators : List Kind := [.incr, .decr]

/-- The operators between operands, level by level, the loosest first. -/
def binaryLevels : List (List Kind) :=
  [[.orOr], [.andAnd], [.bitOr], [.caret], [.bitAnd], [.eq, .ne], [.lt, .gt, .le, .ge],
   [.shl, .shr, .ushr], [.plus, .minus], [.star, .slash, .percent]]

/-- Notes a call, whose function must be known. -/
def callSite (site : CallSite) : ParseM Unit := do
  let name := (← read).token site.name
  match (← read).registry name.image with
  | some _ => modify (·.addCall site)
  | none => throw (.unknownFunction name)

namespace Nested

variable (inner : Nested)

/-! ## Primaries -/

/-- Expressions between commas. -/
def expressions : ParseM Unit := do
  let _ ← sepByComma inner.expression

/-- Arguments between parentheses, behind the primary that starts at `start`. They make a call if
nothing but an identifier stands before them. -/
def arguments (start : Nat) : ParseM Unit := do
  let opening ← position
  advance
  let closing ← upTo .rparen inner.expressions
  if opening = start + 1 ∧ (← read).kind start = .identifier then
    callSite ⟨start, opening, closing⟩

/-- One suffix of the primary that starts at `start`: an index, a member or arguments. -/
def suffix? (start : Nat) : ParseM (Option Unit) := do
  if ← eat .lbracket then
    inner.expression
    let _ ← expect .rbracket
    return some ()
  else if ← eat .dot then
    let _ ← expect .identifier
    return some ()
  else if ← check .lparen then
    some <$> inner.arguments start
  else return none

/-- What a primary starts with: a literal, an identifier or an expression in parentheses. -/
def head : ParseM Unit := do
  if ← checkAny literals then advance
  else if ← check .identifier then advance
  else if ← eat .lparen then
    inner.expression
    let _ ← expect .rparen
  else throw .mismatch

/-- A head and its suffixes. -/
def plainPrimary : ParseM Unit := do
  let start ← position
  inner.head
  let _ ← many (inner.suffix? start)

/-- A primary, which is read only once: to try an assignment and then something else would read
nested parentheses twice at each level. -/
def primary : ParseM Unit := remembering inner.plainPrimary

/-! ## Expressions -/

/-- An operand with its operators before or behind it. -/
def unary : ParseM Unit := do
  if ← eatAny unaryOperators then inner.operand
  else
    inner.primary
    let _ ← eatAny postOperators

/-- Operands with the operators of the given levels between them. -/
def binary : List (List Kind) → ParseM Unit
  | [] => inner.unary
  | operators :: tighter => do
    binary tighter
    let _ ← many do if ← eatAny operators then some <$> binary tighter else return none

/-- A primary, the assignment sign and what is assigned. -/
def assignment : ParseM Unit := do
  inner.primary
  let _ ← expect .assign
  inner.init

/-- An assignment, or else operands and operators. -/
def expressionBody : ParseM Unit := orElse inner.assignment (inner.binary binaryLevels)

/-- One more value behind a comma; the comma may also be the last one. -/
def nextInit? : ParseM (Option Unit) := do
  if ← eat .comma then
    if ← check .rbracket then return none else some <$> inner.init
  else return none

/-- Values between commas, and perhaps a comma behind the last. -/
def inits : ParseM Unit := do
  inner.init
  let _ ← many inner.nextInit?

/-- What may be assigned: a list in brackets, which may end in a comma, or an expression. -/
def initBody : ParseM Unit := do
  if ← eat .lbracket then
    let _ ← upTo .rbracket inner.inits
  else inner.expression

/-- An operand of an operator before it. -/
def operandBody : ParseM Unit := inner.unary

end Nested

end Botscript.Parse
