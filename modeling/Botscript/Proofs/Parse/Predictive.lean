import Botscript.Parse.Program

/-!
# The predictive parser

Whether an expression is an assignment shows behind its first primary, so there is no need to try
one and go back. `Nested.predictive` closes the productions over an expression that decides there.
Everything else is as before (`binary_eq_tails` has what comes behind the first operand).
-/

namespace Botscript.Parse

open Token ParseM

/-! ## Deciding behind the first primary -/

namespace Nested

variable (inner : Nested)

/-- The operators of the given levels behind a first operand, with their operands. -/
def tails : List (List Kind) → ParseM Unit
  | [] => return ()
  | operators :: tighter => do
    tails tighter
    let _ ← many do if ← eatAny operators then some <$> inner.binary tighter else return none

/-- What comes behind the first primary of an expression: its next token tells whether this is an
assignment. -/
def afterPrimary : ParseM Unit := do
  if ← eat .assign then inner.init
  else
    let _ ← eatAny postOperators
    inner.tails binaryLevels

/-- An expression that is decided behind its first primary. -/
def decidedExpression : ParseM Unit := do
  if ← eatAny unaryOperators then
    inner.operand
    inner.tails binaryLevels
  else
    inner.primary
    inner.afterPrimary

/-- The productions of `ofLevels`, except that expressions are decided without an attempt. -/
def predictive : Nat → Nested
  | 0 => ⟨failTooDeep, failTooDeep, failTooDeep, failTooDeep⟩
  | left + 1 =>
    let inner := predictive left
    ⟨inner.statementBody, inner.decidedExpression, inner.initBody, inner.operandBody⟩

/-- Operators and operands are a first operand and what follows it. -/
theorem binary_eq_tails (levels : List (List Kind)) :
    inner.binary levels = (do inner.unary; inner.tails levels) := by
  induction levels with
  | nil => simp [binary, tails]
  | cons operators tighter ih => simp only [binary, tails, ih, bind_assoc]

end Nested

end Botscript.Parse
