import Std.Data.TreeMap
import Botscript.Parse.Error
import Botscript.Registry
import Botscript.Token.KindSet

/-!
# The cursor of a parse

A parse reads tokens by index and keeps a `Cursor`: the index of the current token, the `Frontier`,
which is the furthest token looked at with the kinds it was compared to, the calls of known
functions in the current statement, and the primaries read so far. Failing keeps the cursor, so the
frontier covers abandoned attempts as well. The kinds are compared by `check`, `eat` and `expect`;
`many` is the only loop.
-/

namespace Botscript.Parse

/-! ## What a parse reads -/

/-- What a parse is given. -/
structure Input where
  source : List Char
  tokens : Array Token
  registry : Registry
  /-- Whether primaries are remembered; the answer does not depend on it. -/
  remembers : Bool

namespace Input

/-- The token behind the last one. If the tokens have no end of input of their own, it is made up
without a line or column. -/
def ending (input : Input) : Token :=
  match input.tokens.back? with
  | some last => if last.kind = .endOfInput then last else made
  | none => made
where
  /-- The end of input, known by its offset alone. -/
  made : Token := Token.ending ⟨0, 0, byteLength input.source⟩

/-- The token of an index. -/
def token (input : Input) (i : Nat) : Token :=
  match input.tokens[i]? with
  | some t => t
  | none => input.ending

/-- The kind of the token of an index. -/
def kind (input : Input) (i : Nat) : Token.Kind := (input.token i).kind

/-- The tokens from one index up to another. -/
def span (input : Input) (start stop : Nat) : List Token :=
  (input.tokens.extract start stop).toList

/-- The source text from the start of one token up to the end of the token before another. -/
def between (input : Input) (start stop : Nat) : String :=
  if start = stop then ""
  else String.ofList
    (slice input.source (input.token start).start (input.token (stop - 1)).stop)

end Input

/-! ## What a parse keeps -/

/-- The furthest token looked at, and the kinds it was compared to. -/
structure Frontier where
  pos : Nat
  kinds : Token.KindSet
deriving DecidableEq, Repr

/-- The frontier after the token at `pos` is compared to a kind. -/
def Frontier.note (f : Frontier) (pos : Nat) (kind : Token.Kind) : Frontier :=
  if f.pos < pos then ⟨pos, .single kind⟩
  else if f.pos = pos then ⟨pos, f.kinds.union (.single kind)⟩
  else f

/-- A call of a known function: the indices of its name and of its parentheses. -/
structure CallSite where
  name : Nat
  opening : Nat
  closing : Nat
deriving DecidableEq, Repr

/-- A primary that was read: where it ends, and the calls in it. -/
structure Primary where
  stop : Nat
  calls : List CallSite
deriving DecidableEq, Repr

/-- The state of a parse. -/
structure Cursor where
  pos : Nat
  frontier : Frontier
  /-- The calls seen in the current statement, in order. -/
  calls : List CallSite
  /-- The primaries read so far by the token they start at. -/
  memory : Std.TreeMap Nat Primary

namespace Cursor

/-- The state at the start of a parse. -/
def initial : Cursor := ⟨0, ⟨0, .empty⟩, [], ∅⟩

/-- The state after the current token is compared to a kind. -/
def note (c : Cursor) (kind : Token.Kind) : Cursor :=
  { c with frontier := c.frontier.note c.pos kind }

/-- The state after the current token is compared to some kinds. -/
def noteAll (c : Cursor) (kinds : List Token.Kind) : Cursor := kinds.foldl note c

/-- The state after the current token. -/
def next (c : Cursor) : Cursor := { c with pos := c.pos + 1 }

/-- The state with one more call. -/
def addCall (c : Cursor) (site : CallSite) : Cursor := { c with calls := c.calls ++ [site] }

/-- The state at the start of a statement, which has no calls yet. -/
def forgetCalls (c : Cursor) : Cursor := { c with calls := [] }

/-- The state at the end of a primary that was read before. -/
def skip (c : Cursor) (known : Primary) : Cursor :=
  { c with pos := known.stop, calls := c.calls ++ known.calls }

/-- Remembers the primary that was read since the state `before`. -/
def remember (c before : Cursor) : Cursor :=
  { c with memory :=
      c.memory.insert before.pos ⟨c.pos, c.calls.drop before.calls.length⟩ }

/-- Goes back to an earlier state, but keeps the frontier and the memory. -/
def rewind (c before : Cursor) : Cursor :=
  { c with pos := before.pos, calls := c.calls.take before.calls.length }

end Cursor

/-- How a parse ends early. Only a mismatch lets another attempt follow. -/
inductive Failure where
  | mismatch
  | unknownFunction (name : Token)
  | tooDeep (token : Token)
deriving DecidableEq, Repr

/-- The error that a failed parse reports: a mismatch is blamed on the frontier. -/
def Failure.report (input : Input) (c : Cursor) : Failure → ParseError
  | mismatch =>
    ⟨input.token c.frontier.pos, .unexpected (c.frontier.kinds.toList)⟩
  | unknownFunction name => ⟨name, .unknownFunction⟩
  | tooDeep token => ⟨token, .tooDeep⟩

/-- A step of a parse. -/
abbrev ParseM := ReaderT Input (EStateM Failure Cursor)

namespace ParseM

variable {α : Type}

/-- What a step comes to, and the state it leaves. -/
def run (step : ParseM α) (input : Input) (c : Cursor) : EStateM.Result Failure Cursor α :=
  step input c

/-! ## Looking at tokens -/

/-- The index of the current token. -/
def position : ParseM Nat := return (← get).pos

/-- The current token. -/
def current : ParseM Token := return (← read).token (← position)

/-- The kind of the current token. -/
def currentKind : ParseM Token.Kind := return (← read).kind (← position)

/-- Moves on, but never past the end of input. -/
def advance : ParseM Unit := do
  if (← currentKind) ≠ .endOfInput then modify Cursor.next

/-- Whether the current token is of a kind. -/
def check (kind : Token.Kind) : ParseM Bool := do
  modify (·.note kind)
  return (← currentKind) = kind

/-- Whether the current token is of one of the kinds; it is compared to all of them. -/
def checkAny (kinds : List Token.Kind) : ParseM Bool := do
  modify (·.noteAll kinds)
  return (← currentKind) ∈ kinds

/-- Moves past a token of a kind, if there is one. -/
def eat (kind : Token.Kind) : ParseM Bool := do
  if ← check kind then
    advance
    return true
  else return false

/-- Moves past one of the kinds, if the current token is one. -/
def eatAny (kinds : List Token.Kind) : ParseM Bool := do
  if ← checkAny kinds then
    advance
    return true
  else return false

/-- Moves past a token of a kind, which must be there, and answers the token. -/
def expect (kind : Token.Kind) : ParseM Token := do
  let token ← current
  if ← eat kind then return token else throw .mismatch

/-- Does a step unless the current token is of a kind. -/
def unlessAt (kind : Token.Kind) (step : ParseM Unit) : ParseM Unit := do
  if ← check kind then return () else step

/-- Does a step, if it is not done at once, up to a token of a kind, which must be there, and moves
past it; answers the index of that token. -/
def upTo (kind : Token.Kind) (step : ParseM Unit) : ParseM Nat := do
  unlessAt kind step
  let closing ← position
  let _ ← expect kind
  return closing

/-! ## Loops and attempts -/

/-- Runs a step until it answers nothing, but at most `bound` times. -/
def manyUpTo (step : ParseM (Option α)) : Nat → ParseM (List α)
  | 0 => return []
  | bound + 1 => do
    match ← step with
    | none => return []
    | some a => return a :: (← manyUpTo step bound)

/-- Runs a step until it answers nothing. A step that answers something moves past a token, so
there are never more answers than tokens. -/
def many (step : ParseM (Option α)) : ParseM (List α) := do
  manyUpTo step ((← read).tokens.size + 1)

/-- Answers of `item`, each behind a comma. -/
def manyAfterComma (item : ParseM α) : ParseM (List α) :=
  many do if ← eat .comma then some <$> item else return none

/-- Answers of `item` between commas, one at least. -/
def sepByComma (item : ParseM α) : ParseM (List α) :=
  return (← item) :: (← manyAfterComma item)

/-- On a mismatch, goes back to where the first attempt started and makes the second. -/
def orElse (first second : ParseM α) : ParseM α := fun input c =>
  match first.run input c with
  | .error .mismatch c' => second.run input (c'.rewind c)
  | result => result

/-- Fails at the current token because no level of nesting is left. -/
def failTooDeep : ParseM α := do throw (.tooDeep (← current))

/-- Reads a primary, unless one was read from here before. -/
def remembering (primary : ParseM Unit) : ParseM Unit := fun input c =>
  if input.remembers then
    match c.memory[c.pos]? with
    | some known => .ok () (c.skip known)
    | none =>
      match primary.run input c with
      | .ok () c' => .ok () (c'.remember c)
      | failed => failed
  else primary.run input c

end ParseM

end Botscript.Parse
