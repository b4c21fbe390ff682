import Botscript.Json.Number

/-!
# Passing over JSON values

`Reader.skipValue` moves past a value of which only the grammar matters. Its brackets may nest to
any depth: the open ones are kept in a list. `Reader.byteValue` reads a byte, and
`Reader.refuseValue` tells a value of the wrong kind from a text that is no value.
-/

namespace Botscript.Json

/-- The brackets that values stand in. -/
inductive Bracket where
  /-- The brackets of a list of items. -/
  | list
  /-- The brackets of an object with its members. -/
  | object
deriving DecidableEq, Repr

namespace Bracket

/-- The bracket that a character opens. -/
def opened? : Char → Option Bracket
  | '[' => some list
  | '\x7b' => some object
  | _ => none

/-- The character that closes a bracket. -/
def close : Bracket → Char
  | list => ']'
  | object => '\x7d'

end Bracket

namespace Reader

/-! ## Values without brackets -/

/-- Moves past the word of a value that starts with a letter. -/
def skipWord (c : Char) : Reader Unit :=
  match c with
  | 'n' => word "null".toList
  | 't' => word "true".toList
  | 'f' => word "false".toList
  | _ => throw .malformed

/-- Whether a number starts with a character. -/
def startsNumber (c : Char) : Bool := c.isDigit || c == '-'

/-- Moves past a value without brackets. -/
def skipScalar : Reader Unit := do
  let c ← ahead
  if startsNumber c then skipNumber
  else if c = '"' then let _ ← string false
  else skipWord c

/-! ## Values in brackets -/

/-- Moves to the value of an item or a member. A member has a key and a colon before its value. -/
def skipLabel : Bracket → Reader Unit
  | .list => return
  | .object => do
    if (← ahead) ≠ '"' then throw .malformed
    let _ ← string false
    mark ':'

/-- Moves on from the end of a value to the next one in the brackets around it, innermost first.
Answers the brackets around the next value, or nothing if all of them are closed. -/
def skipToNext : List Bracket → Reader (Option (List Bracket))
  | [] => return none
  | bracket :: outer => do
    let c ← ahead
    if c = bracket.close then
      skip
      skipToNext outer
    else if c = ',' then
      skip
      skipLabel bracket
      return some (bracket :: outer)
    else throw .malformed

/-- Moves past a value without brackets, or into a value with brackets, up to the next value.
Answers the brackets around that one, or nothing if there is none. -/
def skipPart (outer : List Bracket) : Reader (Option (List Bracket)) := do
  match Bracket.opened? (← ahead) with
  | none =>
    skipScalar
    skipToNext outer
  | some bracket =>
    skip
    if (← ahead) = bracket.close then
      skip
      skipToNext outer
    else
      skipLabel bracket
      return some (bracket :: outer)

/-- Moves past parts up to the end of the outermost value, at most `bound` of them. -/
def skipPartsUpTo : Nat → List Bracket → Reader Unit
  | 0, _ => return
  | bound + 1, outer => do
    match ← skipPart outer with
    | none => return
    | some inner => skipPartsUpTo bound inner

/-- Moves past a value. Each part takes a character, so there are never more parts than
characters. -/
def skipValue : Reader Unit := do
  skipPartsUpTo ((← get).length + 1) []

/-! ## Bytes -/

/-- Ends with a fault because a value of another kind was needed, or with a fault of that value if
it comes to light before its kind does. -/
def refuseValue : Reader α := do
  let c ← ahead
  if startsNumber c then
    let _ ← number
  else if c = '"' then
    let _ ← string true
  else if c ≠ '[' ∧ c ≠ '\x7b' then skipWord c
  throw .unsuitable

/-- Reads a byte written as a natural number. -/
def byteValue : Reader UInt8 := do
  if startsNumber (← ahead) then
    match ← number with
    | some n => if n < 256 then return .ofNat n else throw .unsuitable
    | none => throw .unsuitable
  else refuseValue

end Reader

end Botscript.Json
