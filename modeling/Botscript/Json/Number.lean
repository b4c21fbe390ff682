import Botscript.Json.Reader

/-!
# Reading JSON numbers

`Reader.number` answers the value of a number that is written as a natural number of 64 bits, and
nothing for any other number. A number too large for a binary float of 64 bits is a fault. Whether
it is too large is decided as such floats decide it: the leading digits and a power of ten are
rounded to 53 bits, and then multiplied.
-/

namespace Botscript.Json

/-! ## The range of floats -/

/-- A number rounded to its 53 leading bits, a half to the even neighbour. -/
def roundTo53Bits (n : Nat) : Nat :=
  let unit := 1 <<< (n.log2 - 52)
  let quotient := n / unit
  let twice := 2 * (n % unit)
  if twice < unit ∨ (twice = unit ∧ quotient % 2 = 0) then quotient * unit
  else (quotient + 1) * unit

/-- The least number that rounds to more than every float: half a unit above the largest one. -/
def floatBound : Nat := (1 <<< 1024) - (1 <<< 970)

/-- Whether digits times a power of ten are more than every float. -/
def exceedsFloats (digits : Nat) (exponent : Int) : Bool :=
  digits ≠ 0 ∧ (308 < exponent ∨
    (0 ≤ exponent ∧ floatBound ≤ roundTo53Bits digits * roundTo53Bits (Nat.pow 10 exponent.toNat)))

/-! ## Digits -/

/-- The largest number of 64 bits. -/
def largestWord : Nat := UInt64.size - 1

/-- Digits of a number as far as they fit 64 bits, and how many of them fit. -/
def takeDigits (value count : Nat) : List Char → Nat × Nat
  | [] => (value, count)
  | c :: rest =>
    let longer := value * 10 + (c.toNat - '0'.toNat)
    if longer ≤ largestWord then takeDigits longer (count + 1) rest else (value, count)

namespace Reader

/-- Digits, of which there must be one. -/
def someDigits : Reader (List Char) := do
  let c ← next
  if c.isDigit then return c :: (← takeWhile Char.isDigit) else throw .malformed

/-- The whole part of a number: a zero stands alone. -/
def wholeDigits : Reader (List Char) := do
  let digits ← someDigits
  if digits.head? = some '0' ∧ digits.length ≠ 1 then throw .malformed
  return digits

/-- The digits behind a point, if there is one. -/
def fractionDigits : Reader (Option (List Char)) := do
  if (← peek) = some '.' then
    skip
    some <$> someDigits
  else return none

/-- An exponent, if there is one. -/
def exponent : Reader (Option Int) := do
  match ← peek with
  | some 'e' | some 'E' =>
    skip
    let sign ← peek
    if sign = some '+' ∨ sign = some '-' then skip
    let digits ← someDigits
    let size : Int := digits.foldl (fun value c => value * 10 + (c.toNat - '0'.toNat)) 0
    return some (if sign = some '-' then -size else size)
  | _ => return none

/-- A number whose first character is the next one: its value, if it is written as a natural number
of 64 bits. -/
def number : Reader (Option Nat) := do
  let negative := (← peek) = some '-'
  if negative then skip
  let whole ← wholeDigits
  let fraction? ← fractionDigits
  let exponent? ← exponent
  let (value, fitting) := takeDigits 0 0 whole
  if !negative ∧ fitting = whole.length ∧ fraction? = none ∧ exponent? = none then
    return some value
  let (digits, places) := takeDigits value 0 (fraction?.getD [])
  let scale := ((whole.length - fitting : Nat) : Int) - places + exponent?.getD 0
  if exceedsFloats digits scale then throw .malformed
  return none

/-! ## Numbers that do not matter -/

/-- Moves past a number and its faults of range. Here, an early end is no different from a wrong
character. -/
def skipNumber : Reader Unit := do
  if (← peek) = some '-' then skip
  let text ← get
  let grammar : Reader Unit := do
    let _ ← wholeDigits
    let _ ← fractionDigits
    let _ ← exponent
  match grammar text with
  | .ok ((), rest) => set rest
  | .error _ => throw .malformed

end Reader

end Botscript.Json
