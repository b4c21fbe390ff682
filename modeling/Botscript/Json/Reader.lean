import Botscript.Text.Bytes

/-!
# Reading JSON

A `Json.Reader` takes characters off the front of a text, and ends with the first `Fault` it meets:
the text ends too early, it is no JSON, or it is JSON that does not fit. Blanks, words, lists and
strings are read here.
-/

namespace Botscript.Json

/-- Why a text cannot be used. -/
inductive Fault where
  /-- The text ends too early. -/
  | unfinished
  /-- The text is no JSON. -/
  | malformed
  /-- The text is JSON of the wrong kind. -/
  | unsuitable
deriving DecidableEq, Repr

/-- Takes characters off the front of a text. -/
abbrev Reader := StateT (List Char) (Except Fault)

namespace Reader

/-! ## Characters -/

/-- The characters that may stand between the parts of a value. -/
def isBlank (c : Char) : Bool := c ∈ [' ', '\n', '\t', '\r']

/-- The next character, which stays. -/
def peek : Reader (Option Char) := return (← get).head?

/-- Moves past a character. -/
def skip : Reader Unit := modify List.tail

/-- Moves past the next character, which must be there. -/
def next : Reader Char := do
  match ← get with
  | [] => throw .unfinished
  | c :: rest =>
    set rest
    return c

/-- Moves past the characters of a class. -/
def takeWhile (inClass : Char → Bool) : Reader (List Char) := do
  let text ← get
  set (text.dropWhile inClass)
  return text.takeWhile inClass

/-- The next character behind blanks, which must be there and stays. -/
def ahead : Reader Char := do
  let _ ← takeWhile isBlank
  match ← peek with
  | none => throw .unfinished
  | some c => return c

/-- Moves past a mark, which must be the next character behind blanks. -/
def mark (c : Char) : Reader Unit := do
  if (← ahead) = c then skip else throw .malformed

/-- Moves past the characters of a word. -/
def word : List Char → Reader Unit
  | [] => return
  | c :: rest => do
    if (← next) = c then word rest else throw .malformed

/-! ## Lists -/

/-- Goes on with a list whose items change a state, at most `bound` times. -/
def itemsUpTo (close : Char) (item : σ → Reader σ) : Nat → σ → Reader σ
  | 0, state => return state
  | bound + 1, state => do
    let c ← ahead
    if c = close then
      skip
      return state
    else if c = ',' then
      skip
      itemsUpTo close item bound (← item state)
    else throw .malformed

/-- Items between commas, up to a closing bracket. Each item is behind a comma but the first, so
there are never more items than characters. -/
def items (close : Char) (item : σ → Reader σ) (state : σ) : Reader σ := do
  if (← ahead) = close then
    skip
    return state
  else
    let state ← item state
    itemsUpTo close item ((← get).length + 1) state

/-! ## Strings -/

/-- Four hexadecimal digits as a number. Fewer than four bytes are too early an end, even if a
character among them is no digit. -/
def codeUnit : Reader Nat := do
  let digits := (← get).take 4
  if byteLength digits < 4 then throw .unfinished
  set ((← get).drop 4)
  let value? (c : Char) : Option Nat :=
    if c.isDigit then some (c.toNat - '0'.toNat)
    else if 'a' ≤ c ∧ c ≤ 'f' then some (c.toNat - 'a'.toNat + 10)
    else if 'A' ≤ c ∧ c ≤ 'F' then some (c.toNat - 'A'.toNat + 10)
    else none
  match digits.mapM value? with
  | some values => return values.foldl (· * 16 + ·) 0
  | none => throw .malformed

/-- The character of an escape of one letter. -/
def simple? : Char → Option Char
  | '"' => some '"'
  | '\\' => some '\\'
  | '/' => some '/'
  | 'b' => some '\x08'
  | 'f' => some '\x0c'
  | 'n' => some '\n'
  | 'r' => some '\r'
  | 't' => some '\t'
  | _ => none

/-- The second half of a pair of surrogates. -/
def trailing (lead : Nat) : Reader Char := do
  if (← next) ≠ '\\' then throw .malformed
  if (← next) ≠ 'u' then throw .malformed
  let trail ← codeUnit
  if 0xDC00 ≤ trail ∧ trail ≤ 0xDFFF then
    return Char.ofNat (0x10000 + (lead - 0xD800) * 0x400 + (trail - 0xDC00))
  else throw .malformed

/-- What a backslash starts. If `paired` does not hold, surrogates need not come in pairs, and
each stands for nothing. -/
def escape (paired : Bool) : Reader (List Char) := do
  let selector ← next
  match simple? selector with
  | some c => return [c]
  | none =>
    if selector ≠ 'u' then throw .malformed
    let code ← codeUnit
    if code.isValidChar then return [Char.ofNat code]
    else if !paired then return []
    else if code < 0xDC00 then return [← trailing code]
    else throw .malformed

/-- The rest of a string behind its first quote, of at most `bound` characters and escapes. -/
def stringRestUpTo (paired : Bool) : Nat → Reader (List Char)
  | 0 => throw .unfinished
  | bound + 1 => do
    let c ← next
    if c = '"' then return []
    else if c = '\\' then return (← escape paired) ++ (← stringRestUpTo paired bound)
    else if c.toNat < 32 then throw .malformed
    else return c :: (← stringRestUpTo paired bound)

/-- A string whose quote is the next character. -/
def string (paired : Bool) : Reader (List Char) := do
  skip
  stringRestUpTo paired ((← get).length + 1)

end Reader

end Botscript.Json
