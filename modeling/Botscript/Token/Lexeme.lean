import Botscript.Token.Kind

/-!
# Lexemes

What the front of a text is. The `…Length` functions measure the longest number, string, word,
comment or operator there, `0` standing for none. `Shape.front` puts them in order: blanks and
comments first, then floats before integers, closed strings before open ones, keywords before
identifiers, and the longest operator.
-/

namespace Botscript.Token

/-! ## Characters -/

/-- The characters between tokens. -/
def isBlank (c : Char) : Bool := c ∈ [' ', '\t', '\x0c', '\r', '\n']

/-- The characters that end a line comment and that no string holds. -/
def isLineEnd (c : Char) : Bool := c ∈ ['\r', '\n']

/-- The characters an identifier starts with. -/
def isWordStart (c : Char) : Bool := c.isAlpha || c == '_'

/-- The characters an identifier goes on with. -/
def isWordPart (c : Char) : Bool := c.isAlphanum || c == '_'

/-- The digits of a hexadecimal integer. -/
def isHexDigit (c : Char) : Bool :=
  c.isDigit || ('a' ≤ c && c ≤ 'f') || ('A' ≤ c && c ≤ 'F')

/-- The number of characters of a class at the front of a text. -/
def runLength (inClass : Char → Bool) (text : List Char) : Nat := (text.takeWhile inClass).length

/-! ## Numbers -/

/-- `1` if the text starts with one of the letters, else `0`. -/
def letterLength (letters : List Char) : List Char → Nat
  | [] => 0
  | c :: _ => if c ∈ letters then 1 else 0

/-- The digits of an exponent behind `lead` characters, or `0` if there are none. -/
def exponentDigits (lead : Nat) (text : List Char) : Nat :=
  match runLength Char.isDigit text with
  | 0 => 0
  | count + 1 => lead + count + 1

/-- An exponent: `e` or `E`, a sign or none, and digits. -/
def exponentLength : List Char → Nat
  | [] => 0
  | e :: rest =>
    if e ∈ ['e', 'E'] then
      match rest with
      | [] => 0
      | sign :: digits =>
        if sign ∈ ['+', '-'] then exponentDigits 2 digits else exponentDigits 1 rest
    else 0

/-- The letter that marks a float. -/
def floatSuffixLength : List Char → Nat := letterLength ['f', 'F', 'd', 'D']

/-- An exponent or none, and a suffix or none. -/
def floatTailLength (text : List Char) : Nat :=
  exponentLength text + floatSuffixLength (text.drop (exponentLength text))

/-- A float: digits around a point, of which one side may be empty, or digits alone; an exponent;
a suffix. Without a point, an exponent or a suffix is needed. -/
def floatLength (text : List Char) : Nat :=
  let whole := runLength Char.isDigit text
  match text.drop whole with
  | '.' :: rest =>
    let fraction := runLength Char.isDigit rest
    if whole + fraction = 0 then 0
    else whole + 1 + fraction + floatTailLength (rest.drop fraction)
  | rest =>
    if whole = 0 ∨ floatTailLength rest = 0 then 0 else whole + floatTailLength rest

/-- The letter that marks a long integer. -/
def integerSuffixLength : List Char → Nat := letterLength ['l', 'L']

/-- The digits of an integer: `0x` or `0X` and hexadecimal digits, or decimal digits. -/
def integerDigits (text : List Char) : Nat :=
  let decimal := runLength Char.isDigit text
  match text with
  | '0' :: x :: rest =>
    if x ∈ ['x', 'X'] ∧ runLength isHexDigit rest ≠ 0 then 2 + runLength isHexDigit rest
    else decimal
  | _ => decimal

/-- An integer: its digits, and a suffix or none. -/
def integerLength (text : List Char) : Nat :=
  match integerDigits text with
  | 0 => 0
  | digits => digits + integerSuffixLength (text.drop digits)

/-! ## Strings, comments and operators -/

/-- The rest of a string literal, behind its first quote: how long it is, and whether a quote
closes it. A backslash takes the next character with it; an open string ends with its line. -/
def stringRest : List Char → Nat × Bool
  | [] => (0, false)
  | '\\' :: _ :: rest => (stringRest rest).map (· + 2) id
  | c :: rest =>
    if c = '"' then (1, true)
    else if isLineEnd c then (0, false)
    else (stringRest rest).map (· + 1) id

/-- The rest of a block comment, behind its opening, unless the comment never ends. -/
def blockCommentRest? : List Char → Option Nat
  | [] => none
  | c :: rest =>
    if c = '*' ∧ rest.head? = some '/' then some 2 else (blockCommentRest? rest).map (· + 1)

/-- The longest operator at the front of a text. -/
def operator? (text : List Char) : Option Kind :=
  Kind.operators.find? fun k => k.spelling.toList.isPrefixOf text

/-! ## The front of a text -/

/-- What a piece of a text is. -/
inductive Shape where
  | blank
  | comment
  | openComment
  | openString
  | lexeme (kind : Kind)
  | stray
deriving DecidableEq, Repr

/-- A comment at the front of the text `c :: rest`: its shape, and how much of `rest` it takes. -/
def Shape.comment? (c : Char) : List Char → Option (Shape × Nat)
  | [] => none
  | d :: rest =>
    if c = '/' ∧ d = '/' then some (comment, 1 + runLength (! isLineEnd ·) rest)
    else if c = '/' ∧ d = '*' then
      match blockCommentRest? rest with
      | some length => some (comment, 1 + length)
      | none => some (openComment, 1 + rest.length)
    else none

/-- What the text `c :: rest` starts with, and how much of `rest` belongs to it. Each blank is a
piece of its own, and so is a character that nothing starts with. -/
def Shape.front (c : Char) (rest : List Char) : Shape × Nat :=
  if isBlank c then (blank, 0)
  else if let some found := comment? c rest then found
  else
    match floatLength (c :: rest), integerLength (c :: rest) with
    | more + 1, _ => (lexeme .float, more)
    | 0, more + 1 => (lexeme .integer, more)
    | 0, 0 =>
      if c = '"' then
        let (more, closed) := stringRest rest
        (if closed then lexeme .string else openString, more)
      else if isWordStart c then
        let part := rest.takeWhile isWordPart
        (lexeme (.ofWord (String.ofList (c :: part))), part.length)
      else
        match operator? (c :: rest) with
        | some kind => (lexeme kind, kind.spelling.length - 1)
        | none => (stray, 0)

end Botscript.Token
