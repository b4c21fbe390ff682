/-!
# Kinds of tokens

`Token.Kind` lists the terminals of the language in the order in which messages name them.
`Kind.spelling` shows a kind in messages, and is the text of a keyword or operator itself; no two
kinds are spelled alike, so `Kind.ofSpelling?` finds each again (`ofSpelling?_spelling`).
-/

namespace Botscript.Token

/-- A terminal of the language. -/
inductive Kind where
  | integer | float | string | identifier
  | kwVar | kwFunc | kwIf | kwElse | kwWhile | kwBreak | kwContinue | kwReturn
  | assign | eq | ne | lt | le | gt | ge | andAnd | orOr | incr | decr
  | plus | minus | star | slash | percent | bitAnd | bitOr | caret
  | lparen | rparen | lbrace | rbrace | lbracket | rbracket
  | semicolon | comma | dot | shl | shr | ushr | tilde | bang
  | endOfInput
deriving DecidableEq, Repr, Inhabited

namespace Kind

/-- Every kind, in order. -/
def all : List Kind :=
  [integer, float, string, identifier,
   kwVar, kwFunc, kwIf, kwElse, kwWhile, kwBreak, kwContinue, kwReturn,
   assign, eq, ne, lt, le, gt, ge, andAnd, orOr, incr, decr,
   plus, minus, star, slash, percent, bitAnd, bitOr, caret,
   lparen, rparen, lbrace, rbrace, lbracket, rbracket,
   semicolon, comma, dot, shl, shr, ushr, tilde, bang,
   endOfInput]

theorem mem_all (k : Kind) : k ∈ all := by cases k <;> decide

/-- How a kind is shown. -/
def spelling : Kind → String
  | integer => "<integer>" | float => "<float>" | string => "<string>"
  | identifier => "<identifier>"
  | kwVar => "var" | kwFunc => "func" | kwIf => "if" | kwElse => "else" | kwWhile => "while"
  | kwBreak => "break" | kwContinue => "continue" | kwReturn => "return"
  | assign => "=" | eq => "==" | ne => "!=" | lt => "<" | le => "<=" | gt => ">" | ge => ">="
  | andAnd => "&&" | orOr => "||" | incr => "++" | decr => "--"
  | plus => "+" | minus => "-" | star => "*" | slash => "/" | percent => "%"
  | bitAnd => "&" | bitOr => "|" | caret => "^"
  | lparen => "(" | rparen => ")" | lbrace => "\x7b" | rbrace => "\x7d"
  | lbracket => "[" | rbracket => "]"
  | semicolon => ";" | comma => "," | dot => "." | shl => "<<" | shr => ">>" | ushr => ">>>"
  | tilde => "~" | bang => "!"
  | endOfInput => "<end of input>"

/-- The kind that is shown as `text`. -/
def ofSpelling? (text : String) : Option Kind := all.find? (·.spelling = text)

theorem ofSpelling?_spelling (k : Kind) : ofSpelling? k.spelling = some k := by
  cases k <;> decide

theorem spelling_inj {k l : Kind} (h : k.spelling = l.spelling) : k = l := by
  have := ofSpelling?_spelling l
  rwa [← h, ofSpelling?_spelling, Option.some.injEq] at this

/-- Whether tokens of a kind stand for a value. -/
def isLiteral (k : Kind) : Bool := k ∈ [integer, float, string]

/-- The words that are no identifiers. -/
def keywords : List Kind :=
  [kwVar, kwFunc, kwIf, kwElse, kwWhile, kwBreak, kwContinue, kwReturn]

/-- The operators and punctuation marks, each behind those that begin with it. -/
def operators : List Kind :=
  [ushr, shl, shr, le, ge, eq, ne, andAnd, orOr, incr, decr,
   assign, lt, gt, plus, minus, star, slash, percent, bitAnd, bitOr, caret,
   lparen, rparen, lbrace, rbrace, lbracket, rbracket, semicolon, comma, dot, tilde, bang]

/-- The kind of a word. -/
def ofWord (text : String) : Kind := (keywords.find? (·.spelling = text)).getD identifier

end Kind

end Botscript.Token
