import Botscript.Text.Escape
import Botscript.Text.Quoted
import Botscript.Token.Piece

/-!
# Tokens

`tokenize` turns a source text into tokens, or says why it cannot. The whole text is cut into
pieces first, so a stray character is reported before anything else; then the pieces are looked at
from left to right, and the first bad one is reported. The last token is always the end of input.
-/

namespace Botscript

/-- A lexeme of the source with its kind, its place and the byte offset of its end. -/
structure Token where
  kind : Token.Kind
  image : String
  pos : Position
  stop : Nat
deriving DecidableEq, Repr, Inhabited

/-- The byte offset at which a token starts. -/
def Token.start (t : Token) : Nat := t.pos.offset

/-- How a token is named in messages. -/
def Token.describe (t : Token) : String :=
  if t.kind = .endOfInput then t.kind.spelling else "`" ++ t.image ++ "`"

/-- Why a text has no tokens. -/
inductive LexError.Cause where
  | unexpectedChar (c : Char)
  | unterminatedString
  | unterminatedComment
  | invalidEscape (escape : String)
deriving DecidableEq, Repr

/-- A fault in the spelling of a source text, and where it is. -/
structure LexError where
  pos : Position
  cause : LexError.Cause
deriving DecidableEq, Repr

/-- The place that messages begin with. -/
def Position.announce (p : Position) : String :=
  "line " ++ toString p.line ++ ", column " ++ toString p.column ++ ": "

/-- What a message says behind its place. -/
def LexError.Cause.message : LexError.Cause → String
  | unexpectedChar c => "unexpected character " ++ quotedChar c
  | unterminatedString => "unterminated string literal"
  | unterminatedComment => "unterminated block comment"
  | invalidEscape escape => "invalid escape sequence `" ++ escape ++ "`"

/-- A message with its place. -/
def LexError.message (e : LexError) : String := e.pos.announce ++ e.cause.message

namespace Token

/-- The text between the quotes of a string literal. -/
def stringBody (literal : List Char) : List Char := (literal.drop 1).dropLast

/-- What is wrong with a piece, apart from being stray. -/
def Piece.fault? (piece : Piece) : Option LexError.Cause :=
  match piece.shape with
  | .openComment => some .unterminatedComment
  | .openString => some .unterminatedString
  | .lexeme .string =>
    match unescape (stringBody piece.text) with
    | .ok _ => none
    | .error escape => some (.invalidEscape (String.ofList escape))
  | _ => none

/-- The character of a stray piece. -/
def Piece.stray? (piece : Piece) : Option LexError.Cause :=
  if piece.shape = .stray then piece.text.head?.map .unexpectedChar else none

/-- The token of a piece, if it is a lexeme. -/
def ofPiece? (p : Position) (piece : Piece) : Option Token :=
  match piece.shape with
  | .lexeme kind => some ⟨kind, String.ofList piece.text, p, p.offset + byteLength piece.text⟩
  | _ => none

/-- The token behind all others. -/
def ending (p : Position) : Token := ⟨.endOfInput, "", p, p.offset⟩

/-- The first fault of its sort among placed pieces. -/
def firstFault? (sort : Piece → Option LexError.Cause) (placed : List (Position × Piece)) :
    Option LexError :=
  placed.findSome? fun (p, piece) => (sort piece).map (LexError.mk p)

end Token

/-- The tokens of a text. -/
def tokenizeChars (text : List Char) : Except LexError (List Token) :=
  let placed := Token.place .origin (Token.pieces text)
  match Token.firstFault? Token.Piece.stray? placed with
  | some e => .error e
  | none =>
    match Token.firstFault? Token.Piece.fault? placed with
    | some e => .error e
    | none =>
      .ok (placed.filterMap (fun (p, piece) => Token.ofPiece? p piece)
        ++ [Token.ending (Position.origin.advance text)])

/-- The tokens of a source, of which the last is the end of input. -/
def tokenize (source : String) : Except LexError (List Token) := tokenizeChars source.toList

end Botscript
