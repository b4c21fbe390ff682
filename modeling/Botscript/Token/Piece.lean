import Botscript.Text.Bytes
import Botscript.Token.Lexeme

/-!
# Pieces of a text

`pieces` cuts a whole text into blanks, comments, lexemes and what is wrong with it, so that the
pieces put together are the text again (`join_pieces`). `place` gives each piece its position.
-/

namespace Botscript.Token

/-- A part of a text and what it is. -/
structure Piece where
  shape : Shape
  text : List Char
deriving DecidableEq, Repr

/-- The pieces of a text after its first `skip` characters. -/
def piecesAfter : Nat → List Char → List Piece
  | _, [] => []
  | skip + 1, _ :: rest => piecesAfter skip rest
  | 0, c :: rest =>
    let (shape, more) := Shape.front c rest
    ⟨shape, c :: rest.take more⟩ :: piecesAfter more rest

/-- The pieces of a text, in order. -/
def pieces (text : List Char) : List Piece := piecesAfter 0 text

theorem piecesAfter_eq_drop (skip : Nat) (text : List Char) :
    piecesAfter skip text = pieces (text.drop skip) := by
  induction text generalizing skip with
  | nil => simp [pieces, piecesAfter]
  | cons c rest ih =>
    cases skip with
    | zero => rfl
    | succ skip => rw [piecesAfter, ih, List.drop_succ_cons]

@[simp] theorem pieces_nil : pieces [] = [] := rfl

/-- The first piece is what the text starts with; the others are the pieces of what follows. -/
theorem pieces_cons (c : Char) (rest : List Char) :
    pieces (c :: rest) =
      ⟨(Shape.front c rest).1, c :: rest.take (Shape.front c rest).2⟩ ::
        pieces (rest.drop (Shape.front c rest).2) := by
  rw [← piecesAfter_eq_drop]; rfl

/-- Induction along the pieces of a text. -/
@[elab_as_elim]
theorem pieces_induction {motive : List Char → Prop} (nil : motive [])
    (front : ∀ c rest, motive (rest.drop (Shape.front c rest).2) → motive (c :: rest))
    (text : List Char) : motive text := by
  induction h : text.length using Nat.strongRecOn generalizing text with
  | _ n ih =>
    cases text with
    | nil => exact nil
    | cons c rest =>
      have hlt : (rest.drop (Shape.front c rest).2).length < n := by
        rw [← h, List.length_drop, List.length_cons]; omega
      exact front c rest (ih _ hlt _ rfl)

/-- Nothing of a text is lost. -/
theorem join_pieces (text : List Char) : ((pieces text).map Piece.text).flatten = text := by
  induction text using pieces_induction with
  | nil => rfl
  | front c rest ih =>
    rw [pieces_cons, List.map_cons, List.flatten_cons, ih, List.cons_append, List.take_append_drop]

/-- Pieces with their positions, when the first one stands at `p`. -/
def place (p : Position) : List Piece → List (Position × Piece)
  | [] => []
  | piece :: rest => (p, piece) :: place (p.advance piece.text) rest

theorem place_append (p : Position) (front back : List Piece) :
    place p (front ++ back) =
      place p front ++ place (p.advance (front.map Piece.text).flatten) back := by
  induction front generalizing p with
  | nil => rfl
  | cons piece rest ih => simp [place, ih, Position.advance_append]

end Botscript.Token
