import Botscript.Token.Basic

/-!
# Where tokens end

What a text may start with is told case by case (`Shape.starts_front`, `Shape.lexes_of_front`). The
end of input is no case, and it is the last token of every text and no other (`ended_tokenize`).
-/

namespace Botscript

open Token

namespace Token

/-- Tokens that end in the end of input, which occurs nowhere else. -/
def Ended (tokens : List Token) : Prop :=
  ∃ body last, tokens = body ++ [last] ∧ last.kind = .endOfInput ∧
    ∀ t ∈ body, t.kind ≠ .endOfInput

namespace Kind

theorem ofWord_mem (text : String) : ofWord text ∈ identifier :: keywords := by
  unfold ofWord
  cases h : keywords.find? (·.spelling = text) with
  | none => exact List.mem_cons_self
  | some k => exact List.mem_cons_of_mem _ (List.mem_of_find?_eq_some h)

end Kind

theorem operator?_ne_endOfInput {text : List Char} {k : Kind} (h : operator? text = some k) :
    k ≠ .endOfInput := fun he =>
  absurd (List.mem_of_find?_eq_some h) (by rw [he]; decide)

theorem Shape.comment?_eq_comment {c : Char} {rest : List Char} {found : Shape × Nat}
    (h : comment? c rest = some found) : found.1 = comment ∨ found.1 = openComment := by
  cases rest with
  | nil => cases h
  | cons d rest =>
    simp only [comment?] at h
    split at h
    · cases h
      exact .inl rfl
    split at h
    · split at h
      · cases h
        exact .inl rfl
      · cases h
        exact .inr rfl
    · cases h

/-- The lexeme that the text `c :: rest` starts with: its kind, and how much of `rest` belongs to
it. Each sort of lexeme is tried when there is none of those before it. -/
inductive Shape.Lexes (c : Char) (rest : List Char) : Kind → Nat → Prop
  | float {more : Nat} (hf : floatLength (c :: rest) = more + 1) : Lexes c rest .float more
  | integer {more : Nat} (hf : floatLength (c :: rest) = 0)
    (hi : integerLength (c :: rest) = more + 1) : Lexes c rest .integer more
  | string {more : Nat} (hf : floatLength (c :: rest) = 0) (hi : integerLength (c :: rest) = 0)
    (hq : c = '"') (hs : stringRest rest = (more, true)) : Lexes c rest .string more
  | word (hf : floatLength (c :: rest) = 0) (hi : integerLength (c :: rest) = 0) (hq : c ≠ '"')
    (hw : isWordStart c) : Lexes c rest (.ofWord (String.ofList (c :: rest.takeWhile isWordPart)))
      (rest.takeWhile isWordPart).length
  | operator {k : Kind} (hf : floatLength (c :: rest) = 0) (hi : integerLength (c :: rest) = 0)
    (hq : c ≠ '"') (hw : ¬ isWordStart c) (ho : operator? (c :: rest) = some k) :
    Lexes c rest k (k.spelling.length - 1)

/-- What the text `c :: rest` may start with, and how much of `rest` belongs to it. -/
inductive Shape.Starts (c : Char) (rest : List Char) : Shape × Nat → Prop
  | blank (h : isBlank c) : Starts c rest (blank, 0)
  | comment {found : Shape × Nat} (h : comment? c rest = some found) : Starts c rest found
  | openString {more : Nat} (h : stringRest rest = (more, false)) :
    Starts c rest (openString, more)
  | lexeme {k : Kind} {more : Nat} (h : Lexes c rest k more) : Starts c rest (lexeme k, more)
  | stray : Starts c rest (stray, 0)

theorem Shape.starts_front (c : Char) (rest : List Char) : Starts c rest (front c rest) := by
  unfold front
  split
  · exact .blank ‹_›
  split
  · exact .comment ‹_›
  split
  · exact .lexeme (.float ‹_›)
  · exact .lexeme (.integer ‹_› ‹_›)
  rename_i hf hi
  split
  · rename_i hq
    cases hs : stringRest rest with
    | mk more closed =>
      cases closed with
      | true => exact .lexeme (.string hf hi hq hs)
      | false => exact .openString hs
  rename_i hq
  split
  · exact .lexeme (.word hf hi hq ‹_›)
  rename_i hw
  split
  · exact .lexeme (.operator hf hi hq hw ‹_›)
  · exact .stray

theorem Shape.lexes_of_front {c : Char} {rest : List Char} {k : Kind} {more : Nat}
    (h : front c rest = (lexeme k, more)) : Lexes c rest k more := by
  have hstarts := starts_front c rest
  rw [h] at hstarts
  cases hstarts with
  | comment hcomment => rcases comment?_eq_comment hcomment with hc | hc <;> cases hc
  | lexeme hlexes => exact hlexes

theorem Shape.Lexes.ne_endOfInput {c : Char} {rest : List Char} {k : Kind} {more : Nat}
    (h : Lexes c rest k more) : k ≠ .endOfInput := by
  cases h with
  | float | integer | string => decide
  | word => exact fun he => absurd (he ▸ Kind.ofWord_mem _) (by decide)
  | operator _ _ _ _ ho => exact operator?_ne_endOfInput ho

/-- No text begins with the end of input. -/
theorem Shape.front_ne_endOfInput (c : Char) (rest : List Char) :
    (Shape.front c rest).1 ≠ .lexeme .endOfInput := fun he =>
  (lexes_of_front (Prod.ext he rfl)).ne_endOfInput rfl

/-- The pieces of a text are what their texts begin with. -/
theorem exists_front_of_mem {text : List Char} {piece : Piece} (h : piece ∈ pieces text) :
    ∃ c rest, piece = ⟨(Shape.front c rest).1, c :: rest.take (Shape.front c rest).2⟩ := by
  induction text using pieces_induction with
  | nil => cases h
  | front c rest ih =>
    rw [pieces_cons, List.mem_cons] at h
    obtain rfl | h := h
    · exact ⟨c, rest, rfl⟩
    · exact ih h

theorem mem_of_mem_place {p q : Position} {ps : List Piece} {piece : Piece}
    (h : (q, piece) ∈ place p ps) : piece ∈ ps := by
  induction ps generalizing p with
  | nil => cases h
  | cons first rest ih =>
    rw [place, List.mem_cons] at h
    obtain h | h := h
    · cases h
      exact List.mem_cons_self
    · exact List.mem_cons_of_mem _ (ih h)

theorem shape_of_ofPiece? {p : Position} {piece : Piece} {t : Token}
    (h : ofPiece? p piece = some t) : piece.shape = .lexeme t.kind := by
  unfold ofPiece? at h
  split at h
  · rename_i k hk
    cases h
    exact hk
  · cases h

end Token

theorem ended_tokenize {source : String} {tokens : List Token} (h : tokenize source = .ok tokens) :
    Ended tokens := by
  unfold tokenize tokenizeChars at h
  dsimp only at h
  split at h
  · cases h
  split at h
  · cases h
  cases h
  refine ⟨_, _, rfl, rfl, fun t ht => ?_⟩
  obtain ⟨⟨p, piece⟩, hm, hpiece⟩ := List.mem_filterMap.1 ht
  obtain ⟨c, rest, rfl⟩ := exists_front_of_mem (mem_of_mem_place hm)
  intro he
  have hshape := shape_of_ofPiece? hpiece
  rw [he] at hshape
  exact Shape.front_ne_endOfInput c rest hshape

end Botscript
