import Botscript.Proofs.Parse.Forward
import Botscript.Proofs.Token.Accepted

/-!
# The text ahead

The tokens of a `Scanned` input are those of its source. `Input.Ahead` ties the indices of tokens
to the text: `rest` is what the source has from a token on. A text that spells some lexemes takes
as many tokens off (`Ahead.step`), and these are its lexemes (`Ahead.token`). The text between two
tokens of the source spells the tokens between them (`Scanned.exists_between`).
-/

namespace Botscript

open Token

namespace Parse

/-! ## Scanned inputs -/

/-- The tokens of an input are those of its source. -/
def Input.Scanned (input : Input) : Prop :=
  tokenizeChars input.source = .ok input.tokens.toList

/-- The source ends in `rest`, whose first token has the index `i`. -/
def Input.Ahead (input : Input) (i : Nat) (rest : List Char) : Prop :=
  ∃ ps, pieces input.source = ps ++ pieces rest ∧ (ps.filterMap Piece.lexeme?).length = i

variable {input : Input} {F : List Char → Prop} {i : Nat} {text after rest : List Char}
  {w : List Token} {t : Token}

namespace Input

theorem Scanned.clean (h : input.Scanned) : ∀ piece ∈ pieces input.source, piece.Clean :=
  (tokenizeChars_eq_ok_iff.1 h).1

theorem Scanned.map_bare (h : input.Scanned) : input.tokens.toList.map bare =
    lexemes input.source ++ [⟨.endOfInput, "", .origin, 0⟩] := map_bare_of_tokenize h

theorem token_of_getElem? (h : input.tokens.toList[i]? = some t) : input.token i = t := by
  rw [Array.getElem?_toList] at h
  unfold Input.token
  rw [h]

/-- A token of the source, without its place. -/
theorem Scanned.bare_token (h : input.Scanned)
    (ht : (lexemes input.source ++ [⟨.endOfInput, "", .origin, 0⟩])[i]? = some t) :
    (input.token i).bare = t := by
  rw [← h.map_bare, List.getElem?_map, Option.map_eq_some_iff] at ht
  obtain ⟨u, hu, rfl⟩ := ht
  rw [token_of_getElem? hu]

theorem ahead_source (input : Input) : input.Ahead 0 input.source := ⟨[], rfl, rfl⟩

namespace Ahead

theorem lexemes_source (h : input.Ahead i rest) :
    ∃ front, lexemes input.source = front ++ lexemes rest ∧ front.length = i := by
  obtain ⟨ps, hps, hi⟩ := h
  exact ⟨ps.filterMap Piece.lexeme?, by rw [lexemes, hps, List.filterMap_append]; rfl, hi⟩

/-- The tokens from an index on are the lexemes of the text ahead. -/
theorem token (h : input.Ahead i rest) (hs : input.Scanned) {k : Nat}
    (ht : (lexemes rest)[k]? = some t) : (input.token (i + k)).bare = t := by
  obtain ⟨front, hfront, rfl⟩ := h.lexemes_source
  have hk : k < (lexemes rest).length := (List.getElem?_eq_some_iff.1 ht).1
  refine hs.bare_token ?_
  rw [hfront, List.append_assoc, List.getElem?_append_right (Nat.le_add_right _ _),
    Nat.add_sub_cancel_left, List.getElem?_append_left hk, ht]

/-- A text that is passed takes its lexemes off. -/
theorem step (h : input.Ahead i (text ++ after)) (hs : Spells F text w) (hF : F after) :
    input.Ahead (i + w.length) after := by
  obtain ⟨ps, hps, rfl⟩ := h
  refine ⟨ps ++ pieces text, ?_, ?_⟩
  · rw [hps, hs.splits after hF, List.append_assoc]
  · rw [List.filterMap_append, List.length_append]
    exact congrArg (_ + List.length ·) hs.lexemes

end Ahead

/-! ## The text between tokens -/

/-- The token of a piece. -/
theorem Scanned.token_eq (h : input.Scanned) {ps qs : List Piece} {k : Kind}
    (hps : pieces input.source = ps ++ ⟨.lexeme k, text⟩ :: qs) :
    (input.token (ps.filterMap Piece.lexeme?).length).start =
        byteLength (ps.map Piece.text).flatten ∧
      (input.token (ps.filterMap Piece.lexeme?).length).stop =
        byteLength (ps.map Piece.text).flatten + byteLength text := by
  have hoffset : (Position.origin.advance (ps.map Piece.text).flatten).offset =
      byteLength (ps.map Piece.text).flatten := by
    rw [Position.offset_advance]
    exact Nat.zero_add _
  have htokens := (tokenizeChars_eq_ok_iff.1 h).2
  rw [hps, place_append, place, List.filterMap_append, List.filterMap_cons] at htokens
  have ht : input.token (ps.filterMap Piece.lexeme?).length = ⟨k, String.ofList text,
      Position.origin.advance (ps.map Piece.text).flatten,
      (Position.origin.advance (ps.map Piece.text).flatten).offset + byteLength text⟩ := by
    apply token_of_getElem?
    rw [← htokens, ← map_bare_place .origin, List.length_map, List.append_assoc,
      List.getElem?_append_right le_rfl, Nat.sub_self]
    rfl
  rw [ht]
  exact ⟨hoffset, congrArg (· + _) hoffset⟩

/-- The text between two tokens is what the pieces between them are made of. -/
theorem Scanned.between_eq (h : input.Scanned) {ps mid qs : List Piece}
    (hps : pieces input.source = ps ++ (mid ++ qs))
    (hfirst : ∃ k t rest, mid = ⟨.lexeme k, t⟩ :: rest) (hend : EndsInLexeme mid) :
    input.between (ps.filterMap Piece.lexeme?).length
        ((ps.filterMap Piece.lexeme?).length + (mid.filterMap Piece.lexeme?).length) =
      String.ofList (mid.map Piece.text).flatten := by
  have hsource : input.source = (ps.map Piece.text).flatten ++ (mid.map Piece.text).flatten ++
      (qs.map Piece.text).flatten := by
    rw [← join_pieces input.source, hps]
    simp only [List.map_append, List.flatten_append, List.append_assoc]
  obtain ⟨k, t, rest, hfirst⟩ := hfirst
  obtain ⟨front, l, u, rfl⟩ := hend
  have hhead : pieces input.source = ps ++ ⟨.lexeme k, t⟩ :: (rest ++ qs) := by
    rw [hps, hfirst]
    rfl
  have hlast : pieces input.source = (ps ++ front) ++ ⟨.lexeme l, u⟩ :: qs := by
    rw [hps, List.append_assoc, List.append_assoc]
    rfl
  have hstart := (h.token_eq hhead).1
  have hstop := (h.token_eq hlast).2
  have hlength : ((front ++ [(⟨.lexeme l, u⟩ : Piece)]).filterMap Piece.lexeme?).length =
      (front.filterMap Piece.lexeme?).length + 1 := by
    rw [List.filterMap_append, List.length_append]
    rfl
  have htext : byteLength ((front ++ [(⟨.lexeme l, u⟩ : Piece)]).map Piece.text).flatten =
      byteLength (front.map Piece.text).flatten + byteLength u := by
    rw [List.map_append, List.flatten_append, byteLength_append]
    simp
  unfold Input.between
  rw [if_neg (by omega), hlength, ← Nat.add_assoc, Nat.add_sub_cancel, hstart,
    ← List.length_append, ← List.filterMap_append, hstop, List.map_append, List.flatten_append,
    byteLength_append, Nat.add_assoc, ← htext, hsource, slice_append]

end Input

/-- A text that is empty or has a lexeme at either end. -/
def Tight (text : List Char) : Prop :=
  text = [] ∨ (∃ k t rest, pieces text = ⟨.lexeme k, t⟩ :: rest) ∧ EndsInLexeme (pieces text)

/-- A tight text that is ahead is the text between its tokens. -/
theorem Input.Ahead.between (h : input.Ahead i (text ++ after)) (hs : input.Scanned)
    (ht : Tight text) (hw : Spells F text w) (hF : F after) :
    input.between i (i + w.length) = String.ofList text := by
  obtain rfl | ⟨hfirst, hend⟩ := ht
  · have hnil : w = [] := hw.lexemes.symm
    rw [hnil]
    exact if_pos rfl
  obtain ⟨ps, hps, rfl⟩ := h
  rw [hw.splits after hF] at hps
  have hbetween := hs.between_eq hps hfirst hend
  rwa [join_pieces, ← lexemes, hw.lexemes] at hbetween

end Parse

/-! ## Parts of a source -/

namespace Token

variable {ps : List Piece} {u v w : List Token}

theorem eq_of_lexeme? {piece : Piece} {t : Token} (h : piece.lexeme? = some t) :
    piece = ⟨.lexeme t.kind, piece.text⟩ := by
  rw [← (lexeme?_eq_some h).1]

/-- What comes behind the last lexeme may be left out. -/
theorem exists_trimmed (h : ps.filterMap Piece.lexeme? = w) (hw : w ≠ []) :
    ∃ mid back, ps = mid ++ back ∧ mid.filterMap Piece.lexeme? = w ∧ EndsInLexeme mid := by
  obtain ⟨w, t, rfl⟩ := (List.eq_nil_or_concat w).resolve_left hw
  rw [List.concat_eq_append] at h ⊢
  obtain ⟨front, rest, rfl, hfront, hrest⟩ := List.filterMap_eq_append_iff.1 h
  obtain ⟨between, last, back, rfl, hnone, hlast, -⟩ := List.filterMap_eq_cons_iff.1 hrest
  refine ⟨front ++ between ++ [last], back, by simp, ?_, front ++ between, t.kind, last.text, ?_⟩
  · rw [List.filterMap_append, List.filterMap_append, hfront,
      List.filterMap_eq_nil_iff.2 hnone, List.filterMap_cons, hlast]
    simp
  · rw [← eq_of_lexeme? hlast]

/-- Lexemes that follow one another come from pieces that do. -/
theorem exists_part (h : ps.filterMap Piece.lexeme? = u ++ (w ++ v)) (hw : w ≠ []) :
    ∃ front mid back, ps = front ++ (mid ++ back) ∧ front.filterMap Piece.lexeme? = u ∧
      mid.filterMap Piece.lexeme? = w ∧ (∃ k t rest, mid = ⟨.lexeme k, t⟩ :: rest) ∧
      EndsInLexeme mid := by
  obtain ⟨front, rest, rfl, hfront, hrest⟩ := List.filterMap_eq_append_iff.1 h
  obtain ⟨t, w, rfl⟩ := List.exists_cons_of_ne_nil hw
  obtain ⟨blanks, first, tail, rfl, hnone, hfirst, htail⟩ := List.filterMap_eq_cons_iff.1 hrest
  have hpart : (first :: tail).filterMap Piece.lexeme? = (t :: w) ++ v := by
    rw [List.filterMap_cons, hfirst, htail]
    rfl
  obtain ⟨mid, back, hsplit, hmid, -⟩ := List.filterMap_eq_append_iff.1 hpart
  obtain ⟨mid, rest, rfl, hmid, hend⟩ := exists_trimmed hmid hw
  refine ⟨front ++ blanks, mid, rest ++ back, ?_, ?_, hmid, ?_, hend⟩
  · rw [hsplit, List.append_assoc, List.append_assoc]
  · rw [List.filterMap_append, List.filterMap_eq_nil_iff.2 hnone, List.append_nil, hfront]
  · obtain ⟨before, k, text, rfl⟩ := hend
    cases before with
    | nil => exact ⟨k, text, [], rfl⟩
    | cons piece before =>
      obtain ⟨rfl, -⟩ := List.cons.inj hsplit
      exact ⟨_, _, _, congrArg (· :: _) (eq_of_lexeme? hfirst)⟩

end Token

namespace Parse.Input

variable {input : Input} {i n : Nat}

/-- The tokens of the source before its end. -/
theorem Scanned.lt_length (h : input.Scanned) (hi : input.kind i ≠ .endOfInput) :
    i < (lexemes input.source).length := by
  by_contra hge
  refine hi ?_
  obtain hlt | hle := Nat.lt_or_ge i input.tokens.size
  · have hlength := congrArg List.length h.map_bare
    rw [List.length_map, List.length_append, List.length_singleton, Array.length_toList] at hlength
    have hi : i = (lexemes input.source).length := by omega
    rw [hi]
    exact congrArg Token.kind (h.bare_token List.getElem?_concat_length)
  · exact Cursor.kind_of_size_le hle

/-- Some tokens of the source, without their places. -/
theorem Scanned.map_bare_span (h : input.Scanned) (hn : i + n ≤ (lexemes input.source).length) :
    (input.span i (i + n)).map bare = ((lexemes input.source).drop i).take n := by
  unfold Input.span
  rw [Array.toList_extract, List.extract, List.map_take, List.map_drop, h.map_bare,
    List.drop_append_of_le_length (by omega), Nat.add_sub_cancel_left,
    List.take_append_of_le_length (by rw [List.length_drop]; omega)]

/-- The text between two tokens of the source, wherever it is moved to, spells the tokens between
them. -/
theorem Scanned.exists_between (h : input.Scanned)
    (hn : i + n ≤ (lexemes input.source).length) :
    ∃ text, input.between i (i + n) = String.ofList text ∧ Tight text ∧
      Spells Delimited text ((input.span i (i + n)).map bare) := by
  cases n with
  | zero => exact ⟨[], if_pos rfl, .inl rfl, by simpa [Input.span] using Spells.nil⟩
  | succ n =>
    have hlexemes : (pieces input.source).filterMap Piece.lexeme? =
        (lexemes input.source).take i ++ (((lexemes input.source).drop i).take (n + 1) ++
          ((lexemes input.source).drop i).drop (n + 1)) := by
      rw [List.take_append_drop, List.take_append_drop]
      rfl
    have hlength : (((lexemes input.source).drop i).take (n + 1)).length = n + 1 := by
      rw [List.length_take, List.length_drop]
      omega
    obtain ⟨ps, mid, qs, hps, hfront, hmid, hfirst, hend⟩ :=
      exists_part hlexemes (List.ne_nil_of_length_eq_add_one hlength)
    have hpieces : pieces ((mid ++ qs).map Piece.text).flatten = mid ++ qs := pieces_back hps
    have hclean : ∀ piece ∈ mid, piece.Clean := fun piece hp => h.clean piece (by simp [hps, hp])
    have hspells := spells_of_pieces hpieces hclean hend
    have hbetween := h.between_eq hps hfirst hend
    have htight : Tight (mid.map Piece.text).flatten := by
      rw [Tight, pieces_front hpieces hclean]
      exact .inr ⟨hfirst, hend⟩
    rw [hfront, hmid, hlength, List.length_take, min_eq_left (by omega)] at hbetween
    rw [hmid, ← h.map_bare_span hn] at hspells
    exact ⟨_, hbetween, htight, hspells⟩

end Parse.Input

end Botscript
