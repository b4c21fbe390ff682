import Botscript.Proofs.Token.Cover

/-!
# Texts on lines of their own

A text that has tokens does not change what the lines below it are read as: with a line feed between
them, two texts have the tokens of both, of which the later ones stand some lines lower
(`tokenize_lines`). No piece of the upper text goes on behind the line feed (`pieces_break`), and
whatever is read of the lower text depends on its place only by a shift (`Position.lowered`).
-/

namespace Botscript

open Token

/-! ## Places some lines lower -/

/-- A place in the same column some lines lower, with so many bytes more before it. -/
def Position.lowered (lines bytes : Nat) (p : Position) : Position :=
  ⟨p.line + lines, p.column, p.offset + bytes⟩

/-- A token in the same column some lines lower. -/
def Token.lowered (lines bytes : Nat) (t : Token) : Token :=
  { t with pos := t.pos.lowered lines bytes, stop := t.stop + bytes }

/-- An error in the same column some lines lower. -/
def LexError.lowered (lines bytes : Nat) (e : LexError) : LexError :=
  { e with pos := e.pos.lowered lines bytes }

section Lowered

variable {lines bytes : Nat} {p : Position}

namespace Position

theorem next_lowered (c : Char) :
    (p.lowered lines bytes).next c = (p.next c).lowered lines bytes := by
  unfold next lowered
  split
  · rw [Nat.add_right_comm, Nat.add_right_comm p.offset]
  · rw [Nat.add_right_comm p.offset]

theorem advance_lowered (text : List Char) :
    (p.lowered lines bytes).advance text = (p.advance text).lowered lines bytes := by
  induction text generalizing p with
  | nil => rfl
  | cons c rest ih => rw [advance_cons, advance_cons, next_lowered, ih]

/-- Behind a line feed a text stands as it does at the front, only lower. -/
theorem advance_break (text : List Char) : origin.advance (text ++ ['\n']) =
    origin.lowered (1 + text.count '\n') (byteLength text + 1) := by
  have hsize : '\n'.utf8Size = 1 := rfl
  rw [advance_append, advance_cons, advance_nil, next, if_pos rfl, lowered, line_advance,
    offset_advance_origin, hsize]
  simp [origin, Nat.add_comm, Nat.add_left_comm]

end Position

namespace Token

theorem place_lowered (ps : List Piece) : place (p.lowered lines bytes) ps =
    (place p ps).map fun (q, piece) => (q.lowered lines bytes, piece) := by
  induction ps generalizing p with
  | nil => rfl
  | cons piece rest ih => rw [place, place, Position.advance_lowered, ih, List.map_cons]

theorem ofPiece?_lowered (piece : Piece) :
    ofPiece? (p.lowered lines bytes) piece = (ofPiece? p piece).map (lowered lines bytes) := by
  unfold ofPiece?
  split
  · simp [lowered, Position.lowered, Nat.add_right_comm]
  · rfl

theorem tokensFrom_lowered (text : List Char) :
    tokensFrom (p.lowered lines bytes) text =
      (tokensFrom p text).map (lowered lines bytes) := by
  unfold tokensFrom
  rw [place_lowered, List.filterMap_map, List.map_append, List.map_filterMap,
    Position.advance_lowered]
  congr 2
  funext ⟨q, piece⟩
  exact ofPiece?_lowered piece

theorem firstFault?_lowered (sort : Piece → Option LexError.Cause) (ps : List Piece) :
    firstFault? sort (place (p.lowered lines bytes) ps) =
      (firstFault? sort (place p ps)).map (LexError.lowered lines bytes) := by
  unfold firstFault?
  rw [place_lowered, List.findSome?_map, List.map_findSome?]
  congr 1
  funext ⟨q, piece⟩
  cases h : sort piece <;> simp [h, LexError.lowered]

end Token

end Lowered

/-! ## Line feeds between texts -/

namespace Token

theorem endsLine_break (after : List Char) : EndsLine ('\n' :: after) := endsLine_cons.2 rfl

variable {above : List Char}

/-- A line feed behind a text without faults cuts the text. -/
theorem pieces_break (h : ∀ piece ∈ pieces above, piece.Clean) (below : List Char) :
    pieces (above ++ '\n' :: below) = (pieces above ++ [⟨.blank, ['\n']⟩]) ++ pieces below := by
  have hdelimited : Delimited ('\n' :: below) := delimited_cons.2 (by decide)
  have happend := pieces_append (List.append_nil _).symm h hdelimited (.inr (endsLine_break below))
  rw [join_pieces] at happend
  rw [happend, pieces_one (by rfl), List.append_assoc, List.singleton_append]

theorem firstFault?_break {sort : Piece → Option LexError.Cause}
    (h : ∀ piece ∈ pieces above, piece.Clean) (hsort : ∀ piece : Piece, piece.Clean →
      sort piece = none) (below : List Char) :
    firstFault? sort (place .origin (pieces (above ++ '\n' :: below))) =
      (firstFault? sort (place .origin (pieces below))).map
        (LexError.lowered (1 + above.count '\n') (byteLength above + 1)) := by
  have hnone : ∀ piece ∈ pieces above ++ [⟨.blank, ['\n']⟩], sort piece = none :=
    fun piece hp => hsort piece <| (List.mem_append.1 hp).elim (h piece) fun hbreak => by
      rw [List.mem_singleton.1 hbreak]
      exact ⟨rfl, rfl⟩
  rw [pieces_break h, firstFault?_append hnone, List.map_append, List.flatten_append, join_pieces,
    List.map_singleton, List.flatten_singleton, Position.advance_break, firstFault?_lowered]

theorem tokensFrom_break (h : ∀ piece ∈ pieces above, piece.Clean) (below : List Char) :
    tokensFrom .origin (above ++ '\n' :: below) = (tokensFrom .origin above).dropLast ++
      (tokensFrom .origin below).map (lowered (1 + above.count '\n') (byteLength above + 1)) := by
  have htext : above ++ '\n' :: below = (above ++ ['\n']) ++ below := by simp
  rw [← tokensFrom_lowered, ← Position.advance_break]
  unfold tokensFrom
  rw [pieces_break h, htext, Position.advance_append _ _ below, List.dropLast_concat,
    place_append, List.filterMap_append, place_append, List.filterMap_append, List.map_append,
    List.flatten_append, join_pieces, List.map_singleton, List.flatten_singleton]
  simp [place, ofPiece?]

end Token

/-- With a line feed behind it, a text with tokens may stand above any other. The tokens are those
of both texts, without the upper end of input, and what the lower text has, be it tokens or an
error, stands as many lines and bytes lower as there are above it, in the same column. -/
theorem tokenize_lines {above below : String} {tokens : List Token}
    (h : tokenize above = .ok tokens) :
    (∀ more, tokenize below = .ok more → tokenize (above ++ "\n" ++ below) =
      .ok (tokens.filter (·.kind ≠ .endOfInput) ++
        more.map (Token.lowered (1 + above.toList.count '\n') (above.utf8ByteSize + 1)))) ∧
    ∀ e, tokenize below = .error e → tokenize (above ++ "\n" ++ below) =
      .error (e.lowered (1 + above.toList.count '\n') (above.utf8ByteSize + 1)) := by
  obtain ⟨body, last, rfl, hlast, hbody⟩ := ended_tokenize h
  obtain ⟨hclean, htokens⟩ := tokenizeChars_eq_ok_iff.1 h
  have htext : (above ++ "\n" ++ below).toList = above.toList ++ '\n' :: below.toList := by
    simp [String.toList_append]
  have hfilter : (body ++ [last]).filter (·.kind ≠ .endOfInput) = body := by
    rw [List.filter_append, List.filter_eq_self.2 fun t ht => decide_eq_true (hbody t ht)]
    simp [hlast]
  unfold tokenize
  rw [htext, ← byteLength_toList]
  constructor
  · intro more hmore
    obtain ⟨hcleanmore, rfl⟩ := tokenizeChars_eq_ok_iff.1 hmore
    refine tokenizeChars_eq_ok_iff.2 ⟨?_, ?_⟩
    · rw [pieces_break hclean]
      simp only [List.forall_mem_append, List.forall_mem_singleton]
      exact ⟨⟨hclean, rfl, rfl⟩, hcleanmore⟩
    · refine (tokensFrom_break hclean below.toList).trans ?_
      unfold tokensFrom
      rw [htokens, List.dropLast_concat, hfilter]
  · intro e he
    have hstrays := firstFault?_break hclean fun _ hp => hp.1
    have hfaults := firstFault?_break hclean fun _ hp => hp.2
    rw [tokenizeChars_eq_error_iff, hstrays, hfaults]
    obtain hstray | ⟨hnone, hfault⟩ := tokenizeChars_eq_error_iff.1 he
    · exact .inl (by rw [hstray, Option.map_some])
    · exact .inr ⟨by rw [hnone, Option.map_none], by rw [hfault, Option.map_some]⟩

/-- A comment that a line feed ends together with a carriage return, above a name and above an open
string. -/
theorem tokenize_lines_comment :
    tokenize "x // é\r" = .ok [⟨.identifier, "x", ⟨1, 1, 0⟩, 1⟩, ⟨.endOfInput, "", ⟨1, 8, 8⟩, 8⟩] ∧
    tokenize ("x // é\r" ++ "\n" ++ " y") = .ok [⟨.identifier, "x", ⟨1, 1, 0⟩, 1⟩,
      ⟨.identifier, "y", ⟨2, 2, 10⟩, 11⟩, ⟨.endOfInput, "", ⟨2, 3, 11⟩, 11⟩] ∧
    tokenize ("x // é\r" ++ "\n" ++ "y \"") = .error ⟨⟨2, 3, 11⟩, .unterminatedString⟩ := by
  have h : tokenize "x // é\r" =
      .ok [⟨.identifier, "x", ⟨1, 1, 0⟩, 1⟩, ⟨.endOfInput, "", ⟨1, 8, 8⟩, 8⟩] := by
    decide +kernel
  have hname : tokenize " y" =
      .ok [⟨.identifier, "y", ⟨1, 2, 1⟩, 2⟩, ⟨.endOfInput, "", ⟨1, 3, 2⟩, 2⟩] := by
    decide +kernel
  have hopen : tokenize "y \"" = .error ⟨⟨1, 3, 2⟩, .unterminatedString⟩ := by decide +kernel
  exact ⟨h, (tokenize_lines h).1 _ hname, (tokenize_lines h).2 _ hopen⟩

end Botscript
