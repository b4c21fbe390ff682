import Botscript.Proofs.Token.Spelled

/-!
# Texts that have tokens

A text has tokens if nothing is wrong with its pieces (`tokenizeChars_eq_ok_iff`); then these are
its lexemes and the end of input (`map_bare_of_tokenize`). Texts that are put together from some
tokens of a text have these tokens again (`tokenize_spanText`).
-/

namespace Botscript

open Token

namespace Token

theorem firstFault?_place {sort : Piece → Option LexError.Cause} {p : Position} {ps : List Piece} :
    firstFault? sort (place p ps) = none ↔ ∀ piece ∈ ps, sort piece = none := by
  induction ps generalizing p with
  | nil => simp [firstFault?, place]
  | cons piece rest ih =>
    unfold firstFault? at ih ⊢
    rw [place, List.findSome?_cons, List.forall_mem_cons]
    dsimp only
    cases sort piece with
    | none => exact ih.trans (and_iff_right rfl).symm
    | some cause => exact iff_of_false (Option.some_ne_none _) fun h => Option.some_ne_none _ h.1

/-- What is placed behind pieces without faults has the first fault. -/
theorem firstFault?_append {sort : Piece → Option LexError.Cause} {ps : List Piece}
    (h : ∀ piece ∈ ps, sort piece = none) (p : Position) (qs : List Piece) :
    firstFault? sort (place p (ps ++ qs)) =
      firstFault? sort (place (p.advance (ps.map Piece.text).flatten) qs) := by
  have hnone := (firstFault?_place (p := p)).2 h
  unfold firstFault? at hnone ⊢
  rw [place_append, List.findSome?_append, hnone, Option.none_or]

/-- The first fault stands behind pieces without faults. -/
theorem exists_of_firstFault? {sort : Piece → Option LexError.Cause} {p : Position}
    {ps : List Piece} {e : LexError} (h : firstFault? sort (place p ps) = some e) :
    ∃ before piece behind, ps = before ++ piece :: behind ∧ (∀ q ∈ before, sort q = none) ∧
      sort piece = some e.cause ∧ e.pos = p.advance (before.map Piece.text).flatten := by
  induction ps generalizing p with
  | nil => cases h
  | cons first rest ih =>
    cases hfirst : sort first with
    | some cause =>
      obtain rfl : ⟨p, cause⟩ = e := by simpa [firstFault?, place, hfirst] using h
      exact ⟨[], first, rest, rfl, fun _ hq => absurd hq List.not_mem_nil, hfirst, rfl⟩
    | none =>
      have happend := firstFault?_append (List.forall_mem_singleton.2 hfirst) p rest
      rw [List.singleton_append, h] at happend
      obtain ⟨before, piece, behind, rfl, hbefore, hpiece, hpos⟩ := ih happend.symm
      refine ⟨first :: before, piece, behind, rfl, List.forall_mem_cons.2 ⟨hfirst, hbefore⟩,
        hpiece, ?_⟩
      rw [hpos, ← Position.advance_append]
      simp

/-- The tokens of placed pieces, without their places. -/
theorem map_bare_place (p : Position) (ps : List Piece) :
    ((place p ps).filterMap fun (p, piece) => ofPiece? p piece).map bare =
      ps.filterMap Piece.lexeme? := by
  induction ps generalizing p with
  | nil => rfl
  | cons piece rest ih =>
    have hpiece := Piece.map_bare_ofPiece? p piece
    rw [place, List.filterMap_cons, List.filterMap_cons, ← hpiece]
    dsimp only
    cases ofPiece? p piece with
    | none => exact ih _
    | some t => exact congrArg (t.bare :: ·) (ih _)

end Token

/-- A text has tokens if nothing is wrong with its pieces. -/
theorem tokenizeChars_eq_ok_iff {text : List Char} {tokens : List Token} :
    tokenizeChars text = .ok tokens ↔ (∀ piece ∈ pieces text, piece.Clean) ∧
      (place .origin (pieces text)).filterMap (fun (p, piece) => ofPiece? p piece) ++
        [ending (Position.origin.advance text)] = tokens := by
  have hclean : (∀ piece ∈ pieces text, piece.Clean) ↔
      firstFault? Piece.stray? (place .origin (pieces text)) = none ∧
        firstFault? Piece.fault? (place .origin (pieces text)) = none := by
    rw [firstFault?_place, firstFault?_place, ← forall₂_and]
    rfl
  rw [hclean]
  unfold tokenizeChars
  dsimp only
  cases firstFault? Piece.stray? (place .origin (pieces text)) with
  | some e => simp
  | none =>
    cases firstFault? Piece.fault? (place .origin (pieces text)) with
    | some e => simp
    | none => simp

/-- A text fails with its first stray character, or else with its first fault. -/
theorem tokenizeChars_eq_error_iff {text : List Char} {e : LexError} :
    tokenizeChars text = .error e ↔
      firstFault? Piece.stray? (place .origin (pieces text)) = some e ∨
      firstFault? Piece.stray? (place .origin (pieces text)) = none ∧
        firstFault? Piece.fault? (place .origin (pieces text)) = some e := by
  unfold tokenizeChars
  dsimp only
  cases firstFault? Piece.stray? (place .origin (pieces text)) with
  | some e' => simp
  | none => cases firstFault? Piece.fault? (place .origin (pieces text)) <;> simp

theorem map_bare_of_tokenize {text : List Char} {tokens : List Token}
    (h : tokenizeChars text = .ok tokens) :
    tokens.map bare = lexemes text ++ [⟨.endOfInput, "", .origin, 0⟩] := by
  rw [← (tokenizeChars_eq_ok_iff.1 h).2, List.map_append, map_bare_place]
  rfl

/-- A text that spells some lexemes has tokens, which are these and the end of input. -/
theorem Token.Spells.exists_tokens {F : List Char → Prop} {text : List Char} {w : List Token}
    (h : Spells F text w) : ∃ tokens, tokenizeChars text = .ok tokens ∧
      tokens.map bare = w ++ [⟨.endOfInput, "", .origin, 0⟩] := by
  have htokens := tokenizeChars_eq_ok_iff.2 ⟨h.clean, rfl⟩
  refine ⟨_, htokens, ?_⟩
  rw [map_bare_of_tokenize htokens, h.lexemes]

/-! ## Tokens put together again -/

namespace Token

/-- The kind and the image of a token. -/
def look (t : Token) : Kind × String := (t.kind, t.image)

/-- A text has tokens that look like some tokens, and the end of input behind them. -/
def Retells (text : String) (w : List Token) : Prop :=
  ∃ tokens ending, tokenize text = .ok (tokens ++ [ending]) ∧ ending.kind = .endOfInput ∧
    tokens.map look = w.map look

/-- Tokens of a text other than its end are spelled by their images. -/
theorem genuine_of_tokenize {source : String} {tokens : List Token} {t : Token}
    (h : tokenize source = .ok tokens) (ht : t ∈ tokens) (hend : t.kind ≠ .endOfInput) :
    t.Genuine := by
  have hmem : t.bare ∈ lexemes source.toList ++ [⟨.endOfInput, "", .origin, 0⟩] := by
    rw [← map_bare_of_tokenize h]
    exact List.mem_map_of_mem ht
  rcases List.mem_append.1 hmem with hmem | hmem
  · have hgenuine : t.bare.Genuine := genuine_of_mem (tokenizeChars_eq_ok_iff.1 h).1 hmem
    exact hgenuine
  · exact absurd (kind_of_bare (List.mem_singleton.1 hmem)) hend

theorem Spells.retells {F : List Char → Prop} {text : String} {w : List Token}
    (h : Spells F text.toList (w.map bare)) : Retells text w := by
  obtain ⟨tokens, htokens, hbare⟩ := h.exists_tokens
  obtain ⟨front, last, rfl, hfront, hlast⟩ := List.map_eq_append_iff.1 hbare
  obtain ⟨ending, rfl, hending⟩ := List.map_eq_singleton_iff.1 hlast
  refine ⟨front, ending, htokens, kind_of_bare hending, ?_⟩
  have hlook := congrArg (List.map look) hfront
  rwa [List.map_map, List.map_map] at hlook

end Token

/-- The texts that are put together from some tokens of a text have these tokens again. -/
theorem tokenize_spanText {source : String} {tokens w : List Token}
    (h : tokenize source = .ok tokens) (hw : w <:+: tokens)
    (hend : ∀ t ∈ w, t.kind ≠ .endOfInput) :
    Retells (spanText w) w ∧ (w ≠ [] → Retells (statementText w) w) := by
  have hgenuine : ∀ t ∈ w, t.Genuine := fun t ht =>
    genuine_of_tokenize h (hw.mem ht) (hend t ht)
  have hspan : Retells (spanText w) w := (spells_spanText hgenuine).retells
  refine ⟨hspan, fun hne => ?_⟩
  obtain ⟨front, last, rfl⟩ : ∃ front last, w = front ++ [last] :=
    ⟨_, _, (List.dropLast_concat_getLast hne).symm⟩
  by_cases hlast : last.kind = .semicolon
  · have hfront : ∀ t ∈ front, t.Genuine := fun t ht => hgenuine t (List.mem_append_left _ ht)
    have hsemicolon : last.bare = ofKind .semicolon :=
      (hgenuine last List.mem_concat_self).bare_eq hlast (by decide)
    have hspells := spells_statementText hfront hlast
    rw [← hsemicolon, ← List.map_singleton, ← List.map_append] at hspells
    exact hspells.retells
  · -- without a semicolon at its end a statement is put together like any other tokens
    have htext : statementText (front ++ [last]) = spanText (front ++ [last]) := by
      simp [statementText, hlast]
    rwa [htext]

/-- Tokens that stand without blanks, and a semicolon. -/
theorem tokenize_spanText_sign : ∃ tokens w, tokenize "x=-1.5;" = .ok tokens ∧ w <:+: tokens ∧
    (∀ t ∈ w, t.kind ≠ .endOfInput) ∧ w ≠ [] ∧ spanText w = "= - 1.5 ;" ∧
    statementText w = "= - 1.5;" ∧ Retells (spanText w) w ∧ Retells (statementText w) w := by
  let w : List Token := [⟨.assign, "=", ⟨1, 2, 1⟩, 2⟩, ⟨.minus, "-", ⟨1, 3, 2⟩, 3⟩,
    ⟨.float, "1.5", ⟨1, 4, 3⟩, 6⟩, ⟨.semicolon, ";", ⟨1, 7, 6⟩, 7⟩]
  have h : tokenize "x=-1.5;" =
      .ok ([⟨.identifier, "x", ⟨1, 1, 0⟩, 1⟩] ++ w ++ [⟨.endOfInput, "", ⟨1, 8, 7⟩, 7⟩]) := by
    decide +kernel
  have hend : ∀ t ∈ w, t.kind ≠ .endOfInput := by decide
  have hw : w <:+: [⟨.identifier, "x", ⟨1, 1, 0⟩, 1⟩] ++ w ++ [⟨.endOfInput, "", ⟨1, 8, 7⟩, 7⟩] :=
    ⟨_, _, rfl⟩
  obtain ⟨hspan, hstatement⟩ := tokenize_spanText h hw hend
  exact ⟨_, w, h, hw, hend, List.cons_ne_nil _ _, rfl, rfl, hspan,
    hstatement (List.cons_ne_nil _ _)⟩

end Botscript
