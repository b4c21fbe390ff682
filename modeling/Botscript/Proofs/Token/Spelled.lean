import Botscript.Token.Span
import Botscript.Proofs.Token.Front

/-!
# Texts of tokens

`Spells` says which lexemes a text is made of, if what follows it is as it should be. Texts put
together spell the lexemes of their parts (`Spells.append`), and any part of a text that ends with a
lexeme spells its own lexemes wherever it is moved to (`spells_of_pieces`).
-/

namespace Botscript.Token

/-- A token without its place. -/
def bare (t : Token) : Token := ⟨t.kind, t.image, .origin, 0⟩

@[simp] theorem bare_kind (t : Token) : t.bare.kind = t.kind := rfl
@[simp] theorem bare_image (t : Token) : t.bare.image = t.image := rfl

theorem kind_of_bare {t t' : Token} (h : t.bare = t') : t.kind = t'.kind := by
  rw [← bare_kind t, h]

theorem map_bare_map_bare (w : List Token) : (w.map bare).map bare = w.map bare := by
  rw [List.map_map]
  rfl

namespace Piece

/-- Nothing is wrong with a piece. -/
def Clean (piece : Piece) : Prop := piece.stray? = none ∧ piece.fault? = none

/-- The lexeme of a piece, without a place. -/
def lexeme? (piece : Piece) : Option Token := (ofPiece? .origin piece).map bare

theorem map_bare_ofPiece? (p : Position) (piece : Piece) :
    (ofPiece? p piece).map bare = piece.lexeme? := by
  unfold lexeme? ofPiece?
  split <;> rfl

end Piece

/-- The lexemes of a text. -/
def lexemes (text : List Char) : List Token := (pieces text).filterMap Piece.lexeme?

/-- A text is made of some lexemes, if what follows it is as it should be. -/
structure Spells (F : List Char → Prop) (text : List Char) (w : List Token) : Prop where
  splits : ∀ after, F after → pieces (text ++ after) = pieces text ++ pieces after
  clean : ∀ piece ∈ pieces text, piece.Clean
  lexemes : lexemes text = w

/-- What follows does not matter. -/
def Anything (_ : List Char) : Prop := True

variable {F G : List Char → Prop} {a b : List Char} {v w : List Token}

namespace Spells

theorem nil : Spells F [] [] := ⟨fun _ _ => rfl, fun _ hp => absurd hp List.not_mem_nil, rfl⟩

theorem mono (h : Spells F a v) (hG : ∀ after, G after → F after) : Spells G a v :=
  ⟨fun after ha => h.splits after (hG after ha), h.clean, h.lexemes⟩

/-- One text behind another. -/
theorem append (ha : Spells F a v) (hb : Spells G b w) (hF : F b)
    (hG : ∀ after, G after → F (b ++ after)) : Spells G (a ++ b) (v ++ w) where
  splits after hafter := by
    rw [List.append_assoc, ha.splits _ (hG after hafter), hb.splits after hafter, ha.splits b hF,
      List.append_assoc]
  clean piece hp := by
    rw [ha.splits b hF, List.mem_append] at hp
    exact hp.elim (ha.clean piece) (hb.clean piece)
  lexemes := by
    rw [Token.lexemes, ha.splits b hF, List.filterMap_append]
    exact congrArg₂ _ ha.lexemes hb.lexemes

/-- One text behind another that it ends. -/
theorem append_delimited (ha : Spells Delimited a v) (hb : Spells Delimited b w)
    (hd : Delimited b) : Spells Delimited (a ++ b) (v ++ w) :=
  ha.append hb hd fun after hafter => by
    cases b with
    | nil => exact hafter
    | cons c rest => exact delimited_cons.2 (delimited_cons.1 hd)

/-- A text behind another that does not mind what follows it. -/
theorem append_anything (ha : Spells Anything a v) (hb : Spells F b w) :
    Spells F (a ++ b) (v ++ w) :=
  ha.append hb trivial fun _ _ => trivial

end Spells

/-! ## Parts of a text -/

/-- The last piece is a lexeme. -/
def EndsInLexeme (ps : List Piece) : Prop :=
  ∃ front kind text, ps = front ++ [⟨.lexeme kind, text⟩]

theorem EndsInLexeme.cons {first : Piece} {rest : List Piece} (h : EndsInLexeme (first :: rest)) :
    (rest = [] ∧ ∃ kind text, first = ⟨.lexeme kind, text⟩) ∨ EndsInLexeme rest := by
  obtain ⟨front, kind, text, he⟩ := h
  cases front with
  | nil =>
    obtain ⟨rfl, rfl⟩ := List.cons.inj he
    exact .inl ⟨rfl, kind, text, rfl⟩
  | cons _ front =>
    obtain ⟨-, rfl⟩ := List.cons.inj he
    exact .inr ⟨front, kind, text, rfl⟩

theorem Piece.shape_ne_stray {piece : Piece} (h : piece.stray? = none) (hne : piece.text ≠ []) :
    piece.shape ≠ .stray := fun hs => by
  obtain ⟨c, rest, hc⟩ := List.exists_cons_of_ne_nil hne
  simp [stray?, hs, hc] at h

theorem Piece.Clean.shape {piece : Piece} (h : piece.Clean) (hne : piece.text ≠ []) :
    piece.shape ≠ .openComment ∧ piece.shape ≠ .openString ∧ piece.shape ≠ .stray := by
  obtain ⟨hstray, hfault⟩ := h
  refine ⟨fun hs => ?_, fun hs => ?_, shape_ne_stray hstray hne⟩
  · simp [fault?, hs] at hfault
  · simp [fault?, hs] at hfault

theorem text_ne_nil {text : List Char} {piece : Piece} (h : piece ∈ pieces text) :
    piece.text ≠ [] := by
  obtain ⟨c, rest, rfl⟩ := exists_front_of_mem h
  exact List.cons_ne_nil _ _

/-- A text is made up of some of its pieces and the others. -/
theorem join_append {text : List Char} {ps qs : List Piece} (h : pieces text = ps ++ qs) :
    text = (ps.map Piece.text).flatten ++ (qs.map Piece.text).flatten := by
  rw [← List.flatten_append, ← List.map_append, ← h, join_pieces]

theorem EndsInLexeme.flatten_ne_nil {text : List Char} {ps qs : List Piece} (h : EndsInLexeme ps)
    (hps : pieces text = ps ++ qs) : (ps.map Piece.text).flatten ≠ [] := by
  obtain ⟨front, kind, t, rfl⟩ := h
  have hlast : ⟨.lexeme kind, t⟩ ∈ pieces text := by simp [hps]
  simpa using fun _ => text_ne_nil hlast

theorem pieces_of_front {c : Char} {u v : List Char} {shape : Shape}
    (h : Shape.front c (u ++ v) = (shape, u.length)) :
    pieces (c :: (u ++ v)) = ⟨shape, c :: u⟩ :: pieces v := by
  rw [pieces_cons, h, List.take_left, List.drop_left]

/-- The text of the first piece, and what is behind it. -/
theorem exists_append_of_pieces {c : Char} {tail : List Char} {first : Piece} {rest : List Piece}
    (h : pieces (c :: tail) = first :: rest) : ∃ shape u v, tail = u ++ v ∧
      Shape.front c (u ++ v) = (shape, u.length) ∧ first = ⟨shape, c :: u⟩ ∧ pieces v = rest := by
  obtain ⟨shape, u, v, rfl, hfront⟩ := Shape.exists_front c tail
  rw [pieces_of_front hfront] at h
  obtain ⟨hfirst, hrest⟩ := List.cons.inj h
  exact ⟨shape, u, v, rfl, hfront, hfirst.symm, hrest⟩

/-- The pieces of a front of a text are the same before any delimited text, if the front ends in a
lexeme or what follows ends its line. -/
theorem pieces_append {text : List Char} {ps qs : List Piece} (h : pieces text = ps ++ qs)
    (hclean : ∀ piece ∈ ps, piece.Clean) {after : List Char} (ha : Delimited after)
    (hend : EndsInLexeme ps ∨ EndsLine after) :
    pieces ((ps.map Piece.text).flatten ++ after) = ps ++ pieces after := by
  induction ps generalizing text with
  | nil => rfl
  | cons first rest ih =>
    cases text with
    | nil => cases h
    | cons c tail =>
      rw [List.cons_append] at h
      obtain ⟨shape, u, v, rfl, hfront, rfl, hrest⟩ := exists_append_of_pieces h
      rw [join_append hrest, ← List.append_assoc] at hfront
      have hcut : Shape.front c (u ++ (rest.map Piece.text).flatten ++ after) =
          (shape, u.length) := by
        refine Shape.front_cut ha hfront ((hclean _ List.mem_cons_self).shape (by simp)) (by simp)
          fun hcomment hall => hend.resolve_left fun hend => ?_
        obtain ⟨-, kind, t, he⟩ | hmore := hend.cons
        · have hlexeme : shape = .lexeme kind := congrArg Piece.shape he
          rw [hlexeme] at hcomment
          cases hcomment
        · have hpos := List.length_pos_iff.2 (hmore.flatten_ne_nil hrest)
          rw [List.length_append] at hall
          omega
      rw [List.append_assoc] at hcut
      rw [List.map_cons, List.flatten_cons, List.append_assoc, List.cons_append,
        pieces_of_front hcut, List.cons_append]
      have hrestclean : ∀ piece ∈ rest, piece.Clean := fun piece hp =>
        hclean piece (List.mem_cons_of_mem _ hp)
      obtain hend | hend := hend
      · obtain ⟨rfl, -⟩ | hmore := hend.cons
        · rfl
        · rw [ih hrest hrestclean (.inl hmore)]
      · rw [ih hrest hrestclean (.inr hend)]

/-- What is behind a front of the pieces has the other pieces. -/
theorem pieces_back {text : List Char} {ps qs : List Piece} (h : pieces text = ps ++ qs) :
    pieces (qs.map Piece.text).flatten = qs := by
  induction ps generalizing text with
  | nil => rw [← List.nil_append qs, ← h, join_pieces]
  | cons first rest ih =>
    cases text with
    | nil => cases h
    | cons c tail =>
      rw [List.cons_append] at h
      obtain ⟨-, -, v, -, -, -, hrest⟩ := exists_append_of_pieces h
      exact ih hrest

/-- A front of a text has the same pieces when it stands alone. -/
theorem pieces_front {text : List Char} {ps qs : List Piece} (h : pieces text = ps ++ qs)
    (hclean : ∀ piece ∈ ps, piece.Clean) : pieces (ps.map Piece.text).flatten = ps := by
  have happend := pieces_append h hclean delimited_nil (.inr endsLine_nil)
  rwa [List.append_nil, pieces_nil, List.append_nil] at happend

/-- A front that ends in a lexeme spells its lexemes before any delimited text. -/
theorem spells_of_pieces {text : List Char} {ps qs : List Piece} (h : pieces text = ps ++ qs)
    (hclean : ∀ piece ∈ ps, piece.Clean) (hend : EndsInLexeme ps) :
    Spells Delimited (ps.map Piece.text).flatten (ps.filterMap Piece.lexeme?) := by
  have hps := pieces_front h hclean
  exact
    { splits := fun after ha => by rw [pieces_append h hclean ha (.inl hend), hps]
      clean := by rwa [hps]
      lexemes := by rw [lexemes, hps] }

/-! ## Blanks, marks and keywords -/

/-- The token that is spelled as its kind, without a place. -/
def ofKind (k : Kind) : Token := ⟨k, k.spelling, .origin, 0⟩

/-- The marks that are a lexeme whatever comes behind them. -/
def punctuation : List Kind :=
  [.lparen, .rparen, .lbracket, .rbracket, .lbrace, .rbrace, .semicolon, .comma]

theorem front_punctuation {k : Kind} (hk : k ∈ punctuation) (after : List Char) :
    ∃ c, k.spelling.toList = [c] ∧ Shape.front c after = (.lexeme k, 0) := by
  simp only [punctuation, List.mem_cons, List.not_mem_nil, or_false] at hk
  obtain rfl | rfl | rfl | rfl | rfl | rfl | rfl | rfl := hk <;>
    cases after <;> exact ⟨_, rfl, rfl⟩

/-- A piece of one character that does not mind what comes behind it. -/
theorem pieces_one {c : Char} {shape : Shape} {after : List Char}
    (h : Shape.front c after = (shape, 0)) :
    pieces (c :: after) = ⟨shape, [c]⟩ :: pieces after := by
  rw [pieces_cons, h]
  rfl

/-- A lexeme that is a string literal has good escapes; other lexemes are always clean. -/
theorem Piece.clean_lexeme {k : Kind} (hk : k ≠ .string) (text : List Char) :
    Piece.Clean ⟨.lexeme k, text⟩ := by
  refine ⟨rfl, ?_⟩
  cases k <;> first | rfl | exact absurd rfl hk

namespace Spells

theorem one (c : Char) (shape : Shape) (h : ∀ after, Shape.front c after = (shape, 0))
    (hclean : Piece.Clean ⟨shape, [c]⟩) :
    Spells Anything [c] (Piece.lexeme? ⟨shape, [c]⟩).toList := by
  have hpieces : pieces [c] = [⟨shape, [c]⟩] := pieces_one (h [])
  refine ⟨fun after _ => ?_, fun piece hp => ?_, ?_⟩
  · rw [hpieces]
    exact pieces_one (h after)
  · rw [hpieces, List.mem_singleton] at hp
    rwa [hp]
  · rw [Token.lexemes, hpieces, List.filterMap_cons, List.filterMap_nil]
    cases Piece.lexeme? ⟨shape, [c]⟩ <;> rfl

/-- Punctuation marks. -/
theorem punctuation {k : Kind} (hk : k ∈ Token.punctuation) :
    Spells Anything k.spelling.toList [ofKind k] := by
  obtain ⟨c, hc, -⟩ := front_punctuation hk []
  have hfront : ∀ after, Shape.front c after = (.lexeme k, 0) := fun after => by
    obtain ⟨c', hc', hfront⟩ := front_punctuation hk after
    rw [hc] at hc'
    cases hc'
    exact hfront
  have hk' : k ≠ .string := fun he => by
    rw [he] at hk
    exact absurd hk (by decide)
  have h := one c _ hfront (Piece.clean_lexeme hk' _)
  rw [← hc] at h
  rwa [show (Piece.lexeme? ⟨.lexeme k, k.spelling.toList⟩).toList = [ofKind k] by
    simp [Piece.lexeme?, ofPiece?, bare, ofKind, Option.toList]] at h

theorem space : Spells Anything [' '] [] := one ' ' .blank (fun _ => rfl) ⟨rfl, rfl⟩

theorem newline : Spells Anything ['\n'] [] := one '\n' .blank (fun _ => rfl) ⟨rfl, rfl⟩

/-- Texts with nothing but blanks. -/
theorem blanks {text : List Char} (h : ∀ c ∈ text, c = ' ' ∨ c = '\n') :
    Spells Anything text [] := by
  induction text with
  | nil => exact nil
  | cons c rest ih =>
    have hrest := ih fun d hd => h d (List.mem_cons_of_mem _ hd)
    obtain rfl | rfl := h c List.mem_cons_self
    · exact space.append_anything hrest
    · exact newline.append_anything hrest

/-- A text that is one lexeme, in front of a delimiter. -/
theorem lexeme {k : Kind} {text : List Char} (h : pieces text = [⟨.lexeme k, text⟩])
    (hclean : Piece.Clean ⟨.lexeme k, text⟩) :
    Spells Delimited text [⟨k, String.ofList text, .origin, 0⟩] := by
  have hsplit : pieces text = [⟨.lexeme k, text⟩] ++ [] := by rwa [List.append_nil]
  have hs := spells_of_pieces hsplit (by simpa using hclean) ⟨[], k, text, rfl⟩
  rwa [List.map_singleton, List.flatten_singleton] at hs

/-- Keywords and operators, in front of a delimiter. -/
theorem kind {k : Kind} (h : pieces k.spelling.toList = [⟨.lexeme k, k.spelling.toList⟩])
    (hk : k ≠ .string) : Spells Delimited k.spelling.toList [ofKind k] := by
  have hs := lexeme h (Piece.clean_lexeme hk _)
  rwa [String.ofList_toList] at hs

end Spells

/-! ## Texts of tokens -/

/-- The image of a token spells the token. -/
def Genuine (t : Token) : Prop := Spells Delimited t.image.toList [t.bare]

theorem delimited_space (after : List Char) : Delimited (' ' :: after) :=
  delimited_cons.2 (by decide)

/-- Images with spaces between them. -/
theorem spells_spanText {w : List Token} (h : ∀ t ∈ w, t.Genuine) :
    Spells Delimited (spanText w).toList (w.map bare) := by
  induction w with
  | nil => exact .nil
  | cons t rest ih =>
    have ht := h t List.mem_cons_self
    have hrest := ih fun u hu => h u (List.mem_cons_of_mem _ hu)
    cases rest with
    | nil => simpa [spanText, Genuine] using ht
    | cons u rest =>
      have htext : (spanText (t :: u :: rest)).toList =
          t.image.toList ++ ([' '] ++ (spanText (u :: rest)).toList) := by
        simp [spanText, String.intercalate_cons_cons]
      rw [htext]
      exact ht.append_delimited (Spells.space.append_anything hrest) (delimited_space _)

theorem delimited_semicolon (after : List Char) : Delimited (';' :: after) :=
  delimited_cons.2 (by decide)

theorem spells_statementText {w : List Token} {last : Token} (h : ∀ t ∈ w, t.Genuine)
    (hlast : last.kind = .semicolon) :
    Spells Anything (statementText (w ++ [last])).toList (w.map bare ++ [ofKind .semicolon]) := by
  have htext : statementText (w ++ [last]) = spanText w ++ ";" := by
    simp [statementText, hlast]
  rw [htext, String.toList_append]
  exact (spells_spanText h).append (.punctuation (k := .semicolon) (by decide))
    (delimited_semicolon []) fun after _ => delimited_semicolon after

/-! ## Lexemes of a text -/

theorem lexeme?_eq_some {piece : Piece} {t : Token} (h : piece.lexeme? = some t) :
    piece.shape = .lexeme t.kind ∧ t = ⟨t.kind, String.ofList piece.text, .origin, 0⟩ := by
  unfold Piece.lexeme? ofPiece? at h
  split at h
  · rename_i k hk
    cases h
    exact ⟨hk, rfl⟩
  · cases h

/-- The lexemes of a text without faults are spelled by their images. -/
theorem genuine_of_mem {text : List Char} (hclean : ∀ piece ∈ pieces text, piece.Clean)
    {t : Token} (ht : t ∈ lexemes text) : t.Genuine := by
  obtain ⟨piece, hp, hpiece⟩ := List.mem_filterMap.1 ht
  obtain ⟨hshape, hbare⟩ := lexeme?_eq_some hpiece
  obtain ⟨ps, qs, hsplit⟩ := List.append_of_mem hp
  have hback : pieces ((piece :: qs).map Piece.text).flatten = [piece] ++ qs := pieces_back hsplit
  have hs := spells_of_pieces hback (by simpa using hclean piece hp)
    ⟨[], t.kind, piece.text, by rw [← hshape]; rfl⟩
  unfold Genuine
  rw [hbare]
  rw [List.filterMap_cons, hpiece, hbare] at hs
  simpa [bare] using hs

theorem Kind.spelling_ofWord {text : String} (h : ofWord text ∈ keywords) :
    (ofWord text).spelling = text := by
  unfold ofWord at h ⊢
  cases hfind : keywords.find? (·.spelling = text) with
  | none =>
    rw [hfind] at h
    exact absurd h (by decide)
  | some k => simpa using List.find?_some hfind

/-- A piece of the kind of a keyword, operator or mark is spelled like it. -/
theorem Shape.front_text {c : Char} {rest : List Char} {k : Kind} {more : Nat}
    (h : front c rest = (.lexeme k, more)) (hk : k ∈ Kind.keywords ++ Kind.operators) :
    c :: rest.take more = k.spelling.toList := by
  cases lexes_of_front h with
  | float | integer | string => exact absurd hk (by decide)
  | word =>
    have hkeyword := (by decide : ∀ l ∈ .identifier :: Kind.keywords,
      l ∈ Kind.keywords ++ Kind.operators → l ∈ Kind.keywords) _ (Kind.ofWord_mem _) hk
    rw [Kind.spelling_ofWord hkeyword, String.toList_ofList]
    exact congrArg (c :: ·) (take_runLength isWordPart rest)
  | operator _ _ _ _ ho =>
    have hprefix := List.find?_some ho
    rw [List.prefix_iff_eq_take.1 (List.isPrefixOf_iff_prefix.1 hprefix), String.length_toList]
    cases hlength : k.spelling.length with
    | zero =>
      exact absurd (String.length_eq_zero_iff.1 hlength) ((by decide :
        ∀ l ∈ Kind.operators, l.spelling ≠ "") k (List.mem_of_find?_eq_some ho))
    | succ n => rfl

/-- Keywords, operators and marks look like their kind. -/
theorem image_eq_spelling {text : List Char} {t : Token} (ht : t ∈ lexemes text)
    (hk : t.kind ∈ Kind.keywords ++ Kind.operators) : t.image = t.kind.spelling := by
  obtain ⟨piece, hp, hpiece⟩ := List.mem_filterMap.1 ht
  obtain ⟨c, rest, rfl⟩ := exists_front_of_mem hp
  obtain ⟨hshape, hbare⟩ := lexeme?_eq_some hpiece
  have htext := Shape.front_text (Prod.ext hshape rfl) hk
  rw [hbare]
  exact (congrArg String.ofList htext).trans String.ofList_toList

/-- A keyword, operator or mark that its image spells is determined by its kind. -/
theorem Genuine.bare_eq {t : Token} {k : Kind} (h : t.Genuine) (ht : t.kind = k)
    (hk : k ∈ Kind.keywords ++ Kind.operators) : t.bare = ofKind k := by
  subst ht
  have hmem : t.bare ∈ lexemes t.image.toList := h.lexemes ▸ List.mem_singleton_self _
  have himage : t.bare.image = t.bare.kind.spelling := image_eq_spelling hmem hk
  unfold ofKind
  rw [← bare_kind, ← himage]
  rfl

end Botscript.Token
