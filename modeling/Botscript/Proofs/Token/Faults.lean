import Botscript.Proofs.Token.Munch

/-!
# Where a text fails

A text fails with its first stray character, wherever that is, and otherwise with its first fault
(`tokenize_error`). Whether a character is stray is told by the character alone (`front_stray`), and
where a text is cut into pieces the front has the same pieces when it stands alone (`pieces_alone`),
so what comes before an error can be read by itself. `Passes` says without pieces what the scan
passes over on its way to a stray character: the pieces that are not stray, and nothing else
(`splits_of_passes`, `passes_of_pieces`).
-/

namespace Botscript

open Token Computability

namespace Token

variable {c : Char} {k : Kind} {n : Nat} {shape : Shape} {rest back after w : List Char}

/-! ## Characters that begin a lexeme -/

/-- Some lexeme begins with a character. -/
def Begins (c : Char) : Prop := ∃ (k : Kind) (w : List Char), c :: w ∈ k.lexemes

theorem begins_quote : Begins '"' := ⟨.string, ['"'], mem_char_mul.2 ⟨['"'], quote_mem, rfl⟩⟩

theorem begins_slash : Begins '/' := ⟨.slash, [], rfl⟩

theorem begin_cases (h : c :: w ∈ k.lexemes) : isNumberStart c ∨
    (c = '"' ∧ w ∈ Lexeme.stringPart∗ * letter ['"']) ∨ isWordStart c ∨
      ∃ l ∈ Kind.operators, l.spelling.toList = c :: w := by
  rcases number_or_symbol h with (h | h) | (h | h) | ⟨l, hl, h⟩
  · exact .inl (isNumberStart_of_float h)
  · exact .inl (isNumberStart_of_integer h)
  · obtain ⟨v, hv, he⟩ := mem_char_mul.1 h
    obtain ⟨rfl, rfl⟩ := List.cons.inj he
    exact .inr (.inl ⟨rfl, hv⟩)
  · exact .inr (.inr (.inl (cons_mem_word.1 h).1))
  · exact .inr (.inr (.inr ⟨l, hl, h.symm⟩))

theorem notMem_blanks_of_mem (h : c :: w ∈ k.lexemes) : c ∉ blanks := fun hc => by
  have hother := forall_letter (P := fun c => ¬ isNumberStart c ∧ c ≠ '"' ∧ ¬ isWordStart c)
    (by decide) c hc
  rcases begin_cases h with h | ⟨h, -⟩ | h | ⟨l, hl, h⟩
  · exact hother.1 h
  · exact hother.2.1 h
  · exact hother.2.2 h
  · have hall : ∀ l ∈ Kind.operators, l.spelling.toList.head?.all (· ∉ blanks) := by decide
    have hhead := hall l hl
    rw [h] at hhead
    exact of_decide_eq_true hhead hc

/-- Where an operator begins there is one, of one character at least. -/
theorem operator?_ne_none {l : Kind} (hl : l ∈ Kind.operators) (h : l.spelling.toList = c :: w)
    (rest : List Char) : operator? (c :: rest) ≠ none := by
  have hall : ∀ l ∈ Kind.operators, ∃ m ∈ Kind.operators,
      m.spelling.toList = l.spelling.toList.take 1 := by decide
  obtain ⟨m, hm, hone⟩ := hall l hl
  rw [h, List.take_succ_cons, List.take_zero] at hone
  intro hnone
  refine List.find?_eq_none.1 hnone m hm (List.isPrefixOf_iff_prefix.2 ?_)
  rw [hone]
  exact List.cons_prefix_cons.2 ⟨rfl, List.nil_prefix⟩

/-! ## Open comments, open strings and stray characters -/

theorem Shape.symbolFront_of_front (h : front c rest = (shape, n))
    (hs : shape = .openString ∨ shape = .stray) : ¬ isBlank c ∧ floatLength (c :: rest) = 0 ∧
      integerLength (c :: rest) = 0 ∧ symbolFront c rest = (shape, n) := by
  unfold front at h
  split at h <;> rename_i hb
  · cases h
    simp at hs
  split at h
  · rename_i hcomment
    subst h
    rcases hs with rfl | rfl <;> rcases comment?_eq_comment hcomment with he | he <;> cases he
  split at h
  · cases h
    simp at hs
  · cases h
    simp at hs
  · exact ⟨hb, ‹_›, ‹_›, h⟩

theorem Shape.front_quote (rest : List Char) : front '"' rest = symbolFront '"' rest := by
  have hcomment : comment? '"' rest = none := by
    cases rest with
    | nil => rfl
    | cons d rest => simp [comment?]
  have hf : floatLength ('"' :: rest) = 0 := by
    cases h : floatLength ('"' :: rest) with
    | zero => rfl
    | succ m => exact absurd (isNumberStart_of_floatLength h) (by decide)
  have hi : integerLength ('"' :: rest) = 0 := by
    cases h : integerLength ('"' :: rest) with
    | zero => rfl
    | succ m => exact absurd (isNumberStart_of_integerLength h) (by decide)
  unfold front
  rw [if_neg (by decide), hcomment, hf, hi]
  rfl

theorem Shape.front_openString_iff :
    front c rest = (.openString, n) ↔ c = '"' ∧ stringRest rest = (n, false) := by
  constructor
  · intro h
    obtain ⟨-, -, -, h⟩ := symbolFront_of_front h (.inl rfl)
    unfold symbolFront at h
    split at h <;> rename_i hc
    · refine ⟨hc, ?_⟩
      cases hs : stringRest rest with
      | mk more closed =>
        rw [hs] at h
        cases closed <;> cases h
        rfl
    split at h
    · cases h
    split at h <;> cases h
  · rintro ⟨rfl, h⟩
    rw [front_quote]
    unfold symbolFront
    rw [if_pos rfl, h]
    rfl

/-- A text starts with a comment, be it closed or not. -/
def StartsComment (text : List Char) : Prop := ['/', '/'] <+: text ∨ ['/', '*'] <+: text

theorem Shape.comment?_eq_none_iff : comment? c rest = none ↔ ¬ StartsComment (c :: rest) := by
  cases rest with
  | nil => simp [comment?, StartsComment, List.cons_prefix_cons]
  | cons d rest =>
    have hstarts : StartsComment (c :: d :: rest) ↔ c = '/' ∧ d = '/' ∨ c = '/' ∧ d = '*' := by
      simp [StartsComment, List.cons_prefix_cons, eq_comm]
    simp only [comment?]
    rw [hstarts]
    split <;> rename_i hline
    · simp [hline]
    split <;> rename_i hblock
    · split <;> simp [hblock]
    · simp [hline, hblock]

theorem Shape.comment?_of_lexeme (h : front c rest = (.lexeme k, n)) : comment? c rest = none := by
  cases hcomment : comment? c rest with
  | none => rfl
  | some found =>
    unfold front at h
    split at h
    · cases h
    rw [hcomment] at h
    obtain rfl : found = (.lexeme k, n) := h
    rcases comment?_eq_comment hcomment with he | he <;> cases he

/-- An open comment takes all of the text. -/
theorem Shape.front_openComment (h : front c rest = (.openComment, n)) :
    ['/', '*'] <+: c :: rest ∧ n = rest.length := by
  have hstarts := starts_front c rest
  rw [h] at hstarts
  cases hstarts with
  | comment hcomment =>
    cases rest with
    | nil => cases hcomment
    | cons d rest =>
      simp only [comment?] at hcomment
      split at hcomment
      · cases hcomment
      split at hcomment <;> rename_i hblock
      · split at hcomment
        · cases hcomment
        · cases hcomment
          simp [List.cons_prefix_cons, hblock, Nat.add_comm]
      · cases hcomment

/-- What the text starts with is a lexeme of its kind. -/
theorem exists_mem_of_front (h : Shape.front c rest = (.lexeme k, n)) : ∃ more after,
    rest = more ++ after ∧ n = more.length ∧ c :: more ∈ k.lexemes := by
  obtain ⟨shape, more, after, rfl, hfront⟩ := Shape.exists_front c rest
  obtain ⟨rfl, rfl⟩ := Prod.mk.inj (hfront.symm.trans h)
  exact ⟨more, after, rfl, rfl, mem_lexemes_of_front h⟩

/-- A character that is no blank and begins no lexeme is stray, whatever comes behind it. -/
theorem front_stray (hb : c ∉ blanks) (hc : ¬ Begins c) (rest : List Char) :
    Shape.front c rest = (.stray, 0) := by
  have hstarts := Shape.starts_front c rest
  generalize hfront : Shape.front c rest = found at hstarts ⊢
  cases hstarts with
  | blank h => exact absurd (isBlank_iff.1 h) hb
  | comment h =>
    have hstart := not_not.1 fun hno => Option.some_ne_none _ (h.symm.trans
      (Shape.comment?_eq_none_iff.2 hno))
    rcases hstart with hstart | hstart <;>
    · obtain ⟨rfl, -⟩ := List.cons_prefix_cons.1 hstart
      exact absurd begins_slash hc
  | openString =>
    obtain ⟨rfl, -⟩ := Shape.front_openString_iff.1 hfront
    exact absurd begins_quote hc
  | lexeme =>
    obtain ⟨more, -, -, -, hmem⟩ := exists_mem_of_front hfront
    exact absurd ⟨_, more, hmem⟩ hc
  | stray => rfl

/-- A stray character is no blank and begins no lexeme. -/
theorem of_front_stray (h : Shape.front c rest = (.stray, n)) :
    c ∉ blanks ∧ ¬ Begins c ∧ n = 0 := by
  obtain ⟨hb, -, hi, h⟩ := Shape.symbolFront_of_front h (.inr rfl)
  unfold Shape.symbolFront at h
  split at h <;> rename_i hquote
  · cases hs : stringRest rest with
    | mk more closed =>
      rw [hs] at h
      cases closed <;> cases h
  split at h <;> rename_i hword
  · cases h
  split at h <;> rename_i hoperator
  · cases h
  cases h
  refine ⟨mt isBlank_iff.2 hb, fun ⟨k, w, hmem⟩ => ?_, rfl⟩
  rcases begin_cases hmem with hnumber | ⟨hc, -⟩ | hc | ⟨l, hl, hspelling⟩
  · rcases Bool.or_eq_true_iff.1 hnumber with hdigit | hpoint
    · have hone : [c] ∈ Lexeme.integer := by
        have hbody : [c] ∈ Lexeme.integerBody :=
          .inr (mem_several.2 ⟨List.cons_ne_nil c [], List.forall_mem_singleton.2 hdigit⟩)
        rw [← List.append_nil [c]]
        exact Language.append_mem_mul hbody (nil_mem_maybe _)
      have hle := takes_integer.max (mem_maybe_of_mem hone)
        (List.cons_prefix_cons.2 ⟨rfl, List.nil_prefix⟩ : [c] <+: c :: rest)
      rw [hi] at hle
      exact absurd hle (Nat.not_succ_le_zero 0)
    · rw [eq_of_beq hpoint] at hoperator
      exact operator?_ne_none (l := .dot) (by decide) rfl rest hoperator
  · exact hquote hc
  · exact hword hc
  · exact operator?_ne_none hl hspelling rest hoperator

/-! ## What a scan passes over -/

/-- A word is a lexeme in front of `after`, and no lexeme of any kind that begins there is longer;
nor does a comment begin there. -/
structure Longest (k : Kind) (w after : List Char) : Prop where
  mem : w ∈ k.lexemes
  max : ∀ l : Kind, ∀ v ∈ l.lexemes, v <+: w ++ after → v.length ≤ w.length
  bare : ¬ StartsComment (w ++ after)

theorem longest_of_front {more : List Char}
    (h : Shape.front c (more ++ after) = (.lexeme k, more.length)) :
    Longest k (c :: more) after where
  mem := mem_lexemes_of_front h
  max _ _ hv hpre := length_le_of_front h hv hpre
  bare := Shape.comment?_eq_none_iff.1 (Shape.comment?_of_lexeme h)

/-- The longest lexeme is what the text starts with. -/
theorem front_of_longest {more : List Char} (h : Longest k (c :: more) after) :
    ∃ l, Shape.front c (more ++ after) = (.lexeme l, more.length) := by
  have hstarts := Shape.starts_front c (more ++ after)
  generalize hfront : Shape.front c (more ++ after) = found at hstarts ⊢
  cases hstarts with
  | blank hb => exact absurd (isBlank_iff.1 hb) (notMem_blanks_of_mem h.mem)
  | comment hcomment =>
    have hnone := Shape.comment?_eq_none_iff.2 h.bare
    exact absurd (hcomment.symm.trans hnone) (Option.some_ne_none _)
  | openString =>
    obtain ⟨rfl, hopen⟩ := Shape.front_openString_iff.1 hfront
    rcases begin_cases h.mem with hc | ⟨-, hclosed⟩ | hc | ⟨l, hl, hspelling⟩
    · exact absurd hc (by decide)
    · rw [stringRest_of_mem hclosed] at hopen
      exact absurd (congrArg Prod.snd hopen) Bool.false_ne_true.symm
    · exact absurd hc (by decide)
    · exact absurd rfl (operator_start hl hspelling).1
  | @lexeme l n =>
    refine ⟨l, Prod.ext rfl ?_⟩
    obtain ⟨taken, later, htext, rfl, hmem⟩ := exists_mem_of_front hfront
    have hle := length_le_of_front hfront h.mem (List.prefix_append _ after)
    have hpre : c :: taken <+: c :: more ++ after := by
      rw [List.cons_append, htext]
      exact List.prefix_append (c :: taken) later
    have hge := h.max l _ hmem hpre
    rw [List.length_cons] at hle
    rw [List.length_cons, List.length_cons] at hge
    show taken.length = more.length
    omega
  | stray => exact absurd ⟨k, more, h.mem⟩ (of_front_stray hfront).2.1

/-- A block comment ends with the first `*/`. -/
theorem blockCommentRest?_of_not_infix {body : List Char} (h : ¬ ['*', '/'] <:+: body ++ ['*'])
    (after : List Char) :
    blockCommentRest? (body ++ ['*', '/'] ++ after) = some (body.length + 2) := by
  induction body with
  | nil => rfl
  | cons d body ih =>
    rw [List.cons_append, List.infix_cons_iff, not_or] at h
    obtain ⟨hfront, hlater⟩ := h
    have hopen : ¬ (d = '*' ∧ (body ++ ['*', '/'] ++ after).head? = some '/') := by
      rintro ⟨rfl, hslash⟩
      refine hfront (List.cons_prefix_cons.2 ⟨rfl, ?_⟩)
      cases body with
      | nil => simp at hslash
      | cons e body =>
        obtain rfl : e = '/' := by simpa using hslash
        exact List.cons_prefix_cons.2 ⟨rfl, List.nil_prefix⟩
    show blockCommentRest? (d :: (body ++ ['*', '/'] ++ after)) = _
    rw [blockCommentRest?, if_neg hopen, ih hlater]
    rfl

theorem Shape.front_of_comment (hb : ¬ isBlank c) {found : Shape × Nat}
    (h : comment? c rest = some found) : front c rest = found := by
  unfold front
  rw [if_neg hb, h]

/-- Blanks and comments are what the text starts with. -/
theorem front_of_filler (h : Filler w after) : ∃ c more shape, w = c :: more ∧
    Shape.front c (more ++ after) = (shape, more.length) ∧ (shape = .blank ∨ shape = .comment) := by
  cases h with
  | @blank c _ hc => exact ⟨c, [], .blank, rfl, if_pos (isBlank_iff.2 hc), .inl rfl⟩
  | @line body _ hbody hend =>
    have hline : ∀ c ∈ body, (! isLineEnd c) := fun c hc => by
      simpa using mt isLineEnd_iff.1 (hbody c hc)
    have hrun : runLength (! isLineEnd ·) (body ++ after) = body.length := by
      rw [runLength, List.takeWhile_append_of_pos hline, List.length_append]
      exact congrArg (body.length + ·) (runLength_line (endsLine_iff.2 hend))
    refine ⟨'/', '/' :: body, .comment, rfl, ?_, .inr rfl⟩
    refine Shape.front_of_comment (by decide) ?_
    rw [List.cons_append, Shape.comment?, if_pos ⟨rfl, rfl⟩, hrun, Nat.add_comm]
    rfl
  | @block body _ hbody =>
    refine ⟨'/', '*' :: (body ++ ['*', '/']), .comment, rfl, ?_, .inr rfl⟩
    refine Shape.front_of_comment (by decide) ?_
    rw [List.cons_append, Shape.comment?, if_neg (by decide), if_pos ⟨rfl, rfl⟩,
      blockCommentRest?_of_not_infix hbody]
    simp [Nat.add_comm]

/-- A scan from left to right passes over a text in front of `after`: over blanks and comments, over
the longest lexemes, and over string literals that their line leaves open. -/
inductive Passes : List Char → List Char → Prop
  | nil {after : List Char} : Passes [] after
  | filler {first rest after : List Char} (hfirst : Filler first (rest ++ after))
    (hrest : Passes rest after) : Passes (first ++ rest) after
  | lexeme {k : Kind} {c : Char} {more rest after : List Char}
    (hfirst : Longest k (c :: more) (rest ++ after)) (hrest : Passes rest after) :
    Passes (c :: more ++ rest) after
  | openString {body rest after : List Char} (hbody : body ∈ Lexeme.stringPart∗)
    (hend : ∀ c ∈ (rest ++ after).head?, c ∈ lineEnds) (hrest : Passes rest after) :
    Passes ('"' :: body ++ rest) after

/-- A text in front of `after` has pieces of its own, and none of them is stray. -/
def Splits (w after : List Char) : Prop :=
  ∃ ps, pieces (w ++ after) = ps ++ pieces after ∧ (ps.map Piece.text).flatten = w ∧
    ∀ piece ∈ ps, piece.shape ≠ .stray

theorem Splits.cons {more : List Char}
    (hfront : Shape.front c (more ++ (rest ++ after)) = (shape, more.length))
    (hshape : shape ≠ .stray) (h : Splits rest after) : Splits (c :: more ++ rest) after := by
  obtain ⟨ps, hps, htext, hstray⟩ := h
  refine ⟨⟨shape, c :: more⟩ :: ps, ?_, by simp [htext], List.forall_mem_cons.2 ⟨hshape, hstray⟩⟩
  rw [List.append_assoc, List.cons_append, pieces_of_front hfront, hps, List.cons_append]

theorem splits_of_passes (h : Passes w after) : Splits w after := by
  induction h with
  | nil => exact ⟨[], rfl, rfl, fun _ hp => absurd hp List.not_mem_nil⟩
  | filler hfirst _ ih =>
    obtain ⟨c, more, shape, rfl, hfront, hshape⟩ := front_of_filler hfirst
    exact ih.cons hfront (by rcases hshape with rfl | rfl <;> simp)
  | lexeme hfirst _ ih =>
    obtain ⟨l, hfront⟩ := front_of_longest hfirst
    exact ih.cons hfront (by simp)
  | openString hbody hend _ ih =>
    have hopen := stringRest_open hbody (endsLine_iff.2 hend)
    exact ih.cons (Shape.front_openString_iff.2 ⟨rfl, hopen⟩) (by simp)

/-- Pieces that are not stray are passed over, in front of other pieces. -/
theorem passes_of_pieces {text : List Char} {ps qs : List Piece} (h : pieces text = ps ++ qs)
    (hstray : ∀ piece ∈ ps, piece.shape ≠ .stray) (hne : qs ≠ []) :
    Passes (ps.map Piece.text).flatten (qs.map Piece.text).flatten := by
  induction ps generalizing text with
  | nil => exact .nil
  | cons first rest ih =>
    obtain ⟨hfirst, hlater⟩ := List.forall_mem_cons.1 hstray
    cases text with
    | nil => cases h
    | cons c tail =>
      rw [List.cons_append] at h
      obtain ⟨shape, u, v, rfl, hfront, rfl, hrest⟩ := exists_append_of_pieces h
      have hv := join_append hrest
      have hvne : v ≠ [] := by
        rintro rfl
        exact hne (List.append_eq_nil_iff.1 hrest.symm).2
      have hpasses := ih hrest hlater
      rw [List.map_cons, List.flatten_cons]
      cases shape with
      | blank => exact .filler (hv ▸ filler_front hfront (.inl rfl)) hpasses
      | comment => exact .filler (hv ▸ filler_front hfront (.inr rfl)) hpasses
      | lexeme k => exact .lexeme (hv ▸ longest_of_front hfront) hpasses
      | openString =>
        obtain ⟨rfl, hopen⟩ := Shape.front_openString_iff.1 hfront
        obtain ⟨hbody, hend⟩ := open_of_stringRest hopen hvne
        exact .openString hbody (hv ▸ endsLine_iff.1 hend) hpasses
      | openComment =>
        have hall := (Shape.front_openComment hfront).2
        rw [List.length_append] at hall
        exact absurd (List.length_eq_zero_iff.1 (by omega)) hvne
      | stray => exact absurd rfl hfirst

/-! ## What comes before an error -/

/-- A text may be cut behind what it starts with, or anywhere later, if nothing follows. -/
theorem Shape.front_alone (h : front c (w ++ back) = (shape, n)) (hle : n ≤ w.length) :
    front c w = (shape, n) := by
  obtain rfl | hback := eq_or_ne back []
  · rwa [List.append_nil] at h
  cases shape with
  | openComment =>
    have hall := (front_openComment h).2
    rw [List.length_append] at hall
    exact absurd (List.length_eq_zero_iff.1 (by omega)) hback
  | openString =>
    obtain ⟨rfl, hopen⟩ := front_openString_iff.1 h
    obtain ⟨body, tail, rfl, rfl⟩ : ∃ body tail, w = body ++ tail ∧ n = body.length :=
      ⟨w.take n, w.drop n, (List.take_append_drop n w).symm, (List.length_take_of_le hle).symm⟩
    rw [List.append_assoc] at hopen
    obtain ⟨hbody, hend⟩ := open_of_stringRest hopen (by simp [hback])
    have htail : EndsLine tail := by
      cases tail with
      | nil => exact endsLine_nil
      | cons d tail => exact endsLine_cons.2 (endsLine_cons.1 hend)
    exact front_openString_iff.2 ⟨rfl, stringRest_open hbody htail⟩
  | stray =>
    obtain ⟨hb, hc, rfl⟩ := of_front_stray h
    exact front_stray hb hc w
  | blank | comment | lexeme =>
    have hcut := front_cut delimited_nil h (by simp) hle fun _ _ => endsLine_nil
    rwa [List.append_nil] at hcut

/-- A front of a text has the same pieces when it stands alone, also if something is wrong with
them. -/
theorem pieces_alone {text : List Char} {ps qs : List Piece} (h : pieces text = ps ++ qs) :
    pieces (ps.map Piece.text).flatten = ps := by
  induction ps generalizing text with
  | nil => rfl
  | cons first rest ih =>
    cases text with
    | nil => cases h
    | cons c tail =>
      rw [List.cons_append] at h
      obtain ⟨shape, u, v, rfl, hfront, rfl, hrest⟩ := exists_append_of_pieces h
      rw [join_append hrest, ← List.append_assoc] at hfront
      have halone := Shape.front_alone hfront (by simp)
      rw [List.map_cons, List.flatten_cons, List.cons_append, pieces_of_front halone, ih hrest]

/-- A piece is what the text behind the pieces before it starts with. -/
theorem exists_front_of_pieces {text : List Char} {before behind : List Piece} {piece : Piece}
    (h : pieces text = before ++ piece :: behind) : ∃ c rest,
      ((piece :: behind).map Piece.text).flatten = c :: rest ∧
      Shape.front c rest = (piece.shape, (Shape.front c rest).2) ∧ piece.text.head? = some c := by
  have hback := pieces_back h
  cases htext : ((piece :: behind).map Piece.text).flatten with
  | nil =>
    rw [htext] at hback
    cases hback
  | cons c rest =>
    rw [htext, pieces_cons] at hback
    obtain ⟨rfl, -⟩ := List.cons.inj hback
    exact ⟨c, rest, rfl, rfl, rfl⟩

theorem stray?_eq_some {piece : Piece} {cause : LexError.Cause} (h : piece.stray? = some cause) :
    piece.shape = .stray ∧ ∃ c, piece.text.head? = some c ∧ cause = .unexpectedChar c := by
  unfold Piece.stray? at h
  split at h <;> rename_i hshape
  · obtain ⟨c, hc, rfl⟩ := Option.map_eq_some_iff.1 h
    exact ⟨hshape, c, hc, rfl⟩
  · cases h

theorem fault?_eq_some {piece : Piece} {cause : LexError.Cause} (h : piece.fault? = some cause) :
    piece.shape = .openComment ∧ cause = .unterminatedComment ∨
    piece.shape = .openString ∧ cause = .unterminatedString ∨
    piece.shape = .lexeme .string ∧ ∃ escape, cause = .invalidEscape escape := by
  unfold Piece.fault? at h
  split at h <;> rename_i hshape
  · cases h
    exact .inl ⟨hshape, rfl⟩
  · cases h
    exact .inr (.inl ⟨hshape, rfl⟩)
  · split at h
    · cases h
    · cases h
      exact .inr (.inr ⟨hshape, _, rfl⟩)
  · cases h

theorem fault?_ne_unexpectedChar (piece : Piece) (c : Char) :
    piece.fault? ≠ some (.unexpectedChar c) := fun h => by
  rcases fault?_eq_some h with ⟨-, he⟩ | ⟨-, he⟩ | ⟨-, _, he⟩ <;> cases he

end Token

/-! ## Errors -/

/-- A place in a text, between `before` and `after`: its offset counts the bytes before it, its line
the line feeds, its column the characters of its line. -/
structure Position.Between (p : Position) (text before after : List Char) : Prop where
  text_eq : text = before ++ after
  offset_eq : p.offset = byteLength before
  line_eq : p.line = 1 + before.count '\n'
  column_eq : p.column = 1 + (before.rtakeWhile (· ≠ '\n')).length

theorem Position.between_advance (before after : List Char) :
    (origin.advance before).Between (before ++ after) before after :=
  ⟨rfl, offset_advance_origin before, line_advance before, column_advance before⟩

/-- What a text is like behind an error and before it. A stray character comes before any other
fault, so there may be other faults before it. -/
def LexError.Cause.Fits (before after : List Char) : LexError.Cause → Prop
  | .unexpectedChar c => after.head? = some c ∧ c ∉ blanks ∧ ¬ Begins c ∧
    ∀ e, tokenize (String.ofList before) = .error e → ∀ d, e.cause ≠ .unexpectedChar d
  | .unterminatedComment =>
    ['/', '*'] <+: after ∧ ∃ tokens, tokenize (String.ofList before) = .ok tokens
  | .unterminatedString | .invalidEscape _ =>
    ['"'] <+: after ∧ ∃ tokens, tokenize (String.ofList before) = .ok tokens

section Fits

variable {text : List Char} {piece : Piece} {ps behind : List Piece} {cause : LexError.Cause}

theorem fits_of_stray (h : pieces text = ps ++ piece :: behind)
    (hbefore : ∀ q ∈ ps, q.stray? = none) (hpiece : piece.stray? = some cause) :
    cause.Fits (ps.map Piece.text).flatten ((piece :: behind).map Piece.text).flatten := by
  obtain ⟨c, rest, htext, hfront, hhead⟩ := exists_front_of_pieces h
  obtain ⟨hshape, d, hd, rfl⟩ := stray?_eq_some hpiece
  obtain rfl : c = d := Option.some.inj (hhead.symm.trans hd)
  rw [hshape] at hfront
  obtain ⟨hblank, hbegins, -⟩ := of_front_stray hfront
  rw [htext]
  refine ⟨rfl, hblank, hbegins, fun e he d hd => ?_⟩
  rw [tokenize, String.toList_ofList, tokenizeChars_eq_error_iff, pieces_alone h,
    firstFault?_place.2 hbefore] at he
  obtain he | ⟨-, he⟩ := he
  · cases he
  · obtain ⟨_, q, _, -, -, hq, -⟩ := exists_of_firstFault? he
    exact fault?_ne_unexpectedChar q d (hd ▸ hq)

theorem fits_of_fault (h : pieces text = ps ++ piece :: behind)
    (hstray : ∀ q ∈ pieces text, q.stray? = none) (hbefore : ∀ q ∈ ps, q.fault? = none)
    (hpiece : piece.fault? = some cause) :
    cause.Fits (ps.map Piece.text).flatten ((piece :: behind).map Piece.text).flatten := by
  obtain ⟨c, rest, htext, hfront, -⟩ := exists_front_of_pieces h
  have htokens : ∃ tokens, tokenize (String.ofList (ps.map Piece.text).flatten) = .ok tokens := by
    refine ⟨_, tokenizeChars_eq_ok_iff.2 ⟨?_, rfl⟩⟩
    rw [String.toList_ofList, pieces_alone h]
    exact fun q hq => ⟨hstray q (h ▸ List.mem_append_left _ hq), hbefore q hq⟩
  rw [htext]
  rcases fault?_eq_some hpiece with ⟨hshape, rfl⟩ | ⟨hshape, rfl⟩ | ⟨hshape, _, rfl⟩ <;>
    rw [hshape] at hfront
  · exact ⟨(Shape.front_openComment hfront).1, htokens⟩
  · obtain ⟨rfl, -⟩ := Shape.front_openString_iff.1 hfront
    exact ⟨List.cons_prefix_cons.2 ⟨rfl, List.nil_prefix⟩, htokens⟩
  · obtain ⟨more, -, -, -, hmem⟩ := exists_mem_of_front hfront
    obtain ⟨_, -, he⟩ := mem_char_mul.1 hmem
    obtain ⟨rfl, -⟩ := List.cons.inj he
    exact ⟨List.cons_prefix_cons.2 ⟨rfl, List.nil_prefix⟩, htokens⟩

end Fits

/-- A stray character is reported where the scan first meets one. -/
theorem unexpectedChar_iff {text : List Char} {p : Position} {c : Char} :
    tokenizeChars text = .error ⟨p, .unexpectedChar c⟩ ↔ ∃ before after,
      text = before ++ c :: after ∧ p = .advance .origin before ∧ Passes before (c :: after) ∧
        c ∉ blanks ∧ ¬ Begins c := by
  constructor
  · intro h
    obtain h | ⟨-, h⟩ := tokenizeChars_eq_error_iff.1 h <;>
      obtain ⟨ps, piece, behind, hsplit, hbefore, hpiece, hpos⟩ := exists_of_firstFault? h
    swap
    · exact absurd hpiece (fault?_ne_unexpectedChar piece c)
    obtain ⟨hhead, hblank, hbegins, -⟩ := fits_of_stray hsplit hbefore hpiece
    obtain ⟨after, hafter⟩ := List.head?_eq_some_iff.1 hhead
    have hpasses := passes_of_pieces hsplit (fun q hq => Piece.shape_ne_stray (hbefore q hq)
      (text_ne_nil (hsplit ▸ List.mem_append_left _ hq))) (List.cons_ne_nil _ _)
    have htext := join_append hsplit
    rw [hafter] at hpasses htext
    exact ⟨_, after, htext, hpos, hpasses, hblank, hbegins⟩
  · rintro ⟨before, after, rfl, rfl, hpasses, hblank, hbegins⟩
    obtain ⟨ps, hps, htext, hstray⟩ := splits_of_passes hpasses
    refine tokenizeChars_eq_error_iff.2 (.inl ?_)
    have hnone : ∀ q ∈ ps, q.stray? = none := fun q hq => if_neg (hstray q hq)
    rw [hps, firstFault?_append hnone, htext, pieces_one (front_stray hblank hbegins after)]
    rfl

/-- Every error is the first of its sort and says where it is: before an unterminated comment, an
unterminated string or an invalid escape, at whose mark or quote the error stands, the text has
tokens; before a stray character nothing else is stray. A stray character is reported if the scan
meets one, whatever else is wrong on the way there. -/
theorem tokenize_error {source : String} :
    (∀ e, tokenize source = .error e → ∃ before after,
      e.pos.Between source.toList before after ∧ e.cause.Fits before after) ∧
    ∀ p c, tokenize source = .error ⟨p, .unexpectedChar c⟩ ↔ ∃ before after,
      source.toList = before ++ c :: after ∧ p = .advance .origin before ∧
        Passes before (c :: after) ∧ c ∉ blanks ∧ ¬ Begins c := by
  refine ⟨fun e he => ?_, fun p c => unexpectedChar_iff⟩
  obtain hstray | ⟨hnone, hfault⟩ := tokenizeChars_eq_error_iff.1 he
  · obtain ⟨ps, piece, behind, hsplit, hbefore, hpiece, hpos⟩ := exists_of_firstFault? hstray
    refine ⟨_, _, ?_, fits_of_stray hsplit hbefore hpiece⟩
    rw [hpos, join_append hsplit]
    exact Position.between_advance _ _
  · obtain ⟨ps, piece, behind, hsplit, hbefore, hpiece, hpos⟩ := exists_of_firstFault? hfault
    refine ⟨_, _, ?_, fits_of_fault hsplit (firstFault?_place.1 hnone) hbefore hpiece⟩
    rw [hpos, join_append hsplit]
    exact Position.between_advance _ _

/-- A bad escape in front of an open comment, and an open string in front of a stray character. -/
theorem tokenize_error_escape :
    (∃ before after, Position.Between ⟨1, 5, 4⟩ "/**/\"\\q\" /*".toList before after ∧
      (LexError.Cause.invalidEscape "\\q").Fits before after) ∧
    tokenize "\"é\n#" = .error ⟨⟨2, 1, 4⟩, .unexpectedChar '#'⟩ := by
  have h : tokenize "/**/\"\\q\" /*" = .error ⟨⟨1, 5, 4⟩, .invalidEscape "\\q"⟩ := by
    decide +kernel
  obtain ⟨hblank, hbegins, -⟩ : '#' ∉ blanks ∧ ¬ Begins '#' ∧ 0 = 0 :=
    of_front_stray (show Shape.front '#' [] = (.stray, 0) by decide)
  have hbody : ['é'] ∈ Lexeme.stringPart∗ :=
    append_mem_star (char_mem_stringPart (by decide) (by decide) (by decide))
      (Language.nil_mem_kstar _)
  have hpasses : Passes ['"', 'é', '\n'] ['#'] :=
    .openString hbody (by simp [lineEnds]) (.filler (.blank (by simp [blanks])) .nil)
  exact ⟨tokenize_error.1 _ h, (tokenize_error.2 _ _).2 ⟨['"', 'é', '\n'], [], rfl, rfl, hpasses,
    hblank, hbegins⟩⟩

end Botscript
