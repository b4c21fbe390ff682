import Mathlib.Data.List.DropRight
import Mathlib.Data.List.Infix
import Botscript.Proofs.Token.Accepted

/-!
# Tokens cover the text

The tokens of a text and the gaps between them make up the whole text (`tokenize_covers`), and a gap
is made of blanks and whole comments (`Gap`). The line and the column of a token are told by the
text before it (`line_advance`, `column_advance`). All of it is read off one walk along the text
(`Covers`), which each piece takes a step further (`covers_tokensFrom`).
-/

namespace Botscript

open Token

/-! ## Lines and columns -/

namespace Position

/-- The line counts the line feeds before it. -/
theorem line_advance (text : List Char) : (origin.advance text).line = 1 + text.count '\n' := by
  induction text using List.reverseRecOn with
  | nil => rfl
  | append_singleton text c ih =>
    rw [advance_append, advance_cons, advance_nil, List.count_append, next]
    by_cases hc : c = '\n'
    · rw [if_pos hc, hc]
      simp [ih]
      omega
    · rw [if_neg hc]
      simp [ih, hc]

/-- The column counts the characters since the last line feed. -/
theorem column_advance (text : List Char) :
    (origin.advance text).column = 1 + (text.rtakeWhile (· ≠ '\n')).length := by
  induction text using List.reverseRecOn with
  | nil => rfl
  | append_singleton text c ih =>
    rw [advance_append, advance_cons, advance_nil, next]
    by_cases hc : c = '\n'
    · rw [if_pos hc, List.rtakeWhile_concat_neg _ _ _ (by simpa using hc)]
      rfl
    · rw [if_neg hc, List.rtakeWhile_concat_pos _ _ _ (by simpa using hc), List.length_append]
      exact congrArg (· + 1) ih

theorem offset_advance_origin (text : List Char) :
    (origin.advance text).offset = byteLength text := by
  rw [offset_advance]
  exact Nat.zero_add _

end Position

namespace Token

/-! ## Gaps -/

/-- The characters between tokens. -/
def blanks : List Char := [' ', '\t', '\x0c', '\r', '\n']

/-- The characters that end a line. -/
def lineEnds : List Char := ['\r', '\n']

theorem isBlank_iff {c : Char} : isBlank c ↔ c ∈ blanks := decide_eq_true_iff

theorem isLineEnd_iff {c : Char} : isLineEnd c ↔ c ∈ lineEnds := decide_eq_true_iff

theorem endsLine_iff {after : List Char} :
    EndsLine after ↔ ∀ c ∈ after.head?, c ∈ lineEnds :=
  forall₂_congr fun _ _ => isLineEnd_iff

/-- Something that is no token, in front of `after`: a blank, a line comment, which goes on to the
next line end or to the end of the text, or a block comment, which ends with the first `*/`. -/
inductive Filler : List Char → List Char → Prop
  | blank {c : Char} {after : List Char} (hc : c ∈ blanks) : Filler [c] after
  | line {body after : List Char} (hbody : ∀ c ∈ body, c ∉ lineEnds)
    (hend : ∀ c ∈ after.head?, c ∈ lineEnds) : Filler ('/' :: '/' :: body) after
  | block {body after : List Char} (hbody : ¬ ['*', '/'] <:+: body ++ ['*']) :
    Filler ('/' :: '*' :: (body ++ ['*', '/'])) after

/-- Blanks and comments in front of `after`. -/
inductive Gap : List Char → List Char → Prop
  | nil {after : List Char} : Gap [] after
  | cons {first rest after : List Char} (hfirst : Filler first (rest ++ after))
    (hrest : Gap rest after) : Gap (first ++ rest) after

theorem Gap.concat {gap last after : List Char} (h : Gap gap (last ++ after))
    (hlast : Filler last after) : Gap (gap ++ last) after := by
  generalize hfollow : last ++ after = follow at h
  induction h with
  | nil =>
    have hone : Gap (last ++ []) after := .cons hlast .nil
    simpa using hone
  | cons hfirst _ ih =>
    subst hfollow
    rw [List.append_assoc]
    refine .cons ?_ (ih rfl)
    rwa [List.append_assoc]

/-- A line comment takes all of its line. -/
theorem filler_line (rest : List Char) :
    Filler ('/' :: '/' :: rest.take (runLength (! isLineEnd ·) rest))
      (rest.drop (runLength (! isLineEnd ·) rest)) := by
  rw [take_runLength, drop_runLength]
  refine .line (fun c hc => ?_) fun c hc => ?_
  · rw [← isLineEnd_iff]
    simpa using List.mem_takeWhile_imp hc
  · have hneg := List.head?_dropWhile_not (! isLineEnd ·) rest
    rw [Option.mem_def.1 hc] at hneg
    simpa [isLineEnd_iff] using hneg

theorem eq_of_blockCommentRest? {text : List Char} {n : Nat}
    (h : blockCommentRest? text = some n) :
    ∃ body, text.take n = body ++ ['*', '/'] ∧ ¬ ['*', '/'] <:+: body ++ ['*'] := by
  induction text generalizing n with
  | nil => cases h
  | cons c rest ih =>
    unfold blockCommentRest? at h
    split at h
    · rename_i hc
      cases h
      obtain ⟨rfl, hslash⟩ := hc
      obtain ⟨rest, rfl⟩ := List.head?_eq_some_iff.1 hslash
      exact ⟨[], rfl, fun hinfix => absurd hinfix.length_le (by decide)⟩
    · rename_i hc
      obtain ⟨m, hm, rfl⟩ := Option.map_eq_some_iff.1 h
      obtain ⟨body, htake, hbody⟩ := ih hm
      refine ⟨c :: body, by rw [List.take_succ_cons, htake, List.cons_append], ?_⟩
      rw [List.cons_append, List.infix_cons_iff]
      rintro (hfront | hlater)
      · -- the mark would begin with `c`, and the comment would end here
        obtain ⟨rfl, hslash⟩ := List.cons_prefix_cons.1 hfront
        refine hc ⟨rfl, ?_⟩
        cases body with
        | nil => exact absurd hslash (by decide)
        | cons d body =>
          obtain ⟨rfl, -⟩ := List.cons_prefix_cons.1 hslash
          have hhead := congrArg List.head? htake
          cases rest with
          | nil => simp at hhead
          | cons e rest =>
            cases m with
            | zero => simp at hhead
            | succ m => simpa using hhead
      · exact hbody hlater

/-- A comment at the front of a text. -/
theorem filler_comment {c : Char} {rest : List Char} {more : Nat}
    (h : Shape.comment? c rest = some (.comment, more)) :
    Filler (c :: rest.take more) (rest.drop more) := by
  cases rest with
  | nil => cases h
  | cons d rest =>
    simp only [Shape.comment?] at h
    split at h
    · rename_i hmark
      obtain ⟨rfl, rfl⟩ := hmark
      cases h
      rw [Nat.add_comm, List.take_succ_cons, List.drop_succ_cons]
      exact filler_line rest
    split at h
    · rename_i hmark
      obtain ⟨rfl, rfl⟩ := hmark
      split at h
      · rename_i length hlength
        cases h
        obtain ⟨body, htake, hbody⟩ := eq_of_blockCommentRest? hlength
        rw [Nat.add_comm, List.take_succ_cons, htake]
        exact .block hbody
      · cases h
    · cases h

/-- What is no token and no fault is a blank or a comment. -/
theorem filler_front {c : Char} {more after : List Char} {shape : Shape}
    (h : Shape.front c (more ++ after) = (shape, more.length))
    (hshape : shape = .blank ∨ shape = .comment) : Filler (c :: more) after := by
  have hstarts := Shape.starts_front c (more ++ after)
  rw [h] at hstarts
  generalize hlength : more.length = length at hstarts
  cases hstarts with
  | blank hc =>
    rw [List.length_eq_zero_iff.1 hlength]
    exact .blank (isBlank_iff.1 hc)
  | comment hcomment =>
    rcases Shape.comment?_eq_comment hcomment with hs | hs
    · obtain rfl : shape = .comment := hs
      subst hlength
      have hfiller := filler_comment hcomment
      rwa [List.take_left, List.drop_left] at hfiller
    · obtain rfl : shape = .openComment := hs
      rcases hshape with hs | hs <;> cases hs
  | lexeme | openString | stray => rcases hshape with hs | hs <;> cases hs

/-! ## The tokens of a text, one by one -/

/-- The tokens of a text that stands at `p`. -/
def tokensFrom (p : Position) (text : List Char) : List Token :=
  (place p (pieces text)).filterMap (fun (p, piece) => ofPiece? p piece) ++
    [ending (p.advance text)]

theorem tokensFrom_cons (p : Position) {c : Char} {more after : List Char} {shape : Shape}
    (h : Shape.front c (more ++ after) = (shape, more.length)) :
    tokensFrom p (c :: (more ++ after)) =
      (ofPiece? p ⟨shape, c :: more⟩).toList ++ tokensFrom (p.advance (c :: more)) after := by
  unfold tokensFrom
  rw [pieces_of_front h, place, List.filterMap_cons, ← List.cons_append, Position.advance_append]
  dsimp only
  cases ofPiece? p ⟨shape, c :: more⟩ <;> rfl

/-- Some tokens make up a text that stands behind `before`: each stands behind a gap and is what
the text behind the gap starts with. -/
inductive Covers : List Char → List Token → List Char → Prop
  | ending {before gap : List Char} (hgap : Gap gap []) :
    Covers before [ending (Position.origin.advance (before ++ gap))] gap
  | token {before gap more after : List Char} {c : Char} {t : Token} {rest : List Token}
    (hgap : Gap gap (c :: (more ++ after)))
    (hfront : Shape.front c (more ++ after) = (.lexeme t.kind, more.length))
    (himage : t.image.toList = c :: more)
    (hpos : t.pos = Position.origin.advance (before ++ gap))
    (hstop : t.stop = t.start + byteLength t.image.toList)
    (hrest : Covers (before ++ gap ++ c :: more) rest after) :
    Covers before (t :: rest) (gap ++ c :: (more ++ after))

/-- A text without faults is made up of its tokens. -/
theorem covers_tokensFrom {text : List Char} (hclean : ∀ piece ∈ pieces text, piece.Clean)
    (before : List Char) {gap : List Char} (hgap : Gap gap text) :
    Covers before (tokensFrom (Position.origin.advance (before ++ gap)) text) (gap ++ text) := by
  induction text using pieces_induction generalizing before gap with
  | nil =>
    rw [List.append_nil]
    exact .ending hgap
  | front c rest ih =>
    obtain ⟨shape, more, after, rfl, hfront⟩ := Shape.exists_front c rest
    rw [hfront, List.drop_left] at ih
    rw [pieces_of_front hfront, List.forall_mem_cons] at hclean
    obtain ⟨hfirst, hrest⟩ := hclean
    obtain ⟨hcomment, hstring, hstray⟩ := hfirst.shape (List.cons_ne_nil _ _)
    rw [tokensFrom_cons _ hfront, ← Position.advance_append]
    cases shape with
    | blank | comment =>
      have hmore := ih hrest before (hgap.concat (filler_front hfront (by simp)))
      rwa [← List.append_assoc, List.append_assoc gap] at hmore
    | lexeme k =>
      have hnext := ih hrest (before ++ gap ++ c :: more) .nil
      rw [List.append_nil, List.nil_append] at hnext
      exact .token hgap hfront String.toList_ofList rfl
        (congrArg (_ + byteLength ·) String.toList_ofList.symm) hnext
    | openComment => exact absurd rfl hcomment
    | openString => exact absurd rfl hstring
    | stray => exact absurd rfl hstray

/-! ## Places and gaps -/

/-- A token stands in a text between `before` and `after`, and says so: its offsets count the bytes
before it and before its end, its line the line feeds, its column the characters of its line. -/
structure StandsAt (text : List Char) (t : Token) (before after : List Char) : Prop where
  text_eq : text = before ++ (t.image.toList ++ after)
  start_eq : t.start = byteLength before
  stop_eq : t.stop = t.start + byteLength t.image.toList
  line_eq : t.pos.line = 1 + before.count '\n'
  column_eq : t.pos.column = 1 + (before.rtakeWhile (· ≠ '\n')).length

/-- Between two byte offsets of a text there are blanks and comments. -/
def GapBetween (text : List Char) (start stop : Nat) : Prop :=
  ∃ before gap after, text = before ++ (gap ++ after) ∧ start = byteLength before ∧
    stop = start + byteLength gap ∧ Gap gap after

theorem GapBetween.le {text : List Char} {start stop : Nat} (h : GapBetween text start stop) :
    start ≤ stop := by
  obtain ⟨before, gap, after, -, -, rfl, -⟩ := h
  exact Nat.le_add_right _ _

theorem standsAt_of_pos {text before after : List Char} {t : Token}
    (htext : text = before ++ (t.image.toList ++ after))
    (hpos : t.pos = Position.origin.advance before)
    (hstop : t.stop = t.start + byteLength t.image.toList) : StandsAt text t before after where
  text_eq := htext
  start_eq := by rw [start, hpos, Position.offset_advance_origin]
  stop_eq := hstop
  line_eq := by rw [hpos, Position.line_advance]
  column_eq := by rw [hpos, Position.column_advance]

namespace Covers

variable {before text : List Char} {tokens : List Token}

/-- The tokens stand where they say, and all but the end of input are what the text starts with
there. -/
theorem exists_standsAt (h : Covers before tokens text) : ∀ t ∈ tokens, ∃ front after,
    StandsAt (before ++ text) t front after ∧ (t.kind ≠ .endOfInput → ∃ c more,
      t.image.toList = c :: more ∧
        Shape.front c (more ++ after) = (.lexeme t.kind, more.length)) := by
  induction h with
  | @ending before gap =>
    refine List.forall_mem_singleton.2 ⟨before ++ gap, [], standsAt_of_pos ?_ rfl rfl, ?_⟩
    · exact (List.append_nil _).symm
    · exact fun hne => absurd rfl hne
  | @token before gap more after c t rest _ hfront himage hpos hstop _ ih =>
    have hlexeme : t.kind ≠ .endOfInput → ∃ c more, t.image.toList = c :: more ∧
        Shape.front c (more ++ after) = (.lexeme t.kind, more.length) :=
      fun _ => ⟨c, more, himage, hfront⟩
    refine List.forall_mem_cons.2
      ⟨⟨before ++ gap, after, standsAt_of_pos ?_ hpos hstop, hlexeme⟩, ?_⟩
    · rw [himage, List.append_assoc, List.cons_append]
    · rwa [List.append_assoc, List.append_assoc] at ih

/-- Between the end of one token and the start of the next there is a gap. -/
theorem gaps (h : Covers before tokens text) :
    ∀ pair ∈ (byteLength before :: tokens.map stop).zip (tokens.map start),
      GapBetween (before ++ text) pair.1 pair.2 := by
  induction h with
  | @ending before gap hgap =>
    refine List.forall_mem_singleton.2 ⟨before, gap, [], ?_, rfl, ?_, hgap⟩
    · rw [List.append_nil]
    · exact (Position.offset_advance_origin _).trans (byteLength_append ..)
  | @token before gap more after c t rest hgap _ himage hpos hstop _ ih =>
    have hstart : t.start = byteLength before + byteLength gap := by
      rw [start, hpos, Position.offset_advance_origin, byteLength_append]
    rw [byteLength_append, byteLength_append, ← hstart, ← himage, ← hstop, himage,
      List.append_assoc, List.append_assoc] at ih
    exact List.forall_mem_cons.2 ⟨⟨before, gap, _, rfl, rfl, hstart, hgap⟩, ih⟩

theorem ended (h : Covers before tokens text) : ∃ body last, tokens = body ++ [last] ∧
    (∀ t ∈ body, t.kind ≠ .endOfInput ∧ t.start < t.stop) ∧ last.kind = .endOfInput ∧
      last.image = "" ∧ last.start = byteLength (before ++ text) ∧
        last.stop = byteLength (before ++ text) := by
  induction h with
  | @ending before gap =>
    refine ⟨[], _, rfl, fun t ht => absurd ht List.not_mem_nil, rfl, rfl, ?_, ?_⟩ <;>
      exact Position.offset_advance_origin _
  | @token before gap more after c t rest _ hfront himage _ hstop _ ih =>
    obtain ⟨body, last, rfl, hbody, hlast⟩ := ih
    rw [List.append_assoc, List.append_assoc] at hlast
    refine ⟨t :: body, last, rfl, List.forall_mem_cons.2 ⟨⟨fun hk => ?_, ?_⟩, hbody⟩, hlast⟩
    · refine Shape.front_ne_endOfInput c (more ++ after) ?_
      rw [hfront, hk]
    · have hsize := c.utf8Size_pos
      rw [hstop, himage, byteLength_cons]
      omega

end Covers

theorem covers_tokenize {source : String} {tokens : List Token}
    (h : tokenize source = .ok tokens) : Covers [] tokens source.toList := by
  obtain ⟨hclean, htokens⟩ := tokenizeChars_eq_ok_iff.1 h
  rw [← htokens]
  exact covers_tokensFrom hclean [] .nil

end Token

/-- The tokens of a text and the gaps between them make up the text, and the tokens say where they
stand. The end of input is the last token and no other, and the only one with an empty image. -/
theorem tokenize_covers {source : String} {tokens : List Token}
    (h : tokenize source = .ok tokens) :
    (∃ body last, tokens = body ++ [last] ∧
      (∀ t ∈ body, t.kind ≠ .endOfInput ∧ t.start < t.stop) ∧ last.kind = .endOfInput ∧
        last.image = "" ∧ last.start = source.utf8ByteSize ∧ last.stop = source.utf8ByteSize) ∧
    (∀ t ∈ tokens, ∃ before after, StandsAt source.toList t before after) ∧
    ∀ pair ∈ (0 :: tokens.map stop).zip (tokens.map start),
      pair.1 ≤ pair.2 ∧ GapBetween source.toList pair.1 pair.2 := by
  have hcovers := covers_tokenize h
  refine ⟨?_, fun t ht => ?_, fun pair hpair => ?_⟩
  · rw [← byteLength_toList]
    exact hcovers.ended
  · obtain ⟨before, after, hstands, -⟩ := hcovers.exists_standsAt t ht
    exact ⟨before, after, hstands⟩
  · have hgap := hcovers.gaps pair hpair
    exact ⟨hgap.le, hgap⟩

/-- A gap with two comments and a line end, and a string that looks like a comment. -/
theorem tokenize_covers_comments : ∃ tokens,
    tokenize "x/*é*/ // \"y\r\n= \"//\";" = .ok tokens ∧
    tokens.map look = [(.identifier, "x"), (.assign, "="), (.string, "\"//\""), (.semicolon, ";"),
      (.endOfInput, "")] ∧
    (∀ t ∈ tokens, ∃ before after,
      StandsAt "x/*é*/ // \"y\r\n= \"//\";".toList t before after) ∧
    GapBetween "x/*é*/ // \"y\r\n= \"//\";".toList 1 15 := by
  have h : tokenize "x/*é*/ // \"y\r\n= \"//\";" = .ok [⟨.identifier, "x", ⟨1, 1, 0⟩, 1⟩,
      ⟨.assign, "=", ⟨2, 1, 15⟩, 16⟩, ⟨.string, "\"//\"", ⟨2, 3, 17⟩, 21⟩,
      ⟨.semicolon, ";", ⟨2, 7, 21⟩, 22⟩, ⟨.endOfInput, "", ⟨2, 8, 22⟩, 22⟩] := by
    decide +kernel
  obtain ⟨-, hstands, hgaps⟩ := tokenize_covers h
  exact ⟨_, h, rfl, hstands, (hgaps (1, 15) (by decide)).2⟩

end Botscript
