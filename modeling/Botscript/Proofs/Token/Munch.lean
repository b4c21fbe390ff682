import Botscript.Proofs.Token.Classes
import Botscript.Proofs.Token.Cover

/-!
# Maximal munch

A token is a lexeme of its kind, and no lexeme of any kind that begins where the token begins is
longer (`tokenize_longest`). Numbers are compared with each other (`integer_le_floatLength`),
operators by the order in which they are tried, and everything else is told apart by its first
character.
-/

namespace Botscript

open Token Computability

namespace Token

variable {c : Char} {k : Kind} {n : Nat} {text v w more after : List Char}

/-! ## Floats before integers -/

/-- The digits of an integer are decimal, or the integer goes on with a letter that no float has
behind its digits. -/
theorem mem_integer_cases (h : w ∈ Lexeme.integer) : w ∈ (oneIn Char.isDigit)∗ ∨
    ∃ digits ∈ (oneIn Char.isDigit)∗, ∃ d ∈ ['x', 'X', 'l', 'L'], ∃ v, w = digits ++ d :: v := by
  obtain ⟨a, ha, s, hs, rfl⟩ := h
  rcases ha with ha | ha
  · obtain ⟨_, hv, rfl⟩ := mem_char_mul.1 ha
    obtain ⟨x, digits, rfl, hx, -⟩ := mem_oneIn_mul.1 hv
    have hx : x ∈ ['x', 'X', 'l', 'L'] :=
      List.mem_append_left ['l', 'L'] (of_decide_eq_true hx)
    have hzero : ['0'] ∈ (oneIn Char.isDigit)∗ :=
      mem_star_oneIn.2 (List.forall_mem_singleton.2 rfl)
    exact .inr ⟨['0'], hzero, x, hx, digits ++ s, rfl⟩
  · rcases hs with rfl | ⟨l, rfl, hl⟩
    · left
      show a ++ [] ∈ (oneIn Char.isDigit)∗
      rw [List.append_nil]
      exact star_of_several ha
    · have hl : l ∈ ['x', 'X', 'l', 'L'] :=
        List.mem_append_right ['x', 'X'] (of_decide_eq_true hl)
      exact .inr ⟨a, star_of_several ha, l, hl, [], rfl⟩

theorem floatTailLength_of_shunned (hc : c.isDigit ∨ c ∈ ['.', 'x', 'X', 'l', 'L'])
    (text : List Char) : floatTailLength (c :: text) = 0 := by
  cases h : floatTailLength (c :: text) with
  | zero => rfl
  | succ n =>
    have hmem := takes_floatTail.mem (c :: text)
    rw [h, List.take_succ_cons] at hmem
    exact absurd hc (shuns_floatTail c _ hmem)

/-- Where there is a float, no integer is longer. -/
theorem integer_le_floatLength (hw : w ∈ Lexeme.integer) (h : w <+: text)
    (hf : floatLength text ≠ 0) : w.length ≤ floatLength text := by
  rcases mem_integer_cases hw with hw | ⟨digits, hd, l, hl, v, rfl⟩
  · have hrun := (takes_run _).max hw h
    by_contra hlt
    exact hf (floatLength_eq_zero_of_le (by omega))
  · -- behind the digits stands a letter that no float goes on with
    have hother : ¬ l.isDigit ∧ l ≠ '.' :=
      forall_letter (P := fun c => ¬ c.isDigit ∧ c ≠ '.') (by decide) l hl
    obtain ⟨-, after, hdrop⟩ := drop_run hd hother.1 h
    refine absurd ?_ hf
    rw [floatLength_of_no_point, hdrop, if_pos]
    · exact .inr (floatTailLength_of_shunned (.inr (List.mem_cons_of_mem _ hl)) _)
    · intro rest hrest
      exact hother.2 (List.cons.inj (hdrop.symm.trans hrest)).1

/-! ## Operators -/

/-- No operator is tried before one that it begins. -/
theorem operators_pairwise : Kind.operators.Pairwise fun k l =>
    ¬ k.spelling.toList <+: l.spelling.toList := by
  decide

theorem operator_length_le {l : Kind} (h : operator? text = some k) (hl : l ∈ Kind.operators)
    (hpre : l.spelling.toList <+: text) : l.spelling.toList.length ≤ k.spelling.toList.length := by
  obtain ⟨hk, before, behind, hsplit, hbefore⟩ := List.find?_eq_some_iff_append.1 h
  have hk := List.isPrefixOf_iff_prefix.1 hk
  have hlater : l = k ∨ l ∈ behind := by
    rw [hsplit, List.mem_append, List.mem_cons] at hl
    refine hl.resolve_left fun hmem => ?_
    have hnot := hbefore l hmem
    rw [Bool.not_eq_true', ← Bool.not_eq_true, List.isPrefixOf_iff_prefix] at hnot
    exact hnot hpre
  obtain rfl | hmem := hlater
  · exact le_rfl
  · have hpairwise := operators_pairwise
    rw [hsplit, List.pairwise_append, List.pairwise_cons] at hpairwise
    by_contra hlt
    exact hpairwise.2.1.1 l hmem (List.prefix_of_prefix_length_le hk hpre (by omega))

/-! ## First characters -/

/-- The characters that a number begins with. -/
def isNumberStart (c : Char) : Bool := c.isDigit || c == '.'

theorem isNumberStart_of_isDigit (h : c.isDigit) : isNumberStart c := by
  rw [isNumberStart, h, Bool.true_or]

theorem isNumberStart_of_float (h : c :: v ∈ Lexeme.float) : isNumberStart c := by
  rcases mem_float.1 h with ⟨a, ha, b, -, t, -, -, he⟩ | ⟨a, ha, t, -, -, he⟩
  · cases a with
    | nil =>
      obtain ⟨rfl, -⟩ := List.cons.inj he
      decide
    | cons d a =>
      obtain ⟨rfl, -⟩ := List.cons.inj he
      exact isNumberStart_of_isDigit (mem_star_oneIn.1 ha c List.mem_cons_self)
  · obtain ⟨d, a, rfl, hd, -⟩ := mem_oneIn_mul.1 ha
    obtain ⟨rfl, -⟩ := List.cons.inj he
    exact isNumberStart_of_isDigit hd

theorem isNumberStart_of_integer (h : c :: v ∈ Lexeme.integer) : isNumberStart c := by
  obtain ⟨a, ha | ha, s, -, he⟩ := h
  · obtain ⟨a, -, rfl⟩ := mem_char_mul.1 ha
    obtain ⟨rfl, -⟩ := List.cons.inj he
    decide
  · obtain ⟨d, a, rfl, hd, -⟩ := mem_oneIn_mul.1 ha
    obtain ⟨rfl, -⟩ := List.cons.inj he
    exact isNumberStart_of_isDigit hd

theorem isNumberStart_of_floatLength (h : floatLength (c :: text) = n + 1) :
    isNumberStart c := by
  have hmem : (c :: text).take (floatLength (c :: text)) ∈ Lexeme.float :=
    takes_float.mem_of_ne_zero (by omega)
  rw [h, List.take_succ_cons] at hmem
  exact isNumberStart_of_float hmem

theorem isNumberStart_of_integerLength (h : integerLength (c :: text) = n + 1) :
    isNumberStart c := by
  have hmem : (c :: text).take (integerLength (c :: text)) ∈ Lexeme.integer :=
    takes_integer.mem_of_ne_zero (by omega)
  rw [h, List.take_succ_cons] at hmem
  exact isNumberStart_of_integer hmem

theorem le_of_isNumberStart (h : isNumberStart c) : c ≤ '9' := by
  rcases Bool.or_eq_true_iff.1 h with hdigit | hpoint
  · exact of_decide_eq_true (Bool.and_eq_true_iff.1 hdigit).2
  · rw [eq_of_beq hpoint]
    decide

theorem le_of_isWordStart (h : isWordStart c) : 'A' ≤ c := by
  rcases Bool.or_eq_true_iff.1 h with halpha | hunderscore
  · rcases Bool.or_eq_true_iff.1 halpha with hupper | hlower
    · exact (of_decide_eq_true hupper).1
    · have hle : 'a' ≤ c := of_decide_eq_true (Bool.and_eq_true_iff.1 hlower).1
      exact Char.le_trans (by decide) hle
  · rw [eq_of_beq hunderscore]
    decide

theorem not_isWordStart_of_number (h : isNumberStart c) : ¬ isWordStart c := fun hw =>
  absurd (Char.le_trans (le_of_isWordStart hw) (le_of_isNumberStart h)) (by decide)

theorem operator_start (hk : k ∈ Kind.operators) (h : k.spelling.toList = c :: v) :
    c ≠ '"' ∧ ¬ isWordStart c ∧ (isNumberStart c → v = []) := by
  have hall : ∀ k ∈ Kind.operators, k.spelling.toList.head?.all fun c =>
      c ≠ '"' ∧ ¬ isWordStart c ∧ (isNumberStart c → k.spelling.toList.tail = []) := by decide
  have hstart := hall k hk
  rw [h] at hstart
  exact of_decide_eq_true hstart

/-! ## Kinds -/

namespace Lexeme

/-- The operators and punctuation marks. -/
def operator : Language Char := {w | ∃ k ∈ Kind.operators, w = k.spelling.toList}

def number : Language Char := float + integer

/-- The lexemes that are no numbers. -/
def symbol : Language Char := string + word + operator

end Lexeme

theorem Kind.ofWord_spelling (hk : k ∈ keywords) : ofWord k.spelling = k :=
  (by decide : ∀ k ∈ keywords, ofWord k.spelling = k) k hk

theorem Kind.ofWord_eq_identifier {text : String} (h : ∀ k ∈ keywords, text ≠ k.spelling) :
    ofWord text = identifier := by
  have hnone : keywords.find? (·.spelling = text) = none :=
    List.find?_eq_none.2 fun k hk => by simpa using (h k hk).symm
  rw [ofWord, hnone, Option.getD_none]

theorem keyword_mem_word (hk : k ∈ Kind.keywords) : k.spelling.toList ∈ Lexeme.word := by
  have hall : ∀ k ∈ Kind.keywords, k.spelling.toList.head?.any isWordStart ∧
      k.spelling.toList.tail.all isWordPart := by decide
  obtain ⟨hhead, htail⟩ := hall k hk
  cases h : k.spelling.toList with
  | nil =>
    rw [h] at hhead
    exact absurd hhead (by decide)
  | cons c v =>
    rw [h] at hhead htail
    exact cons_mem_word.2 ⟨hhead, mem_star_oneIn.2 (List.all_eq_true.1 htail)⟩

/-- What is spelled like a word is a keyword. -/
theorem mem_keywords_of_word (h : k.spelling.toList ∈ Lexeme.word) : k ∈ Kind.keywords := by
  have hall : ∀ k ∈ Kind.all, k ∈ Kind.keywords ∨
      k.spelling.toList.head?.all (! isWordStart ·) := by decide
  refine (hall k k.mem_all).resolve_right fun hhead => ?_
  obtain ⟨c, v, hcv, -⟩ := mem_oneIn_mul.1 h
  rw [hcv] at h hhead
  rw [List.head?_cons, Option.all_some, (cons_mem_word.1 h).1] at hhead
  cases hhead

/-- Keywords and operators have one lexeme. -/
theorem lexemes_of_spelled (hk : k ∈ Kind.keywords ++ Kind.operators) :
    k.lexemes = {k.spelling.toList} := by
  cases k <;> first | rfl | exact absurd hk (by decide)

/-- The lexemes of a kind are numbers or symbols. -/
theorem number_or_symbol (hw : w ∈ k.lexemes) : w ∈ Lexeme.number + Lexeme.symbol := by
  by_cases hk : k ∈ Kind.keywords ++ Kind.operators
  · rw [lexemes_of_spelled hk] at hw
    obtain rfl : w = k.spelling.toList := hw
    rcases List.mem_append.1 hk with hk | hk
    · exact .inr (.inl (.inr (keyword_mem_word hk)))
    · exact .inr (.inr ⟨k, hk, rfl⟩)
  · cases k with
    | float => exact .inl (.inl hw)
    | integer => exact .inl (.inr hw)
    | string => exact .inr (.inl (.inl hw))
    | identifier => exact .inr (.inl (.inr hw))
    | endOfInput => exact absurd hw (Language.notMem_zero w)
    | _ => exact absurd (by decide) hk

/-- A symbol that begins like a number is a single character. -/
theorem symbol_of_number (hc : isNumberStart c) (h : c :: v ∈ Lexeme.symbol) : v = [] := by
  rcases h with (h | h) | ⟨k, hk, h⟩
  · obtain ⟨_, -, he⟩ := mem_char_mul.1 h
    obtain ⟨rfl, -⟩ := List.cons.inj he
    exact absurd hc (by decide)
  · exact absurd (cons_mem_word.1 h).1 (not_isWordStart_of_number hc)
  · exact (operator_start hk h.symm).2.2 hc

/-! ## The front of a text -/

theorem takeWhile_of_length {p : Char → Bool}
    (h : more.length = ((more ++ after).takeWhile p).length) :
    (more ++ after).takeWhile p = more := by
  rw [← take_runLength, runLength, ← h, List.take_left]

theorem mem_lexemes_of_front (h : Shape.front c (more ++ after) = (.lexeme k, more.length)) :
    c :: more ∈ k.lexemes := by
  by_cases hk : k ∈ Kind.keywords ++ Kind.operators
  · have htext := Shape.front_text h hk
    rw [List.take_left] at htext
    rw [lexemes_of_spelled hk]
    exact htext
  · have hlexes := Shape.lexes_of_front h
    generalize hlength : more.length = length at hlexes
    have htake : (c :: (more ++ after)).take (length + 1) = c :: more := by
      rw [List.take_succ_cons, ← hlength, List.take_left]
    cases hlexes with
    | float hf =>
      rw [← htake, ← hf]
      exact takes_float.mem_of_ne_zero (by omega)
    | integer _ hi =>
      rw [← htake, ← hi]
      exact takes_integer.mem_of_ne_zero (by omega)
    | string _ _ hc hs =>
      have hrest := mem_of_stringRest hs
      rw [← hlength, List.take_left] at hrest
      exact mem_char_mul.2 ⟨more, hrest, congrArg (· :: more) hc⟩
    | word _ _ _ hc =>
      have hidentifier := (List.mem_cons.1 (Kind.ofWord_mem _)).resolve_right fun hkeyword =>
        hk (List.mem_append_left _ hkeyword)
      rw [hidentifier]
      refine cons_mem_word.2 ⟨hc, ?_⟩
      rw [← takeWhile_of_length hlength]
      exact mem_star_oneIn.2 fun d hd => List.mem_takeWhile_imp hd
    | operator _ _ _ _ ho =>
      exact absurd (List.mem_append_right _ (List.mem_of_find?_eq_some ho)) hk

/-- No number is longer than the lexeme that is taken. -/
theorem number_length_le (h : Shape.front c text = (.lexeme k, n)) (hw : w ∈ Lexeme.number)
    (hpre : w <+: c :: text) : w.length ≤ n + 1 := by
  have hfloat : w ∈ Lexeme.float → w.length ≤ floatLength (c :: text) :=
    fun hw => takes_float.max (mem_maybe_of_mem hw) hpre
  have hinteger : w ∈ Lexeme.integer → w.length ≤ integerLength (c :: text) :=
    fun hw => takes_integer.max (mem_maybe_of_mem hw) hpre
  cases Shape.lexes_of_front h with
  | float hf =>
    rcases hw with hw | hw
    · exact (hfloat hw).trans hf.le
    · exact (integer_le_floatLength hw hpre (by omega)).trans hf.le
  | integer hf hi =>
    rcases hw with hw | hw
    · exact (hfloat hw).trans (hf.le.trans (Nat.zero_le _))
    · exact (hinteger hw).trans hi.le
  | string hf hi | word hf hi | operator hf hi =>
    rcases hw with hw | hw
    · exact (hfloat hw).trans (hf.le.trans (Nat.zero_le _))
    · exact (hinteger hw).trans (hi.le.trans (Nat.zero_le _))

/-- No symbol is longer than the lexeme that is taken. -/
theorem symbol_length_le (h : Shape.front c text = (.lexeme k, n)) (hw : c :: v ∈ Lexeme.symbol)
    (hpre : v <+: text) : v.length ≤ n := by
  cases Shape.lexes_of_front h with
  | float hf =>
    rw [symbol_of_number (isNumberStart_of_floatLength hf) hw]
    exact Nat.zero_le n
  | integer _ hi =>
    rw [symbol_of_number (isNumberStart_of_integerLength hi) hw]
    exact Nat.zero_le n
  | string _ _ hq hs =>
    subst hq
    rcases hw with (hw | hw) | ⟨k, hk, hw⟩
    · obtain ⟨v, hmem, he⟩ := mem_char_mul.1 hw
      obtain ⟨-, rfl⟩ := List.cons.inj he
      obtain ⟨after, rfl⟩ := hpre
      rw [stringRest_of_mem hmem] at hs
      exact (congrArg Prod.fst hs).le
    · exact absurd (cons_mem_word.1 hw).1 (by decide)
    · exact absurd rfl (operator_start hk hw.symm).1
  | word _ _ hq hc =>
    rcases hw with (hw | hw) | ⟨k, hk, hw⟩
    · obtain ⟨_, -, he⟩ := mem_char_mul.1 hw
      exact absurd (List.cons.inj he).1 hq
    · exact (takes_run isWordPart).max (cons_mem_word.1 hw).2 hpre
    · exact absurd hc (operator_start hk hw.symm).2.1
  | operator _ _ hq hc ho =>
    rcases hw with (hw | hw) | ⟨l, hl, hw⟩
    · obtain ⟨_, -, he⟩ := mem_char_mul.1 hw
      exact absurd (List.cons.inj he).1 hq
    · exact absurd (cons_mem_word.1 hw).1 hc
    · have hlength := operator_length_le ho hl (hw ▸ List.cons_prefix_cons.2 ⟨rfl, hpre⟩)
      rw [← hw, List.length_cons, String.length_toList] at hlength
      omega

theorem kind_of_word (h : Shape.front c (more ++ after) = (.lexeme k, more.length))
    (hw : c :: more ∈ Lexeme.word) : k = .ofWord (String.ofList (c :: more)) := by
  have hc := (cons_mem_word.1 hw).1
  have hlexes := Shape.lexes_of_front h
  generalize hlength : more.length = length at hlexes
  cases hlexes with
  | float hf => exact absurd hc (not_isWordStart_of_number (isNumberStart_of_floatLength hf))
  | integer _ hi => exact absurd hc (not_isWordStart_of_number (isNumberStart_of_integerLength hi))
  | string _ _ hq =>
    subst hq
    exact absurd hc (by decide)
  | word => rw [takeWhile_of_length hlength]
  | operator _ _ _ hother => exact absurd hc hother

/-- No lexeme is longer than the one that is taken. -/
theorem length_le_of_front (h : Shape.front c text = (.lexeme k, n)) {l : Kind} (hw : w ∈ l.lexemes)
    (hpre : w <+: c :: text) : w.length ≤ n + 1 := by
  rcases number_or_symbol hw with hw | hw
  · exact number_length_le h hw hpre
  · cases w with
    | nil => exact Nat.zero_le _
    | cons d v =>
      obtain ⟨rfl, hv⟩ := List.cons_prefix_cons.1 hpre
      exact Nat.succ_le_succ (symbol_length_le h hw hv)

end Token

/-- Every token but the last is a lexeme of its kind, and where it begins no lexeme of any kind is
longer. A word that is the spelling of a kind is of that kind, and any other word is an
identifier. -/
theorem tokenize_longest {source : String} {tokens : List Token} {t : Token}
    (h : tokenize source = .ok tokens) (ht : t ∈ tokens.dropLast) :
    t.image.toList ∈ t.kind.lexemes ∧
    (∃ before after, StandsAt source.toList t before after ∧
      ∀ k : Kind, ∀ w ∈ k.lexemes, w <+: t.image.toList ++ after →
        w.length ≤ t.image.toList.length) ∧
    (t.image.toList ∈ Lexeme.word →
      (∀ k : Kind, t.image = k.spelling → t.kind = k) ∧
      ((∀ k : Kind, t.image ≠ k.spelling) → t.kind = .identifier)) := by
  have hcovers := covers_tokenize h
  obtain ⟨body, last, rfl, hbody, -⟩ := hcovers.ended
  rw [List.dropLast_concat] at ht
  obtain ⟨before, after, hstands, hlexeme⟩ :=
    hcovers.exists_standsAt t (List.mem_append_left _ ht)
  obtain ⟨c, more, himage, hfront⟩ := hlexeme (hbody t ht).1
  have hmem : t.image.toList ∈ t.kind.lexemes := by
    rw [himage]
    exact mem_lexemes_of_front hfront
  refine ⟨hmem, ⟨before, after, hstands, fun k w hw hpre => ?_⟩, fun hword => ?_⟩
  · rw [himage] at hpre ⊢
    exact length_le_of_front hfront hw hpre
  · have hkind : t.kind = .ofWord t.image := by
      rw [← String.ofList_toList (s := t.image), himage]
      exact kind_of_word hfront (himage ▸ hword)
    rw [hkind]
    refine ⟨fun k hspelling => ?_, fun hother => Kind.ofWord_eq_identifier fun k _ => hother k⟩
    rw [hspelling] at hword ⊢
    exact Kind.ofWord_spelling (mem_keywords_of_word hword)

/-- Hexadecimal digits that are suffixes elsewhere, two points, two shifts and a keyword that goes
on. -/
theorem tokenize_longest_points : ∃ tokens, tokenize "0x1e5 1..5>>=iff" = .ok tokens ∧
    tokens.map look = [(.integer, "0x1e5"), (.float, "1."), (.float, ".5"), (.shr, ">>"),
      (.assign, "="), (.identifier, "iff"), (.endOfInput, "")] ∧
    ∀ t ∈ tokens.dropLast, t.image.toList ∈ t.kind.lexemes ∧
      ∃ before after, StandsAt "0x1e5 1..5>>=iff".toList t before after ∧
        ∀ k : Kind, ∀ w ∈ k.lexemes, w <+: t.image.toList ++ after →
          w.length ≤ t.image.toList.length := by
  have h : tokenize "0x1e5 1..5>>=iff" = .ok [⟨.integer, "0x1e5", ⟨1, 1, 0⟩, 5⟩,
      ⟨.float, "1.", ⟨1, 7, 6⟩, 8⟩, ⟨.float, ".5", ⟨1, 9, 8⟩, 10⟩, ⟨.shr, ">>", ⟨1, 11, 10⟩, 12⟩,
      ⟨.assign, "=", ⟨1, 13, 12⟩, 13⟩, ⟨.identifier, "iff", ⟨1, 14, 13⟩, 16⟩,
      ⟨.endOfInput, "", ⟨1, 17, 16⟩, 16⟩] := by
    decide +kernel
  refine ⟨_, h, rfl, fun t ht => ?_⟩
  obtain ⟨hmem, hlongest, -⟩ := tokenize_longest h ht
  exact ⟨hmem, hlongest⟩

end Botscript
