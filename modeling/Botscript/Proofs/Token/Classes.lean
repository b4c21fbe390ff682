import Mathlib.Computability.Language
import Botscript.Proofs.Token.Spelled

/-!
# Classes of lexemes

Each kind of token names a class of texts, its lexemes (`Kind.lexemes`). The measures of numbers
take the longest word of their class from the front of every text (`takes_float`, `takes_integer`):
one measure behind another does so if no word of the second class begins with a character that
words of the first hold (`Takes.seq`). A string literal ends in one place only
(`stringRest_of_mem`).
-/

namespace Botscript.Token

open Computability

/-! ## Languages of characters -/

/-- One character of a class. -/
def oneIn (p : Char → Bool) : Language Char := {w | ∃ c, w = [c] ∧ p c}

/-- One of some characters. -/
abbrev letter (cs : List Char) : Language Char := oneIn (· ∈ cs)

/-- Characters of a class, one at least. -/
def several (p : Char → Bool) : Language Char := oneIn p * (oneIn p)∗

/-- A word of a language, or nothing. -/
def maybe (L : Language Char) : Language Char := 1 + L

namespace Lexeme

/-- `e` or `E`, a sign or none, and digits. -/
def exponent : Language Char :=
  letter ['e', 'E'] * (maybe (letter ['+', '-']) * several Char.isDigit)

def floatSuffix : Language Char := letter ['f', 'F', 'd', 'D']

/-- What may stand behind the digits of a float. -/
def floatTail : Language Char := maybe exponent * maybe floatSuffix

/-- Digits and a point and digits or none, or a point and digits, with an exponent or none and a
suffix or none; or digits and an exponent, with a suffix or none; or digits and a suffix. -/
def float : Language Char :=
  several Char.isDigit * (letter ['.'] * ((oneIn Char.isDigit)∗ * floatTail))
    + letter ['.'] * (several Char.isDigit * floatTail)
    + several Char.isDigit * (exponent * maybe floatSuffix)
    + several Char.isDigit * floatSuffix

/-- A decimal digit, or a letter from `a` to `f` in either case. -/
def hexDigit (c : Char) : Bool :=
  ('0' ≤ c && c ≤ '9') || ('a' ≤ c && c ≤ 'f') || ('A' ≤ c && c ≤ 'F')

/-- `0x` or `0X` and hexadecimal digits, or decimal digits. -/
def integerBody : Language Char :=
  letter ['0'] * (letter ['x', 'X'] * several hexDigit) + several Char.isDigit

def integer : Language Char := integerBody * maybe (letter ['l', 'L'])

/-- What a string literal holds: a backslash with any character, or a character that is no quote, no
backslash and no line end. -/
def stringPart : Language Char :=
  letter ['\\'] * oneIn (fun _ => true) + oneIn (· ∉ ['"', '\\', '\r', '\n'])

def string : Language Char := letter ['"'] * (stringPart∗ * letter ['"'])

/-- A letter of the alphabet, in either case, or an underscore. -/
def wordStart (c : Char) : Bool :=
  ('a' ≤ c && c ≤ 'z') || ('A' ≤ c && c ≤ 'Z') || c == '_'

/-- What a word may begin with, or a decimal digit. -/
def wordPart (c : Char) : Bool := wordStart c || ('0' ≤ c && c ≤ '9')

def word : Language Char := oneIn wordStart * (oneIn wordPart)∗

end Lexeme

/-- The lexemes of a kind. Keywords and operators are spelled as their kind; the end of input has no
lexeme. -/
def Kind.lexemes : Kind → Language Char
  | .integer => Lexeme.integer
  | .float => Lexeme.float
  | .string => Lexeme.string
  | .identifier => Lexeme.word
  | .endOfInput => 0
  | k => {k.spelling.toList}

variable {p : Char → Bool} {L M : Language Char} {f g : List Char → Nat} {c : Char}
  {text v w : List Char}

theorem mem_oneIn_mul : w ∈ oneIn p * L ↔ ∃ c v, w = c :: v ∧ p c ∧ v ∈ L := by
  rw [Language.mem_mul]
  constructor
  · rintro ⟨_, ⟨c, rfl, hc⟩, v, hv, rfl⟩
    exact ⟨c, v, rfl, hc, hv⟩
  · rintro ⟨c, v, rfl, hc, hv⟩
    exact ⟨[c], ⟨c, rfl, hc⟩, v, hv, rfl⟩

theorem cons_mem_oneIn_mul : c :: v ∈ oneIn p * L ↔ p c ∧ v ∈ L := by
  rw [mem_oneIn_mul]
  constructor
  · rintro ⟨_, _, h, hc, hv⟩
    cases h
    exact ⟨hc, hv⟩
  · exact fun h => ⟨c, v, rfl, h⟩

theorem mem_char_mul : w ∈ letter [c] * L ↔ ∃ v ∈ L, w = c :: v := by
  rw [mem_oneIn_mul]
  constructor
  · rintro ⟨d, v, rfl, hd, hv⟩
    rw [List.mem_singleton.1 (of_decide_eq_true hd)]
    exact ⟨v, hv, rfl⟩
  · rintro ⟨v, hv, rfl⟩
    exact ⟨c, v, rfl, decide_eq_true (List.mem_singleton_self c), hv⟩

theorem mem_star_oneIn : w ∈ (oneIn p)∗ ↔ ∀ c ∈ w, p c := by
  induction w with
  | nil => simp [Language.nil_mem_kstar]
  | cons c v ih =>
    rw [← Language.one_add_self_mul_kstar_eq_kstar, Language.mem_add, cons_mem_oneIn_mul, ih,
      List.forall_mem_cons]
    simp [Language.mem_one]

theorem mem_several : w ∈ several p ↔ w ≠ [] ∧ ∀ c ∈ w, p c := by
  cases w with
  | nil => simp [several, mem_oneIn_mul]
  | cons c v => rw [several, cons_mem_oneIn_mul, mem_star_oneIn, List.forall_mem_cons]; simp

/-! ## The characters of words and hexadecimal digits -/

theorem isHexDigit_eq : isHexDigit = Lexeme.hexDigit := rfl

theorem isAlpha_eq (c : Char) :
    c.isAlpha = (('a' ≤ c && c ≤ 'z') || ('A' ≤ c && c ≤ 'Z')) := by
  have hupper : c.isUpper = ('A' ≤ c && c ≤ 'Z') := Bool.decide_and _ _
  calc c.isAlpha = (c.isUpper || c.isLower) := rfl
    _ = (('A' ≤ c && c ≤ 'Z') || c.isLower) := by rw [hupper]
    _ = (('a' ≤ c && c ≤ 'z') || ('A' ≤ c && c ≤ 'Z')) := Bool.or_comm _ _

theorem isWordStart_eq : isWordStart = Lexeme.wordStart := by
  funext c
  rw [isWordStart, isAlpha_eq, Lexeme.wordStart]

theorem isWordPart_eq : isWordPart = Lexeme.wordPart := by
  funext c
  rw [isWordPart, Char.isAlphanum, isAlpha_eq, Bool.or_right_comm]
  rfl

theorem cons_mem_word : c :: v ∈ Lexeme.word ↔ isWordStart c ∧ v ∈ (oneIn isWordPart)∗ := by
  rw [isWordStart_eq, isWordPart_eq]
  exact cons_mem_oneIn_mul

theorem integerBody_eq : Lexeme.integerBody =
    letter ['0'] * (letter ['x', 'X'] * several isHexDigit) + several Char.isDigit := by
  rw [isHexDigit_eq, Lexeme.integerBody]

/-! ## What there may be or not -/

theorem nil_mem_maybe (L : Language Char) : [] ∈ maybe L := .inl rfl

theorem mem_maybe_of_mem (h : w ∈ L) : w ∈ maybe L := .inr h

/-! ## Measures that take the longest word -/

/-- A measure takes the longest word of a language from the front of every text. -/
structure Takes (f : List Char → Nat) (L : Language Char) : Prop where
  le (text : List Char) : f text ≤ text.length
  mem (text : List Char) : text.take (f text) ∈ L
  max {text w : List Char} (hw : w ∈ L) (h : w <+: text) : w.length ≤ f text

/-- All characters in the words of a language are of a class. -/
def Within (L : Language Char) (p : Char → Prop) : Prop := ∀ w ∈ L, ∀ c ∈ w, p c

/-- No word of a language begins with a character of a class. -/
def Shuns (L : Language Char) (p : Char → Prop) : Prop := ∀ c v, c :: v ∈ L → ¬ p c

theorem takes_run (p : Char → Bool) : Takes (runLength p) (oneIn p)∗ where
  le := runLength_le p
  mem text := by
    rw [take_runLength, mem_star_oneIn]
    exact fun c hc => List.mem_takeWhile_imp hc
  max {text w} hw h := by
    obtain ⟨after, rfl⟩ := h
    rw [runLength, List.takeWhile_append_of_pos (mem_star_oneIn.1 hw), List.length_append]
    exact Nat.le_add_right _ _

theorem takes_letter (cs : List Char) : Takes (letterLength cs) (maybe (letter cs)) where
  le := letterLength_le cs
  mem text := by
    cases text with
    | nil => exact nil_mem_maybe _
    | cons c rest =>
      simp only [letterLength]
      split <;> rename_i hc
      · exact mem_maybe_of_mem ⟨c, rfl, by simpa using hc⟩
      · exact nil_mem_maybe _
  max {text w} hw h := by
    rcases hw with rfl | ⟨c, rfl, hc⟩
    · exact Nat.zero_le _
    · obtain ⟨after, rfl⟩ := h
      exact (if_pos (by simpa using hc)).ge

namespace Takes

/-- The longest word of one language and the longest word of another behind it, if no word of the
second one begins with a character that the first one might go on with. -/
theorem seq {q : Char → Prop} (hf : Takes f L) (hg : Takes g M) (hL : Within L q)
    (hM : Shuns M q) : Takes (fun text => f text + g (text.drop (f text))) (L * M) where
  le text := by
    have hfront := hf.le text
    have hback := hg.le (text.drop (f text))
    rw [List.length_drop] at hback
    omega
  mem text := by
    rw [List.take_add]
    exact Language.append_mem_mul (hf.mem text) (hg.mem _)
  max {text w} hw h := by
    obtain ⟨a, ha, m, hm, rfl⟩ := hw
    have hle := hf.max ha ((List.prefix_append a m).trans h)
    dsimp only
    rw [List.length_append]
    cases m with
    | nil => exact hle.trans (Nat.le_add_right _ _)
    | cons d m =>
      obtain ⟨after, rfl⟩ := h
      obtain hlt | heq := Nat.lt_or_eq_of_le hle
      · -- the word that was taken goes on with `d`
        have hd : a ++ [d] <+: (a ++ d :: m ++ after).take (f (a ++ d :: m ++ after)) :=
          List.prefix_take_iff.2 ⟨⟨m ++ after, by simp⟩, by rwa [List.length_append]⟩
        exact absurd (hL _ (hf.mem _) d (hd.mem (by simp))) (hM d m hm)
      · rw [← heq, List.append_assoc, List.drop_left]
        exact Nat.add_le_add_left (hg.max hm (List.prefix_append _ _)) _

end Takes

-- The list is run through by `all`, as for the delimiters.
theorem forall_letter {P : Char → Prop} [DecidablePred P] {cs : List Char}
    (h : cs.all fun c => P c) : ∀ c ∈ cs, P c :=
  List.all_iff_forall_prop.1 h

theorem Takes.mem_of_ne_zero (hf : Takes f (maybe L)) (h : f text ≠ 0) :
    text.take (f text) ∈ L := by
  rcases hf.mem text with hnil | hmem
  · have hlength := congrArg List.length hnil
    rw [List.length_take_of_le (hf.le text)] at hlength
    exact absurd hlength h
  · exact hmem

theorem star_of_several (hw : w ∈ several p) : w ∈ (oneIn p)∗ :=
  mem_star_oneIn.2 (mem_several.1 hw).2

theorem take_run_mem (h : runLength p text ≠ 0) : text.take (runLength p text) ∈ several p := by
  refine mem_several.2 ⟨fun hnil => h ?_, mem_star_oneIn.1 ((takes_run p).mem text)⟩
  rw [← List.length_take_of_le (runLength_le p text), hnil, List.length_nil]

/-- A run ends before the first character that is not of its class. -/
theorem drop_run {a : List Char} (ha : a ∈ (oneIn p)∗) (hc : ¬ p c) (h : a ++ c :: v <+: text) :
    runLength p text = a.length ∧
      ∃ after, text.drop (runLength p text) = c :: (v ++ after) := by
  obtain ⟨after, rfl⟩ := h
  have hrun : runLength p (a ++ c :: v ++ after) = a.length := by
    rw [List.append_assoc, runLength, List.takeWhile_append_of_pos (mem_star_oneIn.1 ha),
      List.cons_append, List.takeWhile_cons_of_neg hc, List.append_nil]
  refine ⟨hrun, after, ?_⟩
  rw [hrun, List.append_assoc, List.drop_left, List.cons_append]

namespace Within

variable {q : Char → Prop}

theorem letter [DecidablePred q] {cs : List Char} (h : cs.all fun c => q c) :
    Within (letter cs) q := by
  rintro _ ⟨c, rfl, hc⟩ d hd
  rw [List.mem_singleton.1 hd]
  exact forall_letter h c (of_decide_eq_true hc)

theorem mul (hL : Within L q) (hM : Within M q) : Within (L * M) q := by
  rintro _ ⟨a, ha, b, hb, rfl⟩ c hc
  exact (List.mem_append.1 hc).elim (hL a ha c) (hM b hb c)

theorem add (hL : Within L q) (hM : Within M q) : Within (L + M) q := by
  rintro w (hw | hw)
  · exact hL w hw
  · exact hM w hw

theorem one : Within 1 q := by
  rintro _ rfl c hc
  exact absurd hc List.not_mem_nil

theorem maybe (h : Within L q) : Within (maybe L) q := one.add h

theorem star (h : ∀ c, p c → q c) : Within (Token.oneIn p)∗ q :=
  fun _ hw c hc => h c (mem_star_oneIn.1 hw c hc)

theorem several (h : ∀ c, p c → q c) : Within (several p) q :=
  fun _ hw c hc => h c ((mem_several.1 hw).2 c hc)

end Within

namespace Shuns

variable {q : Char → Prop}

theorem letter_mul [DecidablePred q] {cs : List Char} (h : cs.all fun c => ¬ q c)
    (L : Language Char) : Shuns (letter cs * L) q :=
  fun c _ hv => forall_letter h c (of_decide_eq_true (cons_mem_oneIn_mul.1 hv).1)

theorem letter [DecidablePred q] {cs : List Char} (h : cs.all fun c => ¬ q c) :
    Shuns (letter cs) q := by
  rintro c _ ⟨d, he, hd⟩
  cases he
  exact forall_letter h c (of_decide_eq_true hd)

theorem maybe (h : Shuns L q) : Shuns (maybe L) q := by
  rintro c v (hv | hv)
  · cases hv
  · exact h c v hv

theorem mul (hL : Shuns L q) (hM : Shuns M q) : Shuns (L * M) q := by
  rintro c v ⟨a, ha, b, hb, he⟩
  cases a with
  | nil => exact hM c v (he ▸ hb)
  | cons d a =>
    obtain ⟨rfl, -⟩ := List.cons.inj he
    exact hL _ _ ha

end Shuns

/-! ## Numbers -/

theorem exponentDigits_eq (lead : Nat) (text : List Char) : exponentDigits lead text =
    if runLength Char.isDigit text = 0 then 0 else lead + runLength Char.isDigit text := by
  unfold exponentDigits
  split <;> rename_i h
  · rw [if_pos h]
  · rw [if_neg (by omega), h, Nat.add_assoc]

theorem le_exponentDigits (lead : Nat) (hw : w ∈ several Char.isDigit) (h : w <+: text) :
    lead + w.length ≤ exponentDigits lead text := by
  obtain ⟨hne, hall⟩ := mem_several.1 hw
  have hpos := List.length_pos_iff.2 hne
  have hrun := (takes_run _).max (mem_star_oneIn.2 hall) h
  rw [exponentDigits_eq, if_neg (by omega)]
  exact Nat.add_le_add_left hrun lead

theorem mem_exponent {e : Char} {sign digits : List Char} (he : e ∈ ['e', 'E'])
    (hs : sign ∈ maybe (letter ['+', '-'])) (hd : digits ∈ several Char.isDigit) :
    e :: (sign ++ digits) ∈ Lexeme.exponent :=
  cons_mem_oneIn_mul.2 ⟨decide_eq_true he, Language.append_mem_mul hs hd⟩

theorem takes_exponent : Takes exponentLength (maybe Lexeme.exponent) where
  le := exponentLength_le
  mem text := by
    match text with
    | [] => exact nil_mem_maybe _
    | [e] =>
      simp only [exponentLength]
      split <;> exact nil_mem_maybe _
    | e :: sign :: digits =>
      simp only [exponentLength]
      split <;> rename_i he
      swap
      · exact nil_mem_maybe _
      split <;> rename_i hs <;> rw [exponentDigits_eq] <;> split
      · exact nil_mem_maybe _
      · rename_i hrun
        rw [Nat.add_comm, List.take_succ_cons, List.take_succ_cons]
        have hsign : [sign] ∈ maybe (letter ['+', '-']) :=
          mem_maybe_of_mem ⟨sign, rfl, decide_eq_true hs⟩
        exact mem_maybe_of_mem (mem_exponent he hsign (take_run_mem hrun))
      · exact nil_mem_maybe _
      · rename_i hrun
        rw [Nat.add_comm, List.take_succ_cons]
        exact mem_maybe_of_mem (mem_exponent he (nil_mem_maybe _) (take_run_mem hrun))
  max {text w} hw h := by
    rcases hw with rfl | hw
    · exact Nat.zero_le _
    obtain ⟨e, _, rfl, he, sign, hs, digits, hd, rfl⟩ := mem_oneIn_mul.1 hw
    obtain ⟨after, rfl⟩ := h
    have hpre := List.prefix_append digits after
    rcases hs with rfl | ⟨s, rfl, hs⟩
    · obtain ⟨d, digits, rfl, hdigit, -⟩ := mem_oneIn_mul.1 hd
      have hsign : d ∉ ['+', '-'] := fun hmem =>
        forall_letter (P := fun c => ¬ c.isDigit) (by decide) d hmem hdigit
      have hle := le_exponentDigits 1 hd hpre
      simp only [List.nil_append, List.cons_append, exponentLength, List.length_cons] at hle ⊢
      rw [if_pos (of_decide_eq_true he), if_neg hsign]
      omega
    · have hle := le_exponentDigits 2 hd hpre
      simp only [List.cons_append, List.nil_append, exponentLength, List.length_cons]
      rw [if_pos (of_decide_eq_true he), if_pos (of_decide_eq_true hs)]
      omega

/-- No tail of a float begins with a digit, a point or a letter of an integer. -/
theorem shuns_floatTail :
    Shuns Lexeme.floatTail fun c => c.isDigit ∨ c ∈ ['.', 'x', 'X', 'l', 'L'] :=
  .mul (.maybe (.letter_mul (by decide) _)) (.maybe (.letter (by decide)))

theorem takes_floatTail : Takes floatTailLength Lexeme.floatTail := by
  refine takes_exponent.seq (takes_letter ['f', 'F', 'd', 'D'])
    (q := fun c => c.isDigit ∨ c ∈ ['e', 'E', '+', '-']) ?_ (.maybe (.letter (by decide)))
  refine .maybe (.mul (.letter (by decide)) (.mul (.maybe (.letter (by decide))) (.several ?_)))
  exact fun c hc => .inl hc

/-- What stands behind the point of a float. -/
theorem takes_fraction : Takes (fun text => runLength Char.isDigit text +
    floatTailLength (text.drop (runLength Char.isDigit text)))
      ((oneIn Char.isDigit)∗ * Lexeme.floatTail) :=
  (takes_run Char.isDigit).seq takes_floatTail (.star fun _ hc => .inl hc) shuns_floatTail

/-! ### Floats -/

/-- Behind digits without a point there is an exponent or a suffix. -/
theorem mem_floatTail_and_ne_nil : w ∈ Lexeme.floatTail ∧ w ≠ [] ↔
    w ∈ Lexeme.exponent * maybe Lexeme.floatSuffix + Lexeme.floatSuffix := by
  constructor
  · rintro ⟨⟨e, rfl | he, s, hs, rfl⟩, hne⟩
    · exact .inr (hs.resolve_left hne)
    · exact .inl (Language.append_mem_mul he hs)
  · rintro (⟨e, he, s, hs, rfl⟩ | hs)
    · refine ⟨Language.append_mem_mul (mem_maybe_of_mem he) hs, ?_⟩
      obtain ⟨c, v, rfl, -⟩ := mem_oneIn_mul.1 he
      exact List.cons_ne_nil c (v ++ s)
    · refine ⟨Language.append_mem_mul (nil_mem_maybe _) (mem_maybe_of_mem hs), ?_⟩
      obtain ⟨c, rfl, -⟩ := hs
      exact List.cons_ne_nil c []

/-- A float has digits around a point and a tail, or digits and a tail. -/
theorem mem_float : w ∈ Lexeme.float ↔
    (∃ whole ∈ (oneIn Char.isDigit)∗, ∃ fraction ∈ (oneIn Char.isDigit)∗,
      ∃ tail ∈ Lexeme.floatTail, whole.length + fraction.length ≠ 0 ∧
        w = whole ++ '.' :: (fraction ++ tail)) ∨
    ∃ whole ∈ several Char.isDigit, ∃ tail ∈ Lexeme.floatTail, tail ≠ [] ∧ w = whole ++ tail := by
  rw [Lexeme.float, add_assoc, ← mul_add, Language.mem_add, Language.mem_add]
  refine or_congr ⟨?_, ?_⟩ ⟨?_, ?_⟩
  · rintro (⟨a, ha, v, hv, rfl⟩ | hw)
    · obtain ⟨_, ⟨b, hb, t, ht, rfl⟩, rfl⟩ := mem_char_mul.1 hv
      have hpos := List.length_pos_iff.2 (mem_several.1 ha).1
      exact ⟨a, star_of_several ha, b, hb, t, ht, by omega, rfl⟩
    · obtain ⟨_, ⟨b, hb, t, ht, rfl⟩, rfl⟩ := mem_char_mul.1 hw
      have hpos := List.length_pos_iff.2 (mem_several.1 hb).1
      exact ⟨[], Language.nil_mem_kstar _, b, star_of_several hb, t, ht, by omega, rfl⟩
  · rintro ⟨a, ha, b, hb, t, ht, hne, rfl⟩
    cases a with
    | nil =>
      have hb : b ∈ several Char.isDigit :=
        mem_several.2 ⟨by rintro rfl; exact hne rfl, mem_star_oneIn.1 hb⟩
      exact .inr (mem_char_mul.2 ⟨_, Language.append_mem_mul hb ht, rfl⟩)
    | cons d a =>
      have ha : d :: a ∈ several Char.isDigit :=
        mem_several.2 ⟨List.cons_ne_nil d a, mem_star_oneIn.1 ha⟩
      exact .inl (Language.append_mem_mul ha
        (mem_char_mul.2 ⟨_, Language.append_mem_mul hb ht, rfl⟩))
  · rintro ⟨a, ha, t, ht, rfl⟩
    obtain ⟨ht, hne⟩ := mem_floatTail_and_ne_nil.2 ht
    exact ⟨a, ha, t, ht, hne, rfl⟩
  · rintro ⟨a, ha, t, ht, hne, rfl⟩
    exact Language.append_mem_mul ha (mem_floatTail_and_ne_nil.1 ⟨ht, hne⟩)

theorem takes_float : Takes floatLength (maybe Lexeme.float) where
  le := floatLength_le
  mem text := by
    by_cases hp : ∃ rest, text.drop (runLength Char.isDigit text) = '.' :: rest
    · obtain ⟨rest, hrest⟩ := hp
      rw [floatLength_of_point hrest]
      split
      · exact nil_mem_maybe _
      rename_i hne
      rw [Nat.add_assoc, Nat.add_assoc, List.take_add, hrest, Nat.add_comm 1,
        List.take_succ_cons, List.take_add]
      refine mem_maybe_of_mem (mem_float.2 (.inl ⟨_, (takes_run _).mem text, _,
        (takes_run _).mem rest, _, takes_floatTail.mem _, ?_, rfl⟩))
      rwa [List.length_take_of_le (runLength_le _ _), List.length_take_of_le (runLength_le _ _)]
    · rw [floatLength_of_no_point fun rest hrest => hp ⟨rest, hrest⟩]
      split
      · exact nil_mem_maybe _
      rename_i hne
      obtain ⟨hwhole, htail⟩ := not_or.1 hne
      rw [List.take_add]
      refine mem_maybe_of_mem (mem_float.2 (.inr ⟨_, take_run_mem hwhole, _,
        takes_floatTail.mem _, fun hnil => htail ?_, rfl⟩))
      rw [← List.length_take_of_le (takes_floatTail.le _), hnil, List.length_nil]
  max {text w} hw h := by
    rcases hw with rfl | hw
    · exact Nat.zero_le _
    rcases mem_float.1 hw with ⟨a, ha, b, hb, t, ht, hne, rfl⟩ | ⟨a, ha, t, ht, hne, rfl⟩
    · obtain ⟨hrun, after, hdrop⟩ := drop_run ha (by decide) h
      have hfraction := takes_fraction.max (Language.append_mem_mul hb ht)
        (List.prefix_append _ after)
      have hdigits := (takes_run _).max hb ((List.prefix_append b t).trans
        (List.prefix_append _ after))
      rw [floatLength_of_point hdrop, hrun, if_neg (by omega), List.length_append, List.length_cons]
      omega
    · obtain ⟨d, t, rfl⟩ := List.exists_cons_of_ne_nil hne
      have hd := shuns_floatTail d t ht
      obtain ⟨hrun, after, hdrop⟩ :=
        drop_run (star_of_several ha) (fun hdigit => hd (.inl hdigit)) h
      have hpos := List.length_pos_iff.2 (mem_several.1 ha).1
      have htail := takes_floatTail.max ht (List.prefix_append _ after)
      rw [List.length_cons, List.cons_append] at htail
      rw [floatLength_of_no_point, hdrop, hrun, if_neg (by omega), List.length_append,
        List.length_cons]
      · omega
      · intro rest hrest
        obtain ⟨rfl, -⟩ := List.cons.inj (hdrop.symm.trans hrest)
        exact hd (.inr (by decide))

/-! ### Integers -/

theorem runLength_hex {x : Char} (hx : x ∈ ['x', 'X']) (rest : List Char) :
    runLength Char.isDigit ('0' :: x :: rest) = 1 := by
  have hdigit : ¬ x.isDigit := forall_letter (P := fun c => ¬ c.isDigit) (by decide) x hx
  exact (drop_run (mem_star_oneIn.2 (List.forall_mem_singleton.2 rfl)) hdigit
    (List.prefix_refl ('0' :: x :: rest))).1

theorem takes_integerDigits : Takes integerDigits (maybe Lexeme.integerBody) where
  le := integerDigits_le
  mem text := by
    rw [integerBody_eq]
    by_cases hhex : StartsHex text
    · obtain ⟨x, rest, rfl, hx, hr⟩ := hhex
      rw [integerDigits_of_hex hx hr, Nat.add_comm, List.take_succ_cons, List.take_succ_cons]
      refine mem_maybe_of_mem (.inl (mem_char_mul.2 ⟨_, ?_, rfl⟩))
      exact cons_mem_oneIn_mul.2 ⟨decide_eq_true hx, take_run_mem hr⟩
    · rw [integerDigits_of_not_hex hhex]
      by_cases hzero : runLength Char.isDigit text = 0
      · rw [hzero]
        exact nil_mem_maybe _
      · exact mem_maybe_of_mem (.inr (take_run_mem hzero))
  max {text w} hw h := by
    rw [integerBody_eq] at hw
    rcases hw with rfl | hw | hw
    · exact Nat.zero_le _
    · obtain ⟨_, hv, rfl⟩ := mem_char_mul.1 hw
      obtain ⟨x, digits, rfl, hx, hd⟩ := mem_oneIn_mul.1 hv
      obtain ⟨after, rfl⟩ := h
      have hrun := (takes_run _).max (star_of_several hd) (List.prefix_append digits after)
      have hpos := List.length_pos_iff.2 (mem_several.1 hd).1
      rw [List.cons_append, List.cons_append,
        integerDigits_of_hex (of_decide_eq_true hx) (by omega), List.length_cons, List.length_cons]
      omega
    · have hrun := (takes_run _).max (star_of_several hw) h
      by_cases hhex : StartsHex text
      · obtain ⟨x, rest, rfl, hx, hr⟩ := hhex
        rw [runLength_hex hx] at hrun
        rw [integerDigits_of_hex hx hr]
        omega
      · rwa [integerDigits_of_not_hex hhex]

theorem within_integerBody :
    Within Lexeme.integerBody fun c => isHexDigit c ∨ c ∈ ['x', 'X'] := by
  have hdigit : ∀ c, c.isDigit → isHexDigit c ∨ c ∈ ['x', 'X'] := fun c hc => by
    simp [isHexDigit, hc]
  rw [integerBody_eq]
  refine .add (.mul (.letter (by decide)) (.mul (.letter (by decide)) (.several ?_)))
    (.several hdigit)
  exact fun c hc => .inl hc

theorem nil_notMem_integerBody : [] ∉ Lexeme.integerBody := by
  rintro (hw | hw)
  · obtain ⟨v, -, hv⟩ := mem_char_mul.1 hw
    cases hv
  · exact (mem_several.1 hw).1 rfl

theorem takes_integer : Takes integerLength (maybe Lexeme.integer) where
  le := integerLength_le
  mem text := by
    rw [integerLength_eq]
    split
    · exact nil_mem_maybe _
    · rename_i hne
      rw [List.take_add]
      exact mem_maybe_of_mem (Language.append_mem_mul (takes_integerDigits.mem_of_ne_zero hne)
        ((takes_letter _).mem _))
  max {text w} hw h := by
    have hseq := takes_integerDigits.seq (takes_letter ['l', 'L']) within_integerBody.maybe
      (.maybe (.letter (by decide)))
    rcases hw with rfl | hw
    · exact Nat.zero_le _
    obtain ⟨a, ha, b, hb, rfl⟩ := hw
    have hbody := takes_integerDigits.max (mem_maybe_of_mem ha) ((List.prefix_append a b).trans h)
    have hpos := List.length_pos_iff.2 (ne_of_mem_of_not_mem ha nil_notMem_integerBody)
    rw [integerLength_eq, if_neg (by omega)]
    exact hseq.max (Language.append_mem_mul (mem_maybe_of_mem ha) hb) h

/-! ## Strings -/

theorem append_mem_star (hv : v ∈ L) (hw : w ∈ L∗) : v ++ w ∈ L∗ :=
  (mul_kstar_le_kstar : L * L∗ ≤ L∗) (Language.append_mem_mul hv hw)

theorem append_mem_star_mul (hv : v ∈ L) (hw : w ∈ L∗ * M) : v ++ w ∈ L∗ * M := by
  obtain ⟨a, ha, b, hb, rfl⟩ := hw
  rw [← List.append_assoc]
  exact Language.append_mem_mul (append_mem_star hv ha) hb

theorem escape_mem_stringPart (d : Char) : ['\\', d] ∈ Lexeme.stringPart :=
  .inl (mem_char_mul.2 ⟨[d], ⟨d, rfl, rfl⟩, rfl⟩)

theorem char_mem_stringPart (hq : c ≠ '"') (hc : c ≠ '\\') (hl : ¬ isLineEnd c) :
    [c] ∈ Lexeme.stringPart := by
  have hother : c ∉ ['\r', '\n'] := fun hmem => hl (decide_eq_true hmem)
  exact .inr ⟨c, rfl, decide_eq_true (by simpa [hq, hc] using hother)⟩

theorem quote_mem : ['"'] ∈ Lexeme.stringPart∗ * letter ['"'] :=
  Language.append_mem_mul (Language.nil_mem_kstar _) ⟨'"', rfl, rfl⟩

/-- What is taken as the rest of a string is one. -/
theorem mem_of_stringRest {n : Nat} (h : stringRest text = (n, true)) :
    text.take n ∈ Lexeme.stringPart∗ * letter ['"'] := by
  induction text using stringRest.induct generalizing n with
  | case1 => cases h
  | case2 d rest ih =>
    obtain ⟨m, hm, rfl⟩ := eq_of_map_add h
    exact append_mem_star_mul (escape_mem_stringPart d) (ih hm)
  | case3 rest hesc =>
    rw [stringRest_cons (by decide), if_pos rfl] at h
    cases h
    exact quote_mem
  | case4 c rest hesc hq hl =>
    have hc : c ≠ '\\' := by
      rintro rfl
      exact absurd hl (by decide)
    rw [stringRest_cons hc, if_neg hq, if_pos hl] at h
    cases h
  | case5 c rest hesc hq hl ih =>
    have hc : c ≠ '\\' := by
      rintro rfl
      cases rest with
      | nil => cases h
      | cons d rest => exact hesc d rest rfl rfl
    rw [stringRest_cons hc, if_neg hq, if_neg hl] at h
    obtain ⟨m, hm, rfl⟩ := eq_of_map_add h
    exact append_mem_star_mul (char_mem_stringPart hq hc hl) (ih hm)

/-- What a string literal holds is passed over. -/
theorem stringRest_append (h : w ∈ Lexeme.stringPart∗) (after : List Char) :
    stringRest (w ++ after) = (stringRest after).map (· + w.length) id := by
  obtain ⟨parts, rfl, hparts⟩ := Language.mem_kstar.1 h
  clear h
  induction parts with
  | nil => rfl
  | cons part parts ih =>
    obtain ⟨hpart, hrest⟩ := List.forall_mem_cons.1 hparts
    have ih := ih hrest
    rcases hpart with hpart | ⟨c, rfl, hc⟩
    · obtain ⟨_, ⟨d, rfl, -⟩, rfl⟩ := mem_char_mul.1 hpart
      change (stringRest (parts.flatten ++ after)).map (· + 2) id = _
      rw [ih]
      rfl
    · have hother := of_decide_eq_true hc
      simp only [List.mem_cons, not_or] at hother
      change stringRest (c :: (parts.flatten ++ after)) = _
      rw [stringRest_cons hother.2.1, if_neg hother.1, if_neg, ih]
      · rfl
      · simpa [isLineEnd] using hother.2.2

/-- The rest of a string ends with the first quote behind no backslash. -/
theorem stringRest_of_mem (h : w ∈ Lexeme.stringPart∗ * letter ['"']) (after : List Char) :
    stringRest (w ++ after) = (w.length, true) := by
  obtain ⟨body, hbody, _, ⟨q, rfl, hq⟩, rfl⟩ := h
  obtain rfl : q = '"' := List.mem_singleton.1 (of_decide_eq_true hq)
  show stringRest (body ++ ['"'] ++ after) = ((body ++ ['"']).length, true)
  rw [List.append_assoc, stringRest_append hbody, List.length_append, Nat.add_comm]
  rfl

/-- A string that its line leaves open. -/
theorem stringRest_open (h : w ∈ Lexeme.stringPart∗) {after : List Char} (ha : EndsLine after) :
    stringRest (w ++ after) = (w.length, false) := by
  have hzero : stringRest after = (0, false) := by
    cases after with
    | nil => rfl
    | cons d rest =>
      have hline := endsLine_cons.1 ha
      have hd : d ∈ ['\r', '\n'] := of_decide_eq_true hline
      have hother := forall_letter (P := fun c => c ≠ '\\' ∧ c ≠ '"') (by decide) d hd
      rw [stringRest_cons hother.1, if_neg hother.2, if_pos hline]
  rw [stringRest_append h, hzero]
  exact Prod.ext (Nat.zero_add _) rfl

/-- What is taken of an open string, in front of something, is open to the end of its line. -/
theorem open_of_stringRest {after : List Char} (h : stringRest (w ++ after) = (w.length, false))
    (hne : after ≠ []) : w ∈ Lexeme.stringPart∗ ∧ EndsLine after := by
  generalize htext : w ++ after = text at h
  induction text using stringRest.induct generalizing w with
  | case1 => exact absurd (List.append_eq_nil_iff.1 htext).2 hne
  | case2 d rest ih =>
    obtain ⟨m, hm, hlength⟩ := eq_of_map_add h
    match w with
    | [] | [_] => simp at hlength
    | x :: y :: v =>
      simp only [List.cons_append, List.cons.injEq, List.length_cons] at htext hlength
      obtain ⟨rfl, rfl, rfl⟩ := htext
      obtain ⟨hv, hend⟩ := ih rfl (by rw [hm]; congr 1; omega)
      exact ⟨append_mem_star (escape_mem_stringPart _) hv, hend⟩
  | case3 rest hesc =>
    rw [stringRest_cons (by decide), if_pos rfl] at h
    exact absurd (congrArg Prod.snd h) Bool.false_ne_true.symm
  | case4 c rest hesc hq hl =>
    have hc : c ≠ '\\' := by
      rintro rfl
      exact absurd hl (by decide)
    rw [stringRest_cons hc, if_neg hq, if_pos hl] at h
    obtain rfl := List.length_eq_zero_iff.1 (congrArg Prod.fst h).symm
    rw [List.nil_append] at htext
    subst htext
    exact ⟨Language.nil_mem_kstar _, endsLine_cons.2 hl⟩
  | case5 c rest hesc hq hl ih =>
    by_cases hc : c = '\\'
    · -- a backslash is taken alone only where the text ends
      subst hc
      cases rest with
      | cons d rest => exact absurd rfl (hesc d rest rfl)
      | nil =>
        have hone : 1 = w.length := congrArg Prod.fst h
        have hlength := congrArg List.length htext
        have hpos := List.length_pos_iff.2 hne
        rw [List.length_append, List.length_singleton] at hlength
        omega
    rw [stringRest_cons hc, if_neg hq, if_neg hl] at h
    obtain ⟨m, hm, hlength⟩ := eq_of_map_add h
    match w with
    | [] => simp at hlength
    | x :: v =>
      simp only [List.cons_append, List.cons.injEq, List.length_cons] at htext hlength
      obtain ⟨rfl, rfl⟩ := htext
      obtain ⟨hv, hend⟩ := ih rfl (by rw [hm]; congr 1; omega)
      exact ⟨append_mem_star (char_mem_stringPart hq hc hl) hv, hend⟩

end Botscript.Token
