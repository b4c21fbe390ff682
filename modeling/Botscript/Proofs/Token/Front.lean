import Mathlib.Data.Bool.AllAny
import Mathlib.Data.List.TakeWhile
import Botscript.Proofs.Token.Ended

/-!
# What comes behind a lexeme

A lexeme is the same whatever comes behind it, as long as that begins with a blank or a bracket, a
semicolon or a comma (`Delimited`): no lexeme goes on with one of these. So a text may be cut behind
a lexeme, and what follows may be exchanged (`Shape.front_cut`).
-/

namespace Botscript.Token

/-- The characters that end every lexeme before them, apart from strings and comments. -/
def delimiters : List Char := [' ', '\n', '(', ')', '[', ']', '\x7b', '\x7d', ';', ',']

-- The list is run through by `all`: a bounded quantifier over characters would be decided by
-- running through all characters.
theorem forall_delimiter {p : Char → Prop} [DecidablePred p] (h : delimiters.all fun d => p d) :
    ∀ d ∈ delimiters, p d :=
  List.all_iff_forall_prop.1 h

/-- A text that ends every lexeme before it. -/
def Delimited (after : List Char) : Prop := ∀ d ∈ after.head?, d ∈ delimiters

theorem delimited_nil : Delimited [] := fun _ hd => by cases hd

theorem delimited_cons {d : Char} {after : List Char} :
    Delimited (d :: after) ↔ d ∈ delimiters := by
  simp [Delimited]

/-- A text that ends the line before it. -/
def EndsLine (after : List Char) : Prop := ∀ d ∈ after.head?, isLineEnd d

theorem endsLine_nil : EndsLine [] := fun _ hd => by cases hd

theorem endsLine_cons {d : Char} {after : List Char} : EndsLine (d :: after) ↔ isLineEnd d := by
  simp [EndsLine]

/-- A measure that does not look behind a delimiter: if it takes no more than the front of a text,
it takes the same of the front before any delimited text. -/
def Stable (f : List Char → Nat) : Prop :=
  ∀ front back after, Delimited after → f (front ++ back) ≤ front.length →
    f (front ++ after) = f (front ++ back)

variable {front back after : List Char}

/-! ## Runs of characters -/

theorem take_runLength (p : Char → Bool) (text : List Char) :
    text.take (runLength p text) = text.takeWhile p :=
  (List.prefix_iff_eq_take.1 (List.takeWhile_prefix p)).symm

theorem drop_runLength (p : Char → Bool) (text : List Char) :
    text.drop (runLength p text) = text.dropWhile p := by
  calc text.drop (text.takeWhile p).length
      = (text.takeWhile p ++ text.dropWhile p).drop (text.takeWhile p).length := by
        rw [List.takeWhile_append_dropWhile]
    _ = text.dropWhile p := List.drop_left ..

theorem runLength_append_of_le {p : Char → Bool} (h : runLength p (front ++ back) < front.length) :
    runLength p (front ++ after) = runLength p (front ++ back) := by
  induction front with
  | nil => exact absurd h (Nat.not_lt_zero _)
  | cons c rest ih =>
    unfold runLength at ih h ⊢
    simp only [List.cons_append, List.takeWhile_cons] at h ⊢
    split at h <;> rename_i hc
    · rw [if_pos hc, if_pos hc, List.length_cons, List.length_cons, ih]
      simpa using h
    · rw [if_neg hc, if_neg hc]

theorem runLength_eq_zero {p : Char → Bool} (hp : ∀ d ∈ delimiters, p d = false)
    (h : Delimited after) : runLength p after = 0 := by
  cases after with
  | nil => rfl
  | cons d rest =>
    unfold runLength
    rw [List.takeWhile_cons_of_neg (by simp [hp d (delimited_cons.1 h)]), List.length_nil]

/-- A run that takes all of a front ends there, before a text that it does not go on with. -/
theorem runLength_append_of_ge {p : Char → Bool} (ha : runLength p after = 0)
    (h : front.length ≤ runLength p (front ++ back)) :
    runLength p (front ++ after) = front.length := by
  induction front with
  | nil => exact ha
  | cons c rest ih =>
    unfold runLength at ih h ⊢
    simp only [List.cons_append, List.takeWhile_cons] at h ⊢
    split at h <;> rename_i hc
    · rw [if_pos hc, List.length_cons, ih (by simpa using h), List.length_cons]
    · simp at h

theorem stable_runLength {p : Char → Bool} (hp : ∀ d ∈ delimiters, p d = false) :
    Stable (runLength p) := by
  intro front back after ha h
  obtain h | h := Nat.lt_or_eq_of_le h
  · exact runLength_append_of_le h
  · rw [runLength_append_of_ge (runLength_eq_zero hp ha) h.ge, h]

theorem runLength_line (h : EndsLine after) : runLength (! isLineEnd ·) after = 0 := by
  cases after with
  | nil => rfl
  | cons d rest =>
    unfold runLength
    rw [List.takeWhile_cons_of_neg (by simp [endsLine_cons.1 h]), List.length_nil]

theorem takeWhile_append {p : Char → Bool} (hp : ∀ d ∈ delimiters, p d = false)
    (ha : Delimited after) (h : runLength p (front ++ back) ≤ front.length) :
    (front ++ after).takeWhile p = (front ++ back).takeWhile p := by
  rw [← take_runLength, ← take_runLength, stable_runLength hp front back after ha h,
    List.take_append_of_le_length h, List.take_append_of_le_length h]

theorem stable_letterLength {letters : List Char} (hl : ∀ d ∈ delimiters, d ∉ letters) :
    Stable (letterLength letters) := by
  intro front back after ha h
  cases front with
  | cons c rest => rfl
  | nil =>
    rw [Nat.le_zero.1 h]
    cases after with
    | nil => rfl
    | cons d rest => exact if_neg (hl d (delimited_cons.1 ha))

/-- One measure, and another behind it. -/
theorem Stable.seq {f g : List Char → Nat} (hf : Stable f) (hg : Stable g) :
    Stable fun text => f text + g (text.drop (f text)) := by
  intro front back after ha h
  have hle : f (front ++ back) ≤ front.length := (Nat.le_add_right _ _).trans h
  simp only [hf front back after ha hle, List.drop_append_of_le_length hle] at h ⊢
  rw [hg _ back after ha]
  rw [List.length_drop]
  omega

/-! ## Numbers -/

theorem isDigit_delimiter : ∀ d ∈ delimiters, d.isDigit = false := forall_delimiter (by decide)

theorem exponentDigits_cut {lead : Nat} (ha : Delimited after)
    (h : exponentDigits lead (front ++ back) ≤ front.length + lead) :
    exponentDigits lead (front ++ after) = exponentDigits lead (front ++ back) := by
  have hrun : runLength Char.isDigit (front ++ back) ≤ front.length := by
    unfold exponentDigits at h
    split at h <;> omega
  unfold exponentDigits
  rw [stable_runLength isDigit_delimiter front back after ha hrun]

theorem exponentDigits_eq_zero_or_lt (lead : Nat) (text : List Char) :
    exponentDigits lead text = 0 ∨ lead < exponentDigits lead text := by
  unfold exponentDigits
  split <;> omega

theorem exponentLength_eq_zero (ha : Delimited after) : exponentLength after = 0 := by
  cases after with
  | nil => rfl
  | cons d rest =>
    have hd : d ∉ ['e', 'E'] :=
      forall_delimiter (p := (· ∉ ['e', 'E'])) (by decide) d (delimited_cons.1 ha)
    exact if_neg hd

/-- An exponent is two characters long at least. -/
theorem exponentLength_cons (e : Char) (rest : List Char) :
    exponentLength (e :: rest) = 0 ∨ 1 < exponentLength (e :: rest) := by
  simp only [exponentLength]
  split
  · split
    · exact .inl rfl
    · split
      · have := exponentDigits_eq_zero_or_lt 2 ‹_›
        omega
      · exact exponentDigits_eq_zero_or_lt 1 _
  · exact .inl rfl

theorem exponentLength_cons_delimited (e : Char) (ha : Delimited after) :
    exponentLength (e :: after) = 0 := by
  simp only [exponentLength]
  split
  · cases after with
    | nil => rfl
    | cons d rest =>
      have hd : d ∉ ['+', '-'] :=
        forall_delimiter (p := (· ∉ ['+', '-'])) (by decide) d (delimited_cons.1 ha)
      have hrun : runLength Char.isDigit (d :: rest) = 0 := runLength_eq_zero isDigit_delimiter ha
      simp only [if_neg hd, exponentDigits, hrun]
  · rfl

theorem stable_exponentLength : Stable exponentLength := by
  intro front back after ha h
  match front with
  | [] =>
    have hzero : exponentLength back = 0 := Nat.le_zero.1 h
    exact (exponentLength_eq_zero ha).trans hzero.symm
  | [e] =>
    have hzero := (exponentLength_cons e back).resolve_right (Nat.not_lt.2 h)
    exact (exponentLength_cons_delimited e ha).trans hzero.symm
  | e :: sign :: digits =>
    simp only [List.cons_append, exponentLength, List.length_cons] at h ⊢
    split at h <;> rename_i he
    · rw [if_pos he, if_pos he]
      split at h <;> rename_i hs
      · rw [if_pos hs, if_pos hs, exponentDigits_cut ha (by omega)]
      · rw [if_neg hs, if_neg hs, ← List.cons_append, ← List.cons_append,
          exponentDigits_cut ha (by rw [List.length_cons]; exact h)]
    · rw [if_neg he, if_neg he]

theorem stable_floatTailLength : Stable floatTailLength :=
  stable_exponentLength.seq (stable_letterLength (forall_delimiter (by decide)))

theorem floatTailLength_eq_zero (ha : Delimited after) : floatTailLength after = 0 := by
  have h := stable_floatTailLength [] [] after ha (by decide)
  exact h.trans (by decide)

/-! ### Floats -/

theorem floatLength_of_point {text rest : List Char}
    (h : text.drop (runLength Char.isDigit text) = '.' :: rest) :
    floatLength text =
      if runLength Char.isDigit text + runLength Char.isDigit rest = 0 then 0
      else runLength Char.isDigit text + 1 + runLength Char.isDigit rest +
        floatTailLength (rest.drop (runLength Char.isDigit rest)) := by
  unfold floatLength
  simp only [h]

theorem floatLength_of_no_point {text : List Char}
    (h : ∀ rest, text.drop (runLength Char.isDigit text) ≠ '.' :: rest) :
    floatLength text =
      if runLength Char.isDigit text = 0 ∨
          floatTailLength (text.drop (runLength Char.isDigit text)) = 0 then 0
      else runLength Char.isDigit text +
        floatTailLength (text.drop (runLength Char.isDigit text)) := by
  unfold floatLength
  dsimp only
  split
  · rename_i rest hrest
    exact absurd hrest (h rest)
  · rfl

/-- A point and digits behind the digits of a float, and its tail. -/
theorem stable_pointLength : Stable fun rest => runLength Char.isDigit rest +
    floatTailLength (rest.drop (runLength Char.isDigit rest)) :=
  (stable_runLength isDigit_delimiter).seq stable_floatTailLength

/-- Digits alone are no float. -/
theorem floatLength_eq_zero_of_le {text : List Char}
    (h : floatLength text ≤ runLength Char.isDigit text) : floatLength text = 0 := by
  by_cases hp : ∃ rest, text.drop (runLength Char.isDigit text) = '.' :: rest
  · obtain ⟨rest, hrest⟩ := hp
    rw [floatLength_of_point hrest] at h ⊢
    split at h <;> rename_i hzero
    · rw [if_pos hzero]
    · omega
  · rw [floatLength_of_no_point fun rest hrest => hp ⟨rest, hrest⟩] at h ⊢
    split at h <;> rename_i hzero
    · rw [if_pos hzero]
    · omega

theorem floatLength_digits (ha : Delimited after)
    (h : runLength Char.isDigit (front ++ after) = front.length) :
    floatLength (front ++ after) = 0 := by
  have hdrop : (front ++ after).drop (runLength Char.isDigit (front ++ after)) = after := by
    rw [h, List.drop_left]
  rw [floatLength_of_no_point, if_pos]
  · right
    rw [hdrop, floatTailLength_eq_zero ha]
  · intro rest hrest
    rw [hdrop] at hrest
    subst hrest
    exact absurd (delimited_cons.1 ha) (by decide)

theorem stable_floatLength : Stable floatLength := by
  intro front back after ha h
  obtain hlt | hge := Nat.lt_or_ge (runLength Char.isDigit (front ++ back)) front.length
  · have hrun := stable_runLength isDigit_delimiter front back after ha hlt.le
    obtain ⟨x, v, hv⟩ : ∃ x v, front.drop (runLength Char.isDigit (front ++ back)) = x :: v :=
      List.exists_cons_of_ne_nil (by simpa using hlt)
    have hlen : front.length = runLength Char.isDigit (front ++ back) + (v.length + 1) := by
      have := congrArg List.length hv
      rw [List.length_drop, List.length_cons] at this
      omega
    have hold : (front ++ back).drop (runLength Char.isDigit (front ++ back)) =
        x :: (v ++ back) := by
      rw [List.drop_append_of_le_length hlt.le, hv, List.cons_append]
    have hnew : (front ++ after).drop (runLength Char.isDigit (front ++ after)) =
        x :: (v ++ after) := by
      rw [hrun, List.drop_append_of_le_length hlt.le, hv, List.cons_append]
    by_cases hx : x = '.'
    · subst hx
      rw [floatLength_of_point hold] at h ⊢
      rw [floatLength_of_point hnew, hrun]
      by_cases hzero : runLength Char.isDigit (front ++ back) +
          runLength Char.isDigit (v ++ back) = 0
      · have hfraction := stable_runLength isDigit_delimiter v back after ha (by omega)
        rw [hfraction, if_pos hzero, if_pos hzero]
      · rw [if_neg hzero] at h ⊢
        have hfraction := stable_runLength isDigit_delimiter v back after ha (by omega)
        have hpoint := stable_pointLength v back after ha (by dsimp only; omega)
        dsimp only at hpoint
        rw [hfraction] at hpoint ⊢
        rw [if_neg hzero]
        omega
    · have hold' : ∀ rest, (front ++ back).drop (runLength Char.isDigit (front ++ back)) ≠
          '.' :: rest := fun rest he => hx (List.cons.inj (hold.symm.trans he)).1
      have hnew' : ∀ rest, (front ++ after).drop (runLength Char.isDigit (front ++ after)) ≠
          '.' :: rest := fun rest he => hx (List.cons.inj (hnew.symm.trans he)).1
      rw [floatLength_of_no_point hold', hold] at h ⊢
      rw [floatLength_of_no_point hnew', hnew, hrun]
      by_cases hzero : runLength Char.isDigit (front ++ back) = 0
      · rw [if_pos (.inl hzero), if_pos (.inl hzero)]
      · have htail := stable_floatTailLength (x :: v) back after ha
        rw [List.cons_append, List.cons_append, List.length_cons] at htail
        rw [htail]
        split at h <;> omega
  · have hzero := runLength_eq_zero isDigit_delimiter ha
    rw [floatLength_digits ha (runLength_append_of_ge hzero hge)]
    exact (floatLength_eq_zero_of_le (h.trans hge)).symm

/-! ### Integers -/

/-- A text starts with a hexadecimal integer. -/
def StartsHex (text : List Char) : Prop :=
  ∃ x rest, text = '0' :: x :: rest ∧ x ∈ ['x', 'X'] ∧ runLength isHexDigit rest ≠ 0

theorem integerDigits_of_hex {x : Char} {rest : List Char} (hx : x ∈ ['x', 'X'])
    (hr : runLength isHexDigit rest ≠ 0) :
    integerDigits ('0' :: x :: rest) = 2 + runLength isHexDigit rest :=
  if_pos ⟨hx, hr⟩

theorem integerDigits_of_not_hex {text : List Char} (h : ¬StartsHex text) :
    integerDigits text = runLength Char.isDigit text := by
  unfold integerDigits
  dsimp only
  split
  · rename_i x rest
    exact if_neg fun hx => h ⟨x, rest, rfl, hx⟩
  · rfl

theorem isHexDigit_delimiter : ∀ d ∈ delimiters, isHexDigit d = false :=
  forall_delimiter (by decide)

theorem not_startsHex (ha : Delimited after) (h : ¬StartsHex (front ++ back)) :
    ¬StartsHex (front ++ after) := by
  rintro ⟨x, rest, he, hx, hr⟩
  match front with
  | [] =>
    rw [List.nil_append] at he
    subst he
    exact absurd (delimited_cons.1 ha) (by decide)
  | [c] =>
    obtain ⟨-, rfl⟩ := List.cons.inj he
    have hd := delimited_cons.1 ha
    exact forall_delimiter (p := (· ∉ ['x', 'X'])) (by decide) x hd hx
  | c :: d :: f =>
    simp only [List.cons_append, List.cons.injEq] at he
    obtain ⟨rfl, rfl, rfl⟩ := he
    have hzero : runLength isHexDigit (f ++ back) = 0 := by
      by_contra hne
      exact h ⟨d, _, rfl, hx, hne⟩
    rw [stable_runLength isHexDigit_delimiter f back after ha (by omega)] at hr
    exact hr hzero

theorem stable_integerDigits : Stable integerDigits := by
  intro front back after ha h
  by_cases hhex : StartsHex (front ++ back)
  · obtain ⟨x, rest, he, hx, hr⟩ := hhex
    rw [he, integerDigits_of_hex hx hr] at h ⊢
    match front with
    | [] | [_] =>
      simp only [List.length_nil, List.length_singleton] at h
      omega
    | c :: d :: f =>
      simp only [List.cons_append, List.cons.injEq] at he
      obtain ⟨rfl, rfl, rfl⟩ := he
      simp only [List.length_cons] at h
      have hrun := stable_runLength isHexDigit_delimiter f back after ha (by omega)
      rw [List.cons_append, List.cons_append, integerDigits_of_hex hx (by rwa [hrun]), hrun]
  · rw [integerDigits_of_not_hex hhex] at h ⊢
    rw [integerDigits_of_not_hex (not_startsHex ha hhex)]
    exact stable_runLength isDigit_delimiter front back after ha h

theorem integerLength_eq (text : List Char) : integerLength text =
    if integerDigits text = 0 then 0
    else integerDigits text + integerSuffixLength (text.drop (integerDigits text)) := by
  unfold integerLength
  split
  · rename_i h
    rw [if_pos h]
  · rename_i h
    rw [if_neg h]

theorem stable_integerLength : Stable integerLength := by
  intro front back after ha h
  have hsuffix : Stable integerSuffixLength := stable_letterLength (forall_delimiter (by decide))
  have hseq := stable_integerDigits.seq hsuffix front back after ha
  rw [integerLength_eq] at h ⊢
  rw [integerLength_eq]
  by_cases hzero : integerDigits (front ++ back) = 0
  · rw [stable_integerDigits front back after ha (by omega), if_pos hzero, if_pos hzero]
  · rw [if_neg hzero] at h ⊢
    have hdigits := stable_integerDigits front back after ha (by omega)
    rw [if_neg (by rwa [hdigits])]
    exact hseq h

/-! ## Strings and comments -/

theorem stringRest_cons {c : Char} (hc : c ≠ '\\') (rest : List Char) :
    stringRest (c :: rest) = if c = '"' then (1, true) else if isLineEnd c then (0, false)
      else (stringRest rest).map (· + 1) id := by
  rw [stringRest]
  exact fun _ _ he => absurd he hc

theorem eq_of_map_add {r : Nat × Bool} {k more : Nat} {closed : Bool}
    (h : r.map (· + k) id = (more, closed)) : ∃ m, r = (m, closed) ∧ more = m + k := by
  obtain ⟨m, _⟩ := r
  obtain ⟨rfl, rfl⟩ := Prod.mk.inj h
  exact ⟨m, rfl, rfl⟩

theorem stringRest_pos {text : List Char} {more : Nat} (h : stringRest text = (more, true)) :
    0 < more := by
  unfold stringRest at h
  split at h
  · cases h
  · obtain ⟨m, -, rfl⟩ := eq_of_map_add h
    omega
  · split at h
    · cases h
      exact Nat.one_pos
    · split at h
      · cases h
      · obtain ⟨m, -, rfl⟩ := eq_of_map_add h
        omega

/-- A string ends with its quote, whatever comes behind. -/
theorem stringRest_cut {more : Nat} (h : stringRest (front ++ back) = (more, true))
    (hle : more ≤ front.length) : stringRest (front ++ after) = (more, true) := by
  induction hn : front.length using Nat.strongRecOn generalizing front more with
  | _ n ih =>
    have hpos := stringRest_pos h
    match front with
    | [] =>
      rw [List.length_nil] at hle
      omega
    | c :: f =>
      rw [List.length_cons] at hle hn
      by_cases hc : c = '\\'
      · subst hc
        match f with
        | [] =>
          cases back with
          | nil => exact absurd (congrArg Prod.snd h) Bool.false_ne_true
          | cons d rest =>
            obtain ⟨m, hm, rfl⟩ := eq_of_map_add h
            have := stringRest_pos hm
            rw [List.length_nil] at hle
            omega
        | d :: f =>
          obtain ⟨m, hm, rfl⟩ := eq_of_map_add h
          rw [List.length_cons] at hle hn
          change (stringRest (f ++ after)).map (· + 2) id = _
          rw [ih f.length (by omega) hm (by omega) rfl]
          rfl
      · rw [List.cons_append, stringRest_cons hc] at h ⊢
        split at h <;> rename_i hq
        · rwa [if_pos hq]
        split at h <;> rename_i hl
        · rwa [if_neg hq, if_pos hl]
        · obtain ⟨m, hm, rfl⟩ := eq_of_map_add h
          rw [if_neg hq, if_neg hl, ih f.length (by omega) hm (by omega) rfl]
          rfl

theorem blockCommentRest?_two_le {text : List Char} {n : Nat}
    (h : blockCommentRest? text = some n) :
    2 ≤ n := by
  induction text generalizing n with
  | nil => cases h
  | cons c rest ih =>
    unfold blockCommentRest? at h
    split at h
    · cases h
      exact le_rfl
    · obtain ⟨m, hm, rfl⟩ := Option.map_eq_some_iff.1 h
      exact (ih hm).trans (Nat.le_succ m)

/-- A block comment ends with its mark, whatever comes behind. -/
theorem blockCommentRest?_cut {n : Nat} (h : blockCommentRest? (front ++ back) = some n)
    (hle : n ≤ front.length) : blockCommentRest? (front ++ after) = some n := by
  induction front generalizing n with
  | nil =>
    have := blockCommentRest?_two_le h
    simp only [List.length_nil] at hle
    omega
  | cons c f ih =>
    have hne : f ≠ [] := by
      rintro rfl
      have := blockCommentRest?_two_le h
      simp only [List.length_singleton] at hle
      omega
    have hhead : ∀ l : List Char, (f ++ l).head? = f.head? := fun l => by
      obtain ⟨d, g, rfl⟩ := List.exists_cons_of_ne_nil hne
      rfl
    rw [List.cons_append, blockCommentRest?, hhead] at h ⊢
    split at h <;> rename_i hc
    · rwa [if_pos hc]
    · obtain ⟨m, hm, rfl⟩ := Option.map_eq_some_iff.1 h
      rw [if_neg hc, ih hm (by simpa using hle)]
      rfl

theorem comment?_pos {c : Char} {rest : List Char} {shape : Shape} {more : Nat}
    (h : Shape.comment? c rest = some (shape, more)) : 0 < more := by
  cases rest with
  | nil => cases h
  | cons d rest =>
    simp only [Shape.comment?] at h
    split at h
    · cases h
      omega
    split at h
    · split at h <;> cases h <;> omega
    · cases h

theorem comment?_cut {c : Char} {shape : Shape} {more : Nat}
    (h : Shape.comment? c (front ++ back) = some (shape, more)) (hs : shape ≠ .openComment)
    (hle : more ≤ front.length) (hend : more = front.length → EndsLine after) :
    Shape.comment? c (front ++ after) = some (shape, more) := by
  match front with
  | [] => exact absurd (comment?_pos h) (Nat.not_lt.2 hle)
  | d :: f =>
    simp only [List.cons_append, Shape.comment?, List.length_cons] at h hle hend ⊢
    split at h <;> rename_i hline
    · cases h
      have hrun : runLength (! isLineEnd ·) (f ++ after) =
          runLength (! isLineEnd ·) (f ++ back) := by
        obtain hlt | hge := Nat.lt_or_ge (runLength (! isLineEnd ·) (f ++ back)) f.length
        · exact runLength_append_of_le hlt
        · rw [runLength_append_of_ge (runLength_line (hend (by omega))) hge]
          omega
      rw [if_pos hline, hrun]
    rw [if_neg hline]
    split at h <;> rename_i hblock
    · rw [if_pos hblock]
      split at h
      · rename_i n hn
        cases h
        rw [blockCommentRest?_cut hn (by omega)]
      · cases h
        exact absurd rfl hs
    · cases h

theorem comment?_eq_none {c : Char} (ha : Delimited after)
    (h : Shape.comment? c (front ++ back) = none) : Shape.comment? c (front ++ after) = none := by
  match front with
  | [] =>
    cases after with
    | nil => rfl
    | cons d rest =>
      have hd : d ≠ '/' ∧ d ≠ '*' :=
        forall_delimiter (p := fun d => d ≠ '/' ∧ d ≠ '*') (by decide) d (delimited_cons.1 ha)
      simp [Shape.comment?, hd]
  | d :: f =>
    simp only [List.cons_append, Shape.comment?] at h ⊢
    split at h <;> rename_i hline
    · cases h
    rw [if_neg hline]
    split at h <;> rename_i hblock
    · split at h <;> cases h
    · rw [if_neg hblock]

/-! ## Operators -/

theorem operators_avoid_delimiters {k : Kind} (hk : k ∈ Kind.operators) :
    ∀ d ∈ delimiters, d ∉ k.spelling.toList.tail :=
  have hall : ∀ k ∈ Kind.operators, delimiters.all fun d => d ∉ k.spelling.toList.tail := by decide
  forall_delimiter (hall k hk)

/-- An operator with more than the front of a text does not go on with a delimiter. -/
theorem length_le_of_begins {k : Kind} (hk : k ∈ Kind.operators) (hf : front ≠ [])
    (ha : Delimited after) (h : k.spelling.toList <+: front ++ after) :
    k.spelling.toList.length ≤ front.length := by
  by_contra hlt
  obtain ⟨t, ht⟩ := List.prefix_of_prefix_length_le (List.prefix_append front after) h (by omega)
  obtain ⟨c, f, rfl⟩ := List.exists_cons_of_ne_nil hf
  cases t with
  | nil =>
    rw [← ht, List.append_nil] at hlt
    exact hlt le_rfl
  | cons d t =>
    rw [← ht, List.prefix_append_right_inj] at h
    obtain ⟨rest, rfl⟩ := h
    refine operators_avoid_delimiters hk d (delimited_cons.1 ha) ?_
    rw [← ht]
    simp

theorem operator?_cut {k : Kind} (hf : front ≠ []) (ha : Delimited after)
    (h : operator? (front ++ back) = some k) (hle : k.spelling.toList.length ≤ front.length) :
    operator? (front ++ after) = some k := by
  obtain ⟨hk, before, behind, hsplit, hbefore⟩ := List.find?_eq_some_iff_append.1 h
  have hmem : ∀ l ∈ before, l ∈ Kind.operators := fun l hl => hsplit ▸ List.mem_append_left _ hl
  have hkeep : ∀ {l : Kind} {back after : List Char}, l.spelling.toList.length ≤ front.length →
      l.spelling.toList <+: front ++ back → l.spelling.toList <+: front ++ after :=
    fun hle hl => (List.prefix_of_prefix_length_le hl (List.prefix_append _ _) hle).trans
      (List.prefix_append _ _)
  refine List.find?_eq_some_iff_append.2 ⟨?_, before, behind, hsplit, fun l hl => ?_⟩
  · exact List.isPrefixOf_iff_prefix.2 (hkeep hle (List.isPrefixOf_iff_prefix.1 hk))
  · have hold := hbefore l hl
    rw [Bool.not_eq_true', ← Bool.not_eq_true, List.isPrefixOf_iff_prefix] at hold ⊢
    exact fun hnew => hold (hkeep (length_le_of_begins (hmem l hl) hf ha hnew) hnew)

/-! ## The front of a text -/

/-- What a text starts with, if it starts with no blank, no comment and no number. -/
def Shape.symbolFront (c : Char) (rest : List Char) : Shape × Nat :=
  if c = '"' then
    let (more, closed) := stringRest rest
    (if closed then lexeme .string else openString, more)
  else if isWordStart c then
    let part := rest.takeWhile isWordPart
    (lexeme (.ofWord (String.ofList (c :: part))), part.length)
  else
    match operator? (c :: rest) with
    | some kind => (lexeme kind, kind.spelling.length - 1)
    | none => (stray, 0)

theorem Shape.symbolFront_cut {c : Char} {shape : Shape} {more : Nat} (ha : Delimited after)
    (h : symbolFront c (front ++ back) = (shape, more))
    (hs : shape ≠ .openString ∧ shape ≠ .stray) (hle : more ≤ front.length) :
    symbolFront c (front ++ after) = (shape, more) := by
  unfold symbolFront at h ⊢
  split at h <;> rename_i hquote
  · rw [if_pos hquote]
    cases hrest : stringRest (front ++ back) with
    | mk m closed =>
      rw [hrest] at h
      cases closed with
      | false =>
        cases h
        exact absurd rfl hs.1
      | true =>
        cases h
        rw [stringRest_cut hrest hle]
  rw [if_neg hquote]
  split at h <;> rename_i hword
  · rw [if_pos hword]
    have hlen : runLength isWordPart (front ++ back) ≤ front.length := by
      rw [runLength, (Prod.mk.inj h).2]
      exact hle
    rw [takeWhile_append (forall_delimiter (by decide)) ha hlen]
    exact h
  rw [if_neg hword]
  split at h
  · rename_i k hk
    obtain ⟨rfl, rfl⟩ := Prod.mk.inj h
    have hlen : k.spelling.toList.length ≤ (c :: front).length := by
      rw [String.length_toList, List.length_cons]
      omega
    have hcut := operator?_cut (List.cons_ne_nil c front) ha hk hlen
    rw [List.cons_append] at hcut
    rw [hcut]
  · cases h
    exact absurd rfl hs.2

/-- A text may be cut behind what it starts with, or anywhere later, if what follows is delimited,
and ends the line where that is a comment. -/
theorem Shape.front_cut {c : Char} {shape : Shape} {more : Nat} (ha : Delimited after)
    (h : Shape.front c (front ++ back) = (shape, more))
    (hs : shape ≠ .openComment ∧ shape ≠ .openString ∧ shape ≠ .stray)
    (hle : more ≤ front.length)
    (hc : shape = .comment → more = front.length → EndsLine after) :
    Shape.front c (front ++ after) = (shape, more) := by
  unfold Shape.front at h ⊢
  split at h <;> rename_i hblank
  · rwa [if_pos hblank]
  rw [if_neg hblank]
  cases hcomment : Shape.comment? c (front ++ back) with
  | some found =>
    obtain rfl : found = (shape, more) := by rwa [hcomment] at h
    rw [comment?_cut hcomment hs.1 hle (hc ?_)]
    exact (Shape.comment?_eq_comment hcomment).resolve_right hs.1
  | none =>
    rw [comment?_eq_none ha hcomment]
    rw [hcomment] at h
    dsimp only at h ⊢
    have hfloat := stable_floatLength (c :: front) back after ha
    have hinteger := stable_integerLength (c :: front) back after ha
    simp only [List.cons_append, List.length_cons] at hfloat hinteger
    split at h
    · rename_i m _ hm
      cases h
      rw [hfloat (by omega), hm]
    · rename_i m hm hm'
      cases h
      rw [hfloat (by omega), hinteger (by omega), hm, hm']
    · rename_i hm hm'
      rw [hfloat (by omega), hinteger (by omega), hm, hm']
      exact symbolFront_cut ha h hs.2 hle

/-! ## How much the front takes -/

theorem runLength_le (p : Char → Bool) (text : List Char) : runLength p text ≤ text.length :=
  (List.takeWhile_prefix p).length_le

theorem letterLength_le (letters text : List Char) : letterLength letters text ≤ text.length := by
  cases text with
  | nil => exact le_rfl
  | cons c rest =>
    simp only [letterLength]
    split
    · exact Nat.succ_pos _
    · exact Nat.zero_le _

theorem exponentDigits_le (lead : Nat) (text : List Char) :
    exponentDigits lead text ≤ text.length + lead := by
  have h := runLength_le Char.isDigit text
  unfold exponentDigits
  split <;> omega

theorem exponentLength_le (text : List Char) : exponentLength text ≤ text.length := by
  match text with
  | [] => exact le_rfl
  | [e] =>
    simp only [exponentLength]
    split <;> simp
  | e :: sign :: digits =>
    have h := exponentDigits_le 2 digits
    have h' := exponentDigits_le 1 (sign :: digits)
    simp only [exponentLength]
    split
    · split
      · exact h
      · exact h'
    · exact Nat.zero_le _

theorem floatTailLength_le (text : List Char) : floatTailLength text ≤ text.length := by
  have h := exponentLength_le text
  have h' := letterLength_le ['f', 'F', 'd', 'D'] (text.drop (exponentLength text))
  rw [List.length_drop] at h'
  unfold floatTailLength floatSuffixLength
  omega

theorem floatLength_le (text : List Char) : floatLength text ≤ text.length := by
  have hrun := runLength_le Char.isDigit text
  by_cases hp : ∃ rest, text.drop (runLength Char.isDigit text) = '.' :: rest
  · obtain ⟨rest, hrest⟩ := hp
    have hlen := congrArg List.length hrest
    have hrun' := runLength_le Char.isDigit rest
    have htail := floatTailLength_le (rest.drop (runLength Char.isDigit rest))
    rw [List.length_drop, List.length_cons] at hlen
    rw [List.length_drop] at htail
    rw [floatLength_of_point hrest]
    split <;> omega
  · have htail := floatTailLength_le (text.drop (runLength Char.isDigit text))
    rw [List.length_drop] at htail
    rw [floatLength_of_no_point fun rest hrest => hp ⟨rest, hrest⟩]
    split <;> omega

theorem integerDigits_le (text : List Char) : integerDigits text ≤ text.length := by
  by_cases hhex : StartsHex text
  · obtain ⟨x, rest, rfl, hx, hr⟩ := hhex
    have hrun := runLength_le isHexDigit rest
    rw [integerDigits_of_hex hx hr, List.length_cons, List.length_cons]
    omega
  · rw [integerDigits_of_not_hex hhex]
    exact runLength_le _ _

theorem integerLength_le (text : List Char) : integerLength text ≤ text.length := by
  have h := integerDigits_le text
  have h' := letterLength_le ['l', 'L'] (text.drop (integerDigits text))
  rw [List.length_drop] at h'
  rw [integerLength_eq]
  unfold integerSuffixLength
  split <;> omega

theorem stringRest_le (text : List Char) : (stringRest text).1 ≤ text.length := by
  induction hn : text.length using Nat.strongRecOn generalizing text with
  | _ n ih =>
    unfold stringRest
    split
    · exact Nat.zero_le _
    · rename_i c rest
      have h := ih rest.length (by rw [← hn, List.length_cons, List.length_cons]; omega) rest rfl
      rw [List.length_cons, List.length_cons] at hn
      change (stringRest rest).1 + 2 ≤ n
      omega
    · rename_i c rest _
      have h := ih rest.length (by rw [← hn, List.length_cons]; omega) rest rfl
      rw [List.length_cons] at hn
      split
      · omega
      split
      · exact Nat.zero_le _
      · change (stringRest rest).1 + 1 ≤ n
        omega

theorem blockCommentRest?_le {text : List Char} {n : Nat} (h : blockCommentRest? text = some n) :
    n ≤ text.length := by
  induction text generalizing n with
  | nil => cases h
  | cons c rest ih =>
    unfold blockCommentRest? at h
    split at h <;> rename_i hc
    · cases h
      cases rest with
      | nil => cases hc.2
      | cons d rest => simp
    · obtain ⟨m, hm, rfl⟩ := Option.map_eq_some_iff.1 h
      exact Nat.succ_le_succ (ih hm)

theorem comment?_le {c : Char} {rest : List Char} {found : Shape × Nat}
    (h : Shape.comment? c rest = some found) : found.2 ≤ rest.length := by
  cases rest with
  | nil => cases h
  | cons d rest =>
    have hrun := runLength_le (! isLineEnd ·) rest
    simp only [Shape.comment?] at h
    rw [List.length_cons]
    split at h
    · cases h
      dsimp only
      omega
    split at h
    · split at h
      · rename_i n hn
        have := blockCommentRest?_le hn
        cases h
        dsimp only
        omega
      · cases h
        dsimp only
        omega
    · cases h

theorem operator?_le {text : List Char} {k : Kind} (h : operator? text = some k) :
    k.spelling.length ≤ text.length := by
  have hk := List.find?_some h
  rw [← String.length_toList]
  exact (List.isPrefixOf_iff_prefix.1 hk).length_le

theorem Shape.Lexes.le {c : Char} {rest : List Char} {k : Kind} {more : Nat}
    (h : Lexes c rest k more) : more ≤ rest.length := by
  cases h with
  | float hf =>
    have hle := floatLength_le (c :: rest)
    rw [hf] at hle
    exact Nat.le_of_succ_le_succ hle
  | integer _ hi =>
    have hle := integerLength_le (c :: rest)
    rw [hi] at hle
    exact Nat.le_of_succ_le_succ hle
  | string _ _ _ hs =>
    have hle := stringRest_le rest
    rwa [hs] at hle
  | word => exact runLength_le isWordPart rest
  | operator _ _ _ _ ho =>
    have hle := operator?_le ho
    rw [List.length_cons] at hle
    omega

/-- What a text starts with is no longer than the text. -/
theorem Shape.front_le (c : Char) (rest : List Char) : (Shape.front c rest).2 ≤ rest.length := by
  have hstarts := starts_front c rest
  generalize front c rest = found at hstarts ⊢
  cases hstarts with
  | blank | stray => exact Nat.zero_le _
  | comment hcomment => exact comment?_le hcomment
  | openString hs =>
    have hle := stringRest_le rest
    rwa [hs] at hle
  | lexeme hlexes => exact hlexes.le

/-- What a text starts with, and what is behind it. -/
theorem Shape.exists_front (c : Char) (rest : List Char) : ∃ shape more after,
    rest = more ++ after ∧ Shape.front c rest = (shape, more.length) :=
  ⟨(Shape.front c rest).1, rest.take (Shape.front c rest).2, rest.drop (Shape.front c rest).2,
    (List.take_append_drop _ _).symm, by rw [List.length_take_of_le (front_le c rest)]⟩

end Botscript.Token
