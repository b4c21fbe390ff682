import Mathlib.Data.List.Basic
import Botscript.Cli.Arguments

/-!
# What command lines say

`Spells` says how an option is written in one word, and `Sorted` which operands and options the
words of a command line are, apart from the way in which they are told from each other. A command
line is accepted if and only if it is sorted in some way and no option is used too often, and then
there is one way only (`read?_eq_some_iff`).
-/

namespace Botscript.Cli.Arguments

variable {flags : List Flag} {flag : Flag} {word : String} {words : List String} {args : Arguments}
  {value? : Option String}

/-! ## Words -/

/-- A word that stands for itself: it begins with no dash, or there is nothing behind the dash. -/
def IsOperand (word : String) : Prop := ∀ c rest, word.toList ≠ '-' :: c :: rest

/-- A text for an option: its name behind two dashes or its letter behind one, and a value, if it
takes one and has it in the same word. An equals sign stands in front of the value; behind a letter
it may be left out. -/
inductive Spells (flags : List Flag) : List Char → Flag → Option String → Prop
  | long {flag : Flag} {name : List Char} (hf : flags.find? (·.long.toList = name) = some flag)
    (hne : name ≠ []) (hname : '=' ∉ name) : Spells flags ('-' :: '-' :: name) flag none
  | longValue {flag : Flag} {name value : List Char}
    (hf : flags.find? (·.long.toList = name) = some flag) (hname : '=' ∉ name)
    (ht : flag.takesValue) :
    Spells flags ('-' :: '-' :: (name ++ '=' :: value)) flag (some (String.ofList value))
  | short {flag : Flag} {letter : Char} (hf : flags.find? (·.short = some letter) = some flag)
    (hl : letter ≠ '-') : Spells flags ['-', letter] flag none
  | shortValue {flag : Flag} {letter first : Char} {value : List Char}
    (hf : flags.find? (·.short = some letter) = some flag) (hl : letter ≠ '-')
    (hfirst : first ≠ '=') (ht : flag.takesValue) :
    Spells flags ('-' :: letter :: first :: value) flag (some (String.ofList (first :: value)))
  | shortEquals {flag : Flag} {letter : Char} {value : List Char}
    (hf : flags.find? (·.short = some letter) = some flag) (hl : letter ≠ '-')
    (ht : flag.takesValue) :
    Spells flags ('-' :: letter :: '=' :: value) flag (some (String.ofList value))

theorem splitValue_of_notMem {name : List Char} (h : '=' ∉ name) :
    splitValue name = (name, none) := by
  have hname : ∀ c ∈ name, decide (c ≠ '=') := fun c hc =>
    decide_eq_true (ne_of_mem_of_not_mem hc h)
  have hdrop : (name ++ []).dropWhile (· ≠ '=') = [] := List.dropWhile_append_of_pos hname
  rw [List.append_nil] at hdrop
  rw [splitValue, hdrop]

theorem splitValue_append {name : List Char} (h : '=' ∉ name) (value : List Char) :
    splitValue (name ++ '=' :: value) = (name, some (String.ofList value)) := by
  have hname : ∀ c ∈ name, decide (c ≠ '=') := fun c hc =>
    decide_eq_true (ne_of_mem_of_not_mem hc h)
  rw [splitValue, List.dropWhile_append_of_pos hname, List.takeWhile_append_of_pos hname,
    List.dropWhile_cons_of_neg (by simp), List.takeWhile_cons_of_neg (by simp), List.append_nil]

theorem ofFlag_eq_option_iff {found? : Option Flag} {text? : Option String} :
    Word.ofFlag found? text? = .option flag value? ↔
      found? = some flag ∧ text? = value? ∧ (text?.isSome → flag.takesValue) := by
  cases found? with
  | none => simp [Word.ofFlag]
  | some found =>
    rw [Word.ofFlag]
    split <;> rename_i h
    · obtain ⟨hvalue, htakes⟩ := h
      refine iff_of_false (by simp) ?_
      rintro ⟨⟨⟩, -, himp⟩
      rw [himp hvalue] at htakes
      cases htakes
    · simp only [Word.option.injEq, Option.some.injEq]
      constructor
      · rintro ⟨rfl, rfl⟩
        exact ⟨rfl, rfl, fun hvalue => by simpa [hvalue] using h⟩
      · rintro ⟨rfl, rfl, -⟩
        exact ⟨rfl, rfl⟩

theorem classify_long {text : List Char} (hword : word.toList = '-' :: '-' :: text)
    (hne : text ≠ []) : Word.classify flags word =
      Word.ofFlag (flags.find? (·.long.toList = (splitValue text).1)) (splitValue text).2 := by
  obtain ⟨c, text, rfl⟩ := List.exists_cons_of_ne_nil hne
  rw [Word.classify, hword]
  rfl

/-- The value that stands behind a letter. -/
def attached? : List Char → Option String
  | [] => none
  | '=' :: value => some (String.ofList value)
  | value => some (String.ofList value)

theorem attached?_cons {first : Char} (h : first ≠ '=') (value : List Char) :
    attached? (first :: value) = some (String.ofList (first :: value)) := by
  unfold attached?
  split
  · contradiction
  · exact absurd (List.cons.inj ‹_›).1 h
  · rfl

theorem classify_short {letter : Char} {value : List Char}
    (hword : word.toList = '-' :: letter :: value) (hl : letter ≠ '-') :
    Word.classify flags word =
      Word.ofFlag (flags.find? (·.short = some letter)) (attached? value) := by
  rw [Word.classify, hword]
  split <;> rename_i h
  · cases h
    exact absurd rfl hl
  · cases h
    exact absurd rfl hl
  · cases h
    rfl
  · exact absurd rfl (h letter value)

theorem spells_of_classify (h : Word.classify flags word = .option flag value?) :
    Spells flags word.toList flag value? := by
  have hcases := h
  unfold Word.classify at hcases
  split at hcases
  · cases hcases
  · rename_i text hne hword
    rw [classify_long hword hne] at h
    rw [hword]
    by_cases heq : '=' ∈ text
    · obtain ⟨name, value, rfl, hname⟩ := List.eq_append_cons_of_mem heq
      rw [splitValue_append hname] at h
      obtain ⟨hf, rfl, ht⟩ := ofFlag_eq_option_iff.1 h
      exact .longValue hf hname (ht rfl)
    · rw [splitValue_of_notMem heq] at h
      obtain ⟨hf, rfl, -⟩ := ofFlag_eq_option_iff.1 h
      exact .long hf hne heq
  · rename_i letter value _ hl hword
    rw [classify_short hword hl] at h
    rw [hword]
    cases value with
    | nil =>
      obtain ⟨hf, rfl, -⟩ := ofFlag_eq_option_iff.1 h
      exact .short hf hl
    | cons first value =>
      by_cases hfirst : first = '='
      · subst hfirst
        obtain ⟨hf, rfl, ht⟩ := ofFlag_eq_option_iff.1 h
        exact .shortEquals hf hl (ht rfl)
      · rw [attached?_cons hfirst] at h
        obtain ⟨hf, rfl, ht⟩ := ofFlag_eq_option_iff.1 h
        exact .shortValue hf hl hfirst (ht rfl)
  · cases hcases

theorem classify_of_spells (h : Spells flags word.toList flag value?) :
    Word.classify flags word = .option flag value? := by
  generalize hword : word.toList = text at h
  cases h with
  | long hf hne hname =>
    rw [classify_long hword hne, splitValue_of_notMem hname]
    exact ofFlag_eq_option_iff.2 ⟨hf, rfl, fun h => by cases h⟩
  | longValue hf hname ht =>
    rw [classify_long hword (by simp), splitValue_append hname]
    exact ofFlag_eq_option_iff.2 ⟨hf, rfl, fun _ => ht⟩
  | short hf hl =>
    rw [classify_short hword hl]
    exact ofFlag_eq_option_iff.2 ⟨hf, rfl, fun h => by cases h⟩
  | shortValue hf hl hfirst ht =>
    rw [classify_short hword hl]
    exact ofFlag_eq_option_iff.2 ⟨hf, attached?_cons hfirst _, fun _ => ht⟩
  | shortEquals hf hl ht =>
    rw [classify_short hword hl]
    exact ofFlag_eq_option_iff.2 ⟨hf, rfl, fun _ => ht⟩

theorem ofFlag_ne_operand {found? : Option Flag} {text? : Option String} :
    Word.ofFlag found? text? ≠ .operand ∧ Word.ofFlag found? text? ≠ .endOfOptions := by
  cases found? with
  | none => exact ⟨by simp [Word.ofFlag], by simp [Word.ofFlag]⟩
  | some found =>
    rw [Word.ofFlag]
    split <;> simp

theorem classify_eq_operand_iff : Word.classify flags word = .operand ↔ IsOperand word := by
  unfold Word.classify
  split <;> rename_i hword
  · exact iff_of_false (by simp) fun h => h _ _ hword
  · exact iff_of_false ofFlag_ne_operand.1 fun h => h _ _ ‹_›
  · exact iff_of_false ofFlag_ne_operand.1 fun h => h _ _ hword
  · exact iff_of_true rfl fun c rest h => hword c rest h

theorem classify_eq_endOfOptions_iff :
    Word.classify flags word = .endOfOptions ↔ word = "--" := by
  rw [← String.toList_inj]
  unfold Word.classify
  split <;> rename_i hword
  · exact iff_of_true rfl hword
  · rename_i text hne
    refine iff_of_false ofFlag_ne_operand.2 fun h => hne ?_
    exact (List.cons.inj (List.cons.inj (hword.symm.trans h)).2).2
  · rename_i letter value hl
    refine iff_of_false ofFlag_ne_operand.2 fun h => hl ?_
    exact (List.cons.inj (List.cons.inj (hword.symm.trans h)).2).1
  · exact iff_of_false (by simp) fun h => hword _ _ h

/-! ## Command lines -/

/-- The words of a command line are some operands and some uses of options, in order. An option that
takes a value and has none in its word takes the next word, and behind `--` there are only operands.
An option without a value has an empty one. -/
inductive Sorted (flags : List Flag) : List String → Arguments → Prop
  | nil : Sorted flags [] ⟨[], []⟩
  | stop (words : List String) : Sorted flags ("--" :: words) ⟨words, []⟩
  | operand {word : String} {words : List String} {args : Arguments} (hw : IsOperand word)
    (h : Sorted flags words args) :
    Sorted flags (word :: words) ⟨word :: args.operands, args.uses⟩
  | attached {word value : String} {words : List String} {args : Arguments} {flag : Flag}
    (hw : Spells flags word.toList flag (some value)) (h : Sorted flags words args) :
    Sorted flags (word :: words) ⟨args.operands, (flag, value) :: args.uses⟩
  | bare {word : String} {words : List String} {args : Arguments} {flag : Flag}
    (hw : Spells flags word.toList flag none) (ht : ¬ flag.takesValue)
    (h : Sorted flags words args) :
    Sorted flags (word :: words) ⟨args.operands, (flag, "") :: args.uses⟩
  | separate {word value : String} {words : List String} {args : Arguments} {flag : Flag}
    (hw : Spells flags word.toList flag none) (ht : flag.takesValue) (hv : IsOperand value)
    (h : Sorted flags words args) :
    Sorted flags (word :: value :: words) ⟨args.operands, (flag, value) :: args.uses⟩

theorem sort?_of_sorted (h : Sorted flags words args) : sort? flags none words = some args := by
  induction h with
  | nil => rfl
  | stop words =>
    unfold sort?
    rw [classify_eq_endOfOptions_iff.2 rfl]
  | operand hw _ ih =>
    unfold sort?
    rw [classify_eq_operand_iff.2 hw, ih]
    rfl
  | attached hw _ ih =>
    unfold sort?
    rw [classify_of_spells hw, ih]
    rfl
  | bare hw ht _ ih =>
    unfold sort?
    rw [classify_of_spells hw, ih]
    dsimp only
    rw [eq_false_of_ne_true ht]
    rfl
  | separate hw ht hv _ ih =>
    unfold sort?
    rw [classify_of_spells hw]
    dsimp only
    rw [ht]
    dsimp only
    unfold sort?
    rw [classify_eq_operand_iff.2 hv, ih]
    rfl

/-- What is sorted behind an option that still needs a value, or behind none. -/
def SortedBehind (flags : List Flag) (words : List String) (args : Arguments) :
    Option Flag → Prop
  | none => Sorted flags words args
  | some flag => ∃ value rest behind, words = value :: rest ∧ IsOperand value ∧
    Sorted flags rest behind ∧ args = ⟨behind.operands, (flag, value) :: behind.uses⟩

theorem sortedBehind_of_sort? {pending : Option Flag} (h : sort? flags pending words = some args) :
    SortedBehind flags words args pending := by
  induction words generalizing pending args with
  | nil =>
    unfold sort? at h
    cases pending with
    | none =>
      cases h
      exact .nil
    | some flag => cases h
  | cons word words ih =>
    unfold sort? at h
    split at h <;> rename_i hword
    · obtain ⟨behind, hbehind, rfl⟩ := Option.map_eq_some_iff.1 h
      exact ⟨word, words, behind, rfl, classify_eq_operand_iff.1 hword, ih hbehind, rfl⟩
    · obtain ⟨behind, hbehind, rfl⟩ := Option.map_eq_some_iff.1 h
      exact .operand (classify_eq_operand_iff.1 hword) (ih hbehind)
    · cases h
    · cases h
      obtain rfl := classify_eq_endOfOptions_iff.1 hword
      exact .stop words
    · cases h
    · rename_i flag _
      have hspells := spells_of_classify hword
      split at h <;> rename_i hnone
      · obtain ⟨value, rest, behind, rfl, hv, hbehind, rfl⟩ := ih h
        exact .separate hspells hnone hv hbehind
      · obtain ⟨behind, hbehind, rfl⟩ := Option.map_eq_some_iff.1 h
        rename_i found? _ _
        cases found? with
        | none => exact .bare hspells (hnone rfl) (ih hbehind)
        | some value => exact .attached hspells (ih hbehind)

/-- A command line is accepted with what its words are, and only if no option is used twice that may
be used once. -/
theorem read?_eq_some_iff : read? flags words = some args ↔
    Sorted flags words args ∧ ∀ flag ∈ flags, flag.repeatable ∨ args.count flag ≤ 1 := by
  rw [read?, Option.filter_eq_some_iff, List.all_eq_true]
  refine and_congr ⟨sortedBehind_of_sort?, sort?_of_sorted⟩ ?_
  simp

/-! ### Canonical command lines -/

theorem isOperand_of_head?_ne (h : word.toList.head? ≠ some '-') : IsOperand word := by
  intro c rest hword
  rw [hword] at h
  exact h rfl

theorem sorted_operands (h : ∀ word ∈ words, IsOperand word) : Sorted flags words ⟨words, []⟩ := by
  induction words with
  | nil => exact .nil
  | cons word words ih =>
    obtain ⟨hword, hwords⟩ := List.forall_mem_cons.1 h
    exact .operand hword (ih hwords)

/-- Any value may stand behind the name of an option and an equals sign. -/
theorem spells_long (hf : flags.find? (·.long.toList = flag.long.toList) = some flag)
    (hname : '=' ∉ flag.long.toList) (ht : flag.takesValue) (value : String) :
    Spells flags ("--" ++ flag.long ++ "=" ++ value).toList flag (some value) := by
  have hspells : Spells flags _ flag (some (String.ofList value.toList)) := .longValue hf hname ht
  simpa using hspells

/-! ### What is sorted -/

/-- The operands are words of the command line, in order. -/
theorem Sorted.operands_sublist (h : Sorted flags words args) : args.operands.Sublist words := by
  induction h with
  | nil => exact .slnil
  | stop words => exact .cons _ (.refl words)
  | operand _ _ ih => exact .cons_cons _ ih
  | attached _ _ ih | bare _ _ _ ih => exact .cons _ ih
  | separate _ _ _ _ ih => exact .cons _ (.cons _ ih)

theorem Spells.mem {text : List Char} (h : Spells flags text flag value?) : flag ∈ flags := by
  cases h with
  | long hf | longValue hf | short hf | shortValue hf | shortEquals hf =>
    exact List.mem_of_find?_eq_some hf

/-- Only options of the command are used. -/
theorem Sorted.mem_flags (h : Sorted flags words args) : ∀ use ∈ args.uses, use.1 ∈ flags := by
  induction h with
  | nil => exact fun _ hu => absurd hu List.not_mem_nil
  | stop => exact fun _ hu => absurd hu List.not_mem_nil
  | operand _ _ ih => exact ih
  | attached hw _ ih | bare hw _ _ ih | separate hw _ _ _ ih =>
    exact List.forall_mem_cons.2 ⟨hw.mem, ih⟩

end Botscript.Cli.Arguments
