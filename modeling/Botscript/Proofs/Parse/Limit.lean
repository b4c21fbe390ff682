import Botscript.Proofs.Grammar.Blind
import Botscript.Proofs.Grammar.Expected
import Botscript.Proofs.Parse.Dependence

/-!
# Where the limit on nesting strikes

That a program is nested too deeply is said only where no program goes on within the limit
(`parse_tooDeep`). The tokens before the place begin a program without a limit, since there the
parser expects what could come with more levels (`inner_sentences`). With the token of the place
they begin no program within the limit, whatever functions are known: a run that ends there ends
there too if all names are known (`Input.decided_completed`), and then it reads the grammar within
the limit that lets call everything (`inner_limited`). Only kinds matter for that grammar, so
nothing with tokens of the same kinds is accepted.
-/

namespace Botscript

open Grammar Parse Token

/-- A registry with a function for each name that it does not know. -/
def Registry.completed (registry : Registry) : Registry := fun name =>
  some ((registry name).getD (.plain name))

namespace Grammar

/-- All names may be called, and each `else` belongs to the nearest `if` that can have it. -/
def everyCall : Dialect := ⟨fun _ => True, true⟩

end Grammar

namespace Parse.Input

variable {input : Input} {t : Token} {c : Cursor}

/-- An input with a function for each name. -/
def completed (input : Input) : Input := { input with registry := input.registry.completed }

theorem twins_completed (h : Ended input.tokens.toList) (hr : input.remembers = true) :
    Twins input input.completed Eq where
  ended := h
  remembers := hr
  remembers' := hr
  tokens := rfl
  between _ _ _ _ := rfl
  registry name make hmake := by
    refine ⟨make, by simp [completed, Registry.completed, hmake], fun args args' ha => ?_⟩
    subst ha
    exact ⟨rfl, rfl⟩

/-- A run that ends for want of levels does so as well if all names are known. -/
theorem decided_completed (h : Ended input.tokens.toList) (hr : input.remembers = true)
    (hrun : input.decided = .error (.tooDeep t) c) :
    input.completed.decided = .error (.tooDeep t) c := by
  have w := twins_completed h hr
  have halike := (w.inner_predictive maxNesting).program .initial (Twins.sound_initial input)
  unfold Twins.AlikeAt at halike
  rw [← Twins.decided_eq hr, ← Twins.decided_eq w.remembers', hrun] at halike
  generalize input.completed.decided = r at halike ⊢
  cases halike with
  | tooDeep => rfl

/-- Where the limit strikes, programs without a limit go on, and no program within the limit has the
token that stands there. -/
theorem tooDeep_ends (h : Ended input.tokens.toList) (hr : input.remembers = true)
    (he : input.parse = .error ⟨t, .tooDeep⟩) : ∃ i, input.tokens.toList[i]? = some t ∧
      Viable anyProgram (input.tokens.toList.take i) ∧
      ∀ v, input.tokens.toList.take (i + 1) ++ v ∉
        Grammar.program (limited everyCall maxNesting) := by
  rw [Input.parse_eq] at he
  cases hrun : input.decided with
  | ok p c => rw [hrun] at he; cases he
  | error e c =>
    rw [hrun] at he
    cases e with
    | unknownFunction name => cases he
    | mismatch => cases he
    | tooDeep token =>
      obtain rfl : token = t := by cases he; rfl
      let A : Aim := ⟨anyProgram, true⟩
      have hf : Fits A input.remembering everyCall :=
        ⟨rfl, rfl, fun _ _ => trivial, fun hA => (by cases hA), fun _ _ => trivial⟩
      have hends := decided_ends (inner_sentences hf rfl maxNesting) program_resolved.symm
      have hrejects := hends.error hrun
      obtain ⟨rfl, hviable⟩ := hrejects.deep _ rfl
      let B : Aim := ⟨Grammar.program (limited everyCall maxNesting), false⟩
      have hg : Fits B input.completed.remembering everyCall :=
        ⟨rfl, rfl, fun _ _ => trivial, fun _ _ ht => (by cases ht), fun hB => (by cases hB)⟩
      have hends' := decided_ends (inner_limited hg rfl maxNesting) rfl
      have hlost := (hends'.error (decided_completed h hr hrun)).lost rfl
      have hlt := h.lt_length hrejects.passed
      have htoken : input.tokens.toList[c.pos]? = some (input.token c.pos) := by
        rw [List.getElem?_eq_getElem hlt, Ended.token_eq_getElem hlt]
      refine ⟨c.pos, htoken, ?_, fun v hv => hlost v ?_⟩
      · rw [← Ended.span_zero]
        exact hviable rfl
      · rwa [List.take_add_one, htoken, ← Ended.span_zero, List.append_assoc] at hv

end Parse.Input

/-- That a program is nested too deeply is said at a token up to which there is nothing wrong, and
with which no source is accepted: not one whose tokens begin with tokens of the same kinds is a
program of any functions. -/
theorem parse_tooDeep {source : String} {tokens : List Token} (h : tokenize source = .ok tokens)
    {registry : Registry} {t : Token}
    (he : parse source registry = .error (.grammatical ⟨t, .tooDeep⟩)) :
    ∃ i, tokens[i]? = some t ∧ Viable anyProgram (tokens.take i) ∧
      ∀ (source' : String) (tokens' : List Token) (registry' : Registry),
        tokenize source' = .ok tokens' →
        (tokens.take (i + 1)).map kind <+: tokens'.map kind →
        ∀ p, parse source' registry' ≠ .ok p := by
  obtain ⟨i, ht, hviable, hlost⟩ :=
    Input.tooDeep_ends (ended_tokenize h) rfl ((parse_eq_error_iff h).1 he)
  refine ⟨i, ht, hviable, fun source' tokens' registry' h' hkinds p hp => ?_⟩
  have hword := (Input.accepts_iff (ended_tokenize h')).1 ⟨p, (parse_eq_ok_iff h').1 hp⟩
  obtain ⟨rest, hrest⟩ := hkinds
  obtain ⟨front, back, rfl, hfront, -⟩ := List.map_eq_append_iff.1 hrest.symm
  have hcalls : Dialect.Told kind (dialect registry') everyCall := fun _ _ _ _ => trivial
  have hsame : (front ++ back).map kind = (tokens.take (i + 1) ++ back).map kind := by
    rw [List.map_append, List.map_append, hfront]
  exact hlost back (told_program tellsKind_kind
    (told_limited tellsKind_kind hcalls rfl maxNesting) _ _ hsame hword)

/-- With an expression behind 99 parentheses, a statement is nested too deeply. -/
theorem parse_tooDeep_parens : ∃ tokens t,
    tokenize ("func f() \x7b" ++ String.ofList (List.replicate 99 '(') ++ "1") = .ok tokens ∧
    t = ⟨.integer, "1", ⟨1, 110, 109⟩, 110⟩ ∧
    parse ("func f() \x7b" ++ String.ofList (List.replicate 99 '(') ++ "1") (fun _ => none) =
      .error (.grammatical ⟨t, .tooDeep⟩) ∧
    ∃ i, tokens[i]? = some t ∧ Viable anyProgram (tokens.take i) ∧
      ∀ (source' : String) (tokens' : List Token) (registry' : Registry),
        tokenize source' = .ok tokens' →
        (tokens.take (i + 1)).map kind <+: tokens'.map kind →
        ∀ p, parse source' registry' ≠ .ok p := by
  have he : parse ("func f() \x7b" ++ String.ofList (List.replicate 99 '(') ++ "1")
      (fun _ => none) =
        .error (.grammatical ⟨⟨.integer, "1", ⟨1, 110, 109⟩, 110⟩, .tooDeep⟩) := by
    decide +kernel
  cases h : tokenize ("func f() \x7b" ++ String.ofList (List.replicate 99 '(') ++ "1") with
  | error e =>
    rw [parse, h] at he
    cases he
  | ok tokens => exact ⟨tokens, _, rfl, rfl, he, parse_tooDeep h he⟩

end Botscript
