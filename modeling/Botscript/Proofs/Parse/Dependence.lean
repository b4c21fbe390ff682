import Botscript.Proofs.Parse.Abreast
import Botscript.Proofs.Print.Ahead

/-!
# What a parse depends on

Two sources with the same tokens in other places parse alike (`parse_layout`): neither blanks nor
comments matter, except in the argument texts of calls, and these have the same tokens again. Which
functions are known matters only for calls (`parse_registry`): all names that an accepted program
calls are known, and to know more of them changes nothing but that a call may not be unknown any
more.
-/

namespace Botscript

open Token Parse Grammar

/-! ## Layout -/

/-- Texts with the same tokens, wherever these stand. -/
def SameTokens (text text' : String) : Prop :=
  ∃ tokens tokens', tokenize text = .ok tokens ∧ tokenize text' = .ok tokens' ∧
    tokens.map bare = tokens'.map bare

/-- The text between two tokens of a source has the tokens between them. -/
theorem Parse.Input.Scanned.tokenize_between {input : Input} (h : input.Scanned) {i j : Nat}
    (hij : i ≤ j) (hj : ∀ k < j, input.kind k ≠ .endOfInput) :
    ∃ tokens, tokenize (input.between i j) = .ok tokens ∧
      tokens.map bare = (input.span i j).map bare ++ [⟨.endOfInput, "", .origin, 0⟩] := by
  obtain ⟨n, rfl⟩ := Nat.exists_eq_add_of_le hij
  have hn : i + n ≤ (lexemes input.source).length := by
    cases hin : i + n with
    | zero => exact Nat.zero_le _
    | succ k => exact h.lt_length (hj k (by omega))
  obtain ⟨text, hbetween, -, hspells⟩ := h.exists_between hn
  rw [hbetween, tokenize, String.toList_ofList]
  exact hspells.exists_tokens

variable {source source' : String} {tokens tokens' : List Token}

theorem scanned_of_tokenize (h : tokenize source = .ok tokens) (registry : Registry) :
    (⟨source.toList, tokens.toArray, registry, true⟩ : Input).Scanned := h

theorem twins_of_tokens (h : tokenize source = .ok tokens) (h' : tokenize source' = .ok tokens')
    (hb : tokens.map bare = tokens'.map bare) (names : List String) :
    Twins ⟨source.toList, tokens.toArray, (FunctionTable.withNames names).registry, true⟩
      ⟨source'.toList, tokens'.toArray, (FunctionTable.withNames names).registry, true⟩
      SameTokens where
  ended := ended_tokenize h
  remembers := rfl
  remembers' := rfl
  tokens := hb.symm
  between i j hij hj := by
    have hkind : ∀ k < j, Input.kind ⟨source'.toList, tokens'.toArray,
        (FunctionTable.withNames names).registry, true⟩ k ≠ .endOfInput := fun k hk => by
      have hne := hj k hk
      rw [Input.kind, ← bare_kind, Input.bare_token] at hne ⊢
      rwa [← hb]
    obtain ⟨between, hbetween, hbare⟩ := (scanned_of_tokenize h _).tokenize_between hij hj
    obtain ⟨between', hbetween', hbare'⟩ := (scanned_of_tokenize h' _).tokenize_between hij hkind
    refine ⟨between, between', hbetween, hbetween', ?_⟩
    rw [hbare, hbare', Input.map_bare_span_eq, Input.map_bare_span_eq, hb]
  registry name make hmake := by
    refine ⟨make, hmake, fun args args' ha => ?_⟩
    dsimp only at hmake
    rw [FunctionTable.registry_withNames] at hmake
    split_ifs at hmake
    cases hmake
    exact ⟨rfl, ha⟩

/-- What two sources with some tokens come to: programs that differ in the argument texts of calls
at most, and these have the same tokens; or errors of one kind at the token of one index. -/
def ParsedAlike (tokens tokens' : List Token) :
    Except SourceError Program → Except SourceError Program → Prop
  | .ok p, .ok p' => p.Like SameTokens p'
  | .error (.grammatical e), .error (.grammatical e') =>
    e.cause = e'.cause ∧ e.token.image = e'.token.image ∧
      ∃ i : Nat, tokens[i]? = some e.token ∧ tokens'[i]? = some e'.token
  | _, _ => False

theorem parse_of_tokenize (h : tokenize source = .ok tokens) (registry : Registry) :
    parse source registry = (parseTokens source tokens registry).mapError .grammatical := by
  unfold parse
  rw [h]

theorem parse_eq_ok_iff (h : tokenize source = .ok tokens) {registry : Registry} {p : Program} :
    parse source registry = .ok p ↔ parseTokens source tokens registry = .ok p := by
  rw [parse_of_tokenize h]
  cases parseTokens source tokens registry <;> simp [Except.mapError]

theorem parse_eq_error_iff (h : tokenize source = .ok tokens) {registry : Registry}
    {e : ParseError} : parse source registry = .error (.grammatical e) ↔
      parseTokens source tokens registry = .error e := by
  rw [parse_of_tokenize h]
  cases parseTokens source tokens registry <;> simp [Except.mapError]

theorem exists_tokens_of_parse {registry : Registry} {p : Program}
    (h : parse source registry = .ok p) : ∃ tokens, tokenize source = .ok tokens := by
  unfold parse at h
  split at h
  · cases h
  · exact ⟨_, ‹_›⟩

/-- Blanks, comments and the places of tokens do not matter. -/
theorem parse_layout (h : tokenize source = .ok tokens) (h' : tokenize source' = .ok tokens')
    (hb : tokens.map bare = tokens'.map bare) (names : List String) :
    ParsedAlike tokens tokens' (parse source (FunctionTable.withNames names).registry)
      (parse source' (FunctionTable.withNames names).registry) := by
  have w := twins_of_tokens h h' hb names
  rw [parse_of_tokenize h, parse_of_tokenize h', parseTokens, parseTokens]
  obtain ⟨p, p', hp, hp', hlike⟩ | ⟨i, cause, hi, hp, hp'⟩ | ⟨i, -, hnone, hsome, -⟩ :=
    w.parse_alike
  · rw [hp, hp']
    exact hlike
  · rw [hp, hp']
    have hi' := hi
    rw [← w.size] at hi'
    exact ⟨rfl, (w.image i).symm, i, Input.getElem?_of_lt hi, Input.getElem?_of_lt hi'⟩
  · rw [hnone] at hsome
    cases hsome

/-- A comment in front of an argument makes no difference but for the argument text. -/
theorem parse_layout_comment : ∃ tokens tokens',
    tokenize "func f() \x7b g(1); \x7d" = .ok tokens ∧
    tokenize "func f()\x7bg( /* one */ 1 );\x7d" = .ok tokens' ∧
    tokens.map bare = tokens'.map bare ∧
    ParsedAlike tokens tokens'
      (parse "func f() \x7b g(1); \x7d" (FunctionTable.withNames ["g"]).registry)
      (parse "func f()\x7bg( /* one */ 1 );\x7d" (FunctionTable.withNames ["g"]).registry) := by
  obtain ⟨tokens, h⟩ : ∃ tokens, tokenize "func f() \x7b g(1); \x7d" = .ok tokens := ⟨_, rfl⟩
  obtain ⟨tokens', h'⟩ : ∃ tokens, tokenize "func f()\x7bg( /* one */ 1 );\x7d" = .ok tokens :=
    ⟨_, rfl⟩
  have hsame : (tokenize "func f() \x7b g(1); \x7d").map (List.map bare) =
      (tokenize "func f()\x7bg( /* one */ 1 );\x7d").map (List.map bare) := by decide +kernel
  rw [h, h'] at hsame
  have hb : tokens.map bare = tokens'.map bare := Except.ok.inj hsame
  exact ⟨tokens, tokens', h, h', hb, parse_layout h h' hb ["g"]⟩

/-! ## Known functions -/

theorem twins_of_names (h : tokenize source = .ok tokens) {known more : List String}
    (hsub : ∀ name ∈ known, name ∈ more) :
    Twins ⟨source.toList, tokens.toArray, (FunctionTable.withNames known).registry, true⟩
      ⟨source.toList, tokens.toArray, (FunctionTable.withNames more).registry, true⟩ Eq where
  ended := ended_tokenize h
  remembers := rfl
  remembers' := rfl
  tokens := rfl
  between _ _ _ _ := rfl
  registry name make hmake := by
    dsimp only at hmake ⊢
    rw [FunctionTable.registry_withNames] at hmake ⊢
    split_ifs at hmake with hname
    cases hmake
    exact ⟨_, if_pos (hsub name hname), fun args args' ha => ⟨rfl, ha⟩⟩

/-- Unknown calls are always fatal, and the registry matters in no other way. A program calls known
functions only; with more functions known, a source comes to the same, unless it was refused for a
call that is not known. -/
theorem parse_registry (h : tokenize source = .ok tokens) {known more : List String}
    (hsub : ∀ name ∈ known, name ∈ more) :
    ((∃ p, parse source (FunctionTable.withNames known).registry = .ok p) →
      ∀ i name, Callee tokens i name → i ≠ 1 → name.image ∈ known) ∧
    (parse source (FunctionTable.withNames known).registry =
        parse source (FunctionTable.withNames more).registry ∨
      ∃ i name, Callee tokens i name ∧ name.image ∉ known ∧
        parse source (FunctionTable.withNames known).registry =
          .error (.grammatical ⟨name, .unknownFunction⟩)) := by
  have hknown : ∀ name : Token, ((FunctionTable.withNames known).registry name.image).isSome →
      name.image ∈ known := fun name hsome => by
    rw [FunctionTable.registry_withNames] at hsome
    by_contra hname
    rw [if_neg hname] at hsome
    cases hsome
  constructor
  · rintro ⟨p, hp⟩ i name hcallee hi
    have hword := (Input.accepts_iff (ended_tokenize h)).1 ⟨p, (parse_eq_ok_iff h).1 hp⟩
    exact hknown name (known_of_callee (program_mono (limited_le_sentences _) hword) hcallee hi)
  · rw [parse_of_tokenize h, parse_of_tokenize h, parseTokens, parseTokens]
    obtain ⟨p, p', hp, hp', hlike⟩ | ⟨i, cause, hi, hp, hp'⟩ | ⟨i, hcallee, hnone, -, hp⟩ :=
      (twins_of_names h hsub).parse_alike
    · exact .inl (by rw [hp, hp', hlike.eq])
    · exact .inl (by rw [hp, hp']; rfl)
    · refine .inr ⟨i, _, hcallee, fun hmem => ?_, by rw [hp]; rfl⟩
      dsimp only at hnone
      rw [FunctionTable.registry_withNames, if_pos hmem] at hnone
      cases hnone

/-- To know one more function. -/
theorem parse_registry_more : ∃ tokens, tokenize "func f() \x7b g(h()); \x7d" = .ok tokens ∧
    (∀ name ∈ ["h"], name ∈ ["g", "h"]) ∧
    ((∃ p, parse "func f() \x7b g(h()); \x7d" (FunctionTable.withNames ["h"]).registry = .ok p) →
      ∀ i name, Callee tokens i name → i ≠ 1 → name.image ∈ ["h"]) ∧
    (parse "func f() \x7b g(h()); \x7d" (FunctionTable.withNames ["h"]).registry =
        parse "func f() \x7b g(h()); \x7d" (FunctionTable.withNames ["g", "h"]).registry ∨
      ∃ i name, Callee tokens i name ∧ name.image ∉ ["h"] ∧
        parse "func f() \x7b g(h()); \x7d" (FunctionTable.withNames ["h"]).registry =
          .error (.grammatical ⟨name, .unknownFunction⟩)) := by
  obtain ⟨tokens, h⟩ : ∃ tokens, tokenize "func f() \x7b g(h()); \x7d" = .ok tokens := ⟨_, rfl⟩
  have hsub : ∀ name ∈ ["h"], name ∈ ["g", "h"] := by decide
  exact ⟨tokens, h, hsub, parse_registry h hsub⟩

end Botscript
