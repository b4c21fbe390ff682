import Botscript.Proofs.Grammar.Acceptance
import Botscript.Proofs.Grammar.Dangling

/-!
# What a syntax error says

A syntax error is reported at the first token that no program has behind the tokens before it, and
the kinds it lists are those that some program has there, no more and no fewer
(`parse_unexpected`). Programs are meant without a limit on nesting, of any functions, and with each
`else` belonging to any `if`.
-/

namespace Botscript

open Grammar Parse Token

namespace Grammar

/-- Tokens that can be completed to a word of a language. -/
def Viable (L : Language Token) (w : List Token) : Prop := ∃ v, w ++ v ∈ L

/-- The kinds, in order, of the tokens that may come behind others. -/
def Expects (L : Language Token) (w : List Token) (kinds : List Kind) : Prop :=
  kinds.Pairwise (·.ctorIdx < ·.ctorIdx) ∧
    ∀ k, k ∈ kinds ↔ ∃ t : Token, t.kind = k ∧ Viable L (w ++ [t])

/-- The programs of any functions, nested to any depth. -/
def anyProgram : Language Token := program (ambiguous fun _ => True)

variable {A : Aim} {input : Input} {c : Cursor} {k : Kind}

theorem pos_of_mem_noted (h : k ∈ noted c) : c.frontier.pos = c.pos := by
  by_contra hne
  rw [noted, if_neg hne] at h
  exact Token.KindSet.not_mem_empty k h

theorem mem_noted (h : c.frontier.pos = c.pos) : k ∈ noted c ↔ k ∈ c.frontier.kinds := by
  rw [noted, if_pos h]

/-- Where nothing is left that begins with the current token, just the kinds that the token has been
compared to may come. -/
theorem Aim.Leaves.mem_noted_iff (h : A.Leaves input c 0) (hA : A.exact = true) :
    k ∈ noted c ↔ ∃ t : Token, t.kind = k ∧ Viable A.words (input.span 0 c.pos ++ [t]) := by
  constructor
  · intro hk
    obtain ⟨t, v, ht, hv⟩ := h.viable hA k hk
    exact ⟨t, ht, v, by rwa [List.append_assoc]⟩
  · rintro ⟨t, rfl, v, hv⟩
    by_contra hk
    rw [List.append_assoc] at hv
    refine Language.notMem_zero _ ((h.rest _ fun u hu hn => ?_).1 hv)
    cases hu
    exact absurd hn hk

end Grammar

namespace Token.KindSet

theorem pairwise_toList (s : KindSet) : s.toList.Pairwise (·.ctorIdx < ·.ctorIdx) :=
  List.Pairwise.filter _ (by decide)

end Token.KindSet

/-- A mismatch is reported where the longest viable front of the tokens ends. -/
theorem Parse.Input.unexpected_ends (input : Input) (h : Ended input.tokens.toList) {t : Token}
    {expected : List Kind} (he : input.parse = .error ⟨t, .unexpected expected⟩) :
    ∃ n, input.tokens.toList[n]? = some t ∧
      IsGreatest {m | m ≤ input.tokens.toList.length ∧
        Viable anyProgram (input.tokens.toList.take m)} n ∧
      Expects anyProgram (input.tokens.toList.take n) expected := by
  let A : Aim := ⟨anyProgram, true⟩
  have hf : Fits A input.remembering ⟨fun _ => True, true⟩ :=
    ⟨rfl, rfl, fun _ _ => trivial, fun hA => (by cases hA), fun _ _ => trivial⟩
  have hends := Input.decided_ends (inner_sentences hf rfl maxNesting) program_resolved.symm
  rw [Input.parse_eq, Input.decided] at he
  cases hrun : (Nested.predictive maxNesting).program.run input.remembering .initial with
  | ok p c => rw [hrun] at he; cases he
  | error e c =>
    have hr := hends.error hrun
    rw [hrun] at he
    cases e with
    | unknownFunction name => cases he
    | tooDeep token => cases he
    | mismatch =>
      obtain ⟨hc, k, hk⟩ := hr.stuck rfl
      have hpos := pos_of_mem_noted hk
      have hlt := h.lt_length hc.passed
      have htake : ∀ n, input.span 0 n = input.tokens.toList.take n := Ended.span_zero input
      have hwords : ∀ v, input.span 0 c.pos ++ input.token c.pos :: v ∉ anyProgram := hc.lost
      cases he
      rw [hpos]
      refine ⟨c.pos, ?_, ⟨⟨hlt.le, ?_⟩, fun m hm => ?_⟩, KindSet.pairwise_toList _, fun k => ?_⟩
      · rw [List.getElem?_eq_getElem hlt]
        exact congrArg some (Ended.token_eq_getElem hlt).symm
      · obtain ⟨t, -, v, hv⟩ := (hc.mem_noted_iff rfl).1 hk
        exact ⟨[t] ++ v, by rwa [← htake, ← List.append_assoc]⟩
      · obtain ⟨hm, v, hv⟩ := hm
        by_contra hle
        rw [h.take_split hc.passed (Nat.lt_of_not_le hle), List.append_assoc] at hv
        exact hwords _ hv
      · rw [KindSet.mem_toList, ← mem_noted hpos, hc.mem_noted_iff rfl, ← htake]
        rfl

/-- A syntax error of a source is reported at the token behind the longest front of the tokens that
some program begins with, and it lists the kinds of the tokens that could stand there. -/
theorem parse_unexpected {source : String} {tokens : List Token}
    (h : tokenize source = .ok tokens) {registry : Registry} {t : Token} {expected : List Kind}
    (he : parse source registry = .error (.grammatical ⟨t, .unexpected expected⟩)) :
    ∃ n, tokens[n]? = some t ∧
      IsGreatest {m | m ≤ tokens.length ∧ Viable anyProgram (tokens.take m)} n ∧
      Expects anyProgram (tokens.take n) expected := by
  have hparse : parse source registry =
      (parseTokens source tokens registry).mapError .grammatical := by
    unfold parse
    rw [h]
  rw [hparse] at he
  cases hr : parseTokens source tokens registry with
  | ok p => rw [hr] at he; cases he
  | error e =>
    rw [hr] at he
    cases he
    let input : Input := ⟨source.toList, tokens.toArray, registry, true⟩
    exact input.unexpected_ends (ended_tokenize h) hr

/-- An operand in parentheses, first read as the target of an assignment: the sign of assignment is
expected behind it, and all that may go on with an operand. -/
theorem parse_unexpected_operand : ∃ tokens t expected,
    expected = [.assign, .eq, .ne, .lt, .le, .gt, .ge, .andAnd, .orOr, .incr, .decr, .plus, .minus,
      .star, .slash, .percent, .bitAnd, .bitOr, .caret, .lparen, .rparen, .lbracket, .dot, .shl,
      .shr, .ushr] ∧
    tokenize "func f() \x7b x = a + (b ; \x7d" = .ok tokens ∧
    parse "func f() \x7b x = a + (b ; \x7d" (fun _ => none) =
      .error (.grammatical ⟨t, .unexpected expected⟩) ∧
    ∃ n, tokens[n]? = some t ∧
      IsGreatest {m | m ≤ tokens.length ∧ Viable anyProgram (tokens.take m)} n ∧
      Expects anyProgram (tokens.take n) expected := by
  have he : parse "func f() \x7b x = a + (b ; \x7d" (fun _ => none) =
      .error (.grammatical ⟨⟨.semicolon, ";", ⟨1, 23, 22⟩, 23⟩,
        .unexpected [.assign, .eq, .ne, .lt, .le, .gt, .ge, .andAnd, .orOr, .incr, .decr, .plus,
          .minus, .star, .slash, .percent, .bitAnd, .bitOr, .caret, .lparen, .rparen, .lbracket,
          .dot, .shl, .shr, .ushr]⟩) := by
    decide +kernel
  exact ⟨_, _, _, rfl, rfl, he, parse_unexpected rfl he⟩

end Botscript
