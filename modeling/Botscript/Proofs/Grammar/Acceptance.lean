import Botscript.Proofs.Grammar.Statements
import Botscript.Proofs.Parse.Decision
import Botscript.Proofs.Token.Ended

/-!
# The parser accepts its grammar

At each depth the predictive parser reads the nested forms (`inner_limited`, `inner_sentences`), so
a whole run ends behind a word of the grammar or where none goes on (`Input.decided_ends`). A source
parses if and only if its tokens are a program of the grammar with a limit on nesting
(`parse_ok_iff`).
-/

namespace Botscript.Grammar

open Computability Token Parse ParseM

variable {A : Aim} {input : Input} {c : Cursor} {d : Dialect} {inner : Nested} {X : Forms}
  {Y : Language Token}

/-! ## Closing the productions -/

theorem Possible.mono {L M : Language Token} (h : Possible L) (hle : L ≤ M) : Possible M :=
  h.imp fun _ hw => hle hw

/-- One more level reads the forms one level further out. -/
theorem Inner.outer (h : Inner A input d inner X) (hf : Fits A input d) :
    Inner A input d
      ⟨inner.statementBody, inner.decidedExpression, inner.initBody, inner.operandBody⟩
      (rules d X) where
  regular := h.regular.rules
  possible hA f := (h.possible hA f).mono (h.regular.grows f)
  starts hA k hk := (h.starts hA k hk).mono (h.regular.grows .statement)
  statement := h.statementBody hf
  expression := h.decidedExpression hf
  init := h.initBody
  operand := h.unary hf

theorem Elsewhere.lost {ks : List Kind} (hY : Elsewhere input ks c Y) (hc : A.Leaves input c Y)
    (v : List Token) : input.span 0 c.pos ++ input.token c.pos :: v ∉ A.words := fun hv => by
  have hm := (hc.rest _ fun t ht _ => by cases ht; rfl).1 hv
  obtain rfl | ⟨hk, hY⟩ := hY
  · exact Language.notMem_zero _ hm
  · exact hY _ _ hm hk

/-- Without a level left, nothing is read. -/
theorem ends_failTooDeep {α : Type} {Q : α → Cursor → Prop} {ks : List Kind} {R : Language Token}
    (hY : Elsewhere input ks c Y) (hR : A.exact = false → R = Y)
    (hp : A.exact = true → Possible R) (hc : A.Leaves input c R) :
    (failTooDeep : ParseM α).Ends input c Q (A.Rejects input) :=
  ends_of_error run_failTooDeep ⟨hc.passed, fun he => (by cases he),
    fun hA => hY.lost (hR hA ▸ hc), fun t ht => (by
      cases ht
      exact ⟨rfl, fun hA => hc.exists_completion hA (hp hA)⟩)⟩

theorem inner_zero (hX : A.exact = false → X = ⊥) (hr : Regular d X)
    (hp : A.exact = true → ∀ f, Possible (X f))
    (hs : A.exact = true → ∀ k ∈ statementStarts, Begins (X .statement) k) :
    Inner A input d (Nested.predictive 0) X := by
  have hnone : ∀ f, A.exact = false → ∀ K, X f * K = 0 := fun f hA K => by
    rw [hX hA]
    exact zero_mul K
  exact {
    regular := hr
    possible := hp
    starts := hs
    statement := fun c K K' Y _ _ hK hY hc => ends_failTooDeep hY (fun hA => by
      rw [hnone _ hA, hnone _ hA, add_zero, zero_add]) (fun hA => by simp [hp hA, hK hA]) hc
    expression := fun c K Y _ hK hY hc => ends_failTooDeep hY (fun hA => by
      rw [hnone _ hA, zero_add]) (fun hA => by simp [hp hA, hK hA]) hc
    init := fun c K _ hK hc => ends_failTooDeep (.zero : Elsewhere input [] c 0) (hnone _ · K)
      (fun hA => by simp [hp hA, hK hA]) hc
    operand := fun c K _ hK hc => ends_failTooDeep (.zero : Elsewhere input [] c 0) (hnone _ · K)
      (fun hA => by simp [hp hA, hK hA]) hc }

/-- At each depth, the predictive parser reads the forms with as many levels. -/
theorem inner_limited (hf : Fits A input d) (hA : A.exact = false) :
    ∀ levels, Inner A input d (Nested.predictive levels) (limited d levels)
  | 0 => inner_zero (fun _ => rfl) regular_bot (by simp [hA]) (by simp [hA])
  | levels + 1 => (inner_limited hf hA levels).outer hf

/-! ## What words there are -/

theorem possible_expression : Possible (expression d X) := by
  have hprimary : Possible (primary d X) := (begins_primary_of_mem (k := .identifier)
    (by decide)).possible
  rw [expression_eq]
  exact possible_sup.2 (.inr (possible_mul.2 ⟨hprimary,
    possible_sup.2 (.inr (possible_mul.2 ⟨possible_opt, possible_tails _⟩))⟩))

theorem possible_sentences (f : Form) : Possible (sentences d f) := by
  have hle := (rules_sentences d).le
  have hsimple : Possible (simple (sentences d)) := by
    have : Begins (tok .semicolon) .semicolon := begins_oneOf (List.mem_singleton_self _)
    refine this.possible.mono fun w hw => ?_
    exact .inl (.inl (.inl (.inl (.inr hw))))
  have hexpression : Possible (sentences d .expression) :=
    possible_expression.mono (hle .expression)
  cases f with
  | statement => exact hsimple.mono fun w hw => hle .statement (.inl (.inl (.inl hw)))
  | closed =>
    refine hsimple.mono (le_trans ?_ (hle .closed))
    change _ ≤ closed d _
    unfold closed
    split_ifs
    · exact fun w hw => .inl (.inl hw)
    · exact fun w hw => .inl (.inl (.inl hw))
  | expression => exact hexpression
  | init => exact hexpression.mono fun w hw => hle .init (.inr hw)
  | operand =>
    have hprimary : Begins (primary d (sentences d)) .identifier :=
      begins_primary_of_mem (by decide)
    exact (hprimary.mul possible_opt).possible.mono fun w hw => hle .operand (.inr hw)

theorem begins_marked {N W I : Language Token} (hE : Possible (X .expression)) (hN : Possible N)
    (hW : Possible W) (hI : Possible I) {k : Kind} (hk : k ∈ marks) :
    Begins (marked X N W I) k := by
  suffices h : Possible ((marked X N W I).leftQuotient [⟨k, "", .origin, 0⟩]) by
    obtain ⟨v, hv⟩ := h
    exact ⟨_, v, rfl, hv⟩
  rw [leftQuotient_marked]
  simp only [marks, List.mem_cons, List.not_mem_nil, or_false] at hk
  obtain rfl | rfl | rfl | rfl | rfl | rfl | rfl | rfl := hk <;>
    simp [condition, declarator, *]

theorem begins_expression (hX : ∀ f, Possible (X f)) {k : Kind} (hk : k ∈ expressionStarts) :
    Begins (expression d X) k := by
  rw [expression_eq]
  obtain hk | hk := List.mem_append.1 hk
  · refine ((begins_primary (hX _) hk).mul (M := _ + _) ?_).mono le_add_self
    exact possible_sup.2 (.inr (possible_mul.2 ⟨possible_opt, possible_tails _⟩))
  · refine ((begins_oneOf hk).mul ?_).mono le_self_add
    exact possible_mul.2 ⟨hX _, possible_tails _⟩

/-- A statement may start with each of its kinds. -/
theorem begins_sentences (hd : d.nearestElse = true) {k : Kind} (hk : k ∈ statementStarts) :
    Begins (sentences d .statement) k := by
  have hX := possible_sentences (d := d)
  have hle := (rules_sentences d).le
  have hstatement := statement_then (X := sentences d) hd 1 0
  rw [mul_one, mul_zero, add_zero, add_zero] at hstatement
  refine Begins.mono ?_ (hle .statement)
  change Begins (statement _) k
  rw [hstatement]
  by_cases hm : k ∈ marks
  · exact (begins_marked (hX _) (by simp) (by simp [body, block]) (by simp [afterIf, body, block])
      hm).mono le_self_add
  · have hk' : k ∈ expressionStarts := (by decide :
      ∀ k ∈ statementStarts, k ∉ marks → k ∈ expressionStarts) k hk hm
    exact (((begins_expression hX hk').mono (hle .expression)).mul (by simp)).mono le_add_self

/-- At each depth, the predictive parser expects what could come without a limit. -/
theorem inner_sentences (hf : Fits A input d) (hA : A.exact = true) :
    ∀ levels, Inner A input d (Nested.predictive levels) (sentences d)
  | 0 => inner_zero (by simp [hA]) regular_sentences (fun _ => possible_sentences)
      fun _ _ hk => begins_sentences hf.nearest hk
  | levels + 1 => rules_sentences d ▸ (inner_sentences hf hA levels).outer hf

/-! ## Whole programs -/

/-- Nothing is read yet. -/
theorem Aim.leaves_initial (A : Aim) (input : Input) : A.Leaves input .initial A.words where
  tidy := ⟨Nat.zero_le _, le_rfl, fun s _ => by simp [Cursor.initial]⟩
  passed i hi := absurd hi (Nat.not_lt_zero i)
  rest v _ := by simp [Cursor.initial, Input.span]
  viable _ k hk := absurd hk (Token.KindSet.not_mem_empty k)

end Botscript.Grammar

namespace Botscript

open Grammar Parse Token

/-! ## Acceptance -/

namespace Token.Ended

variable {input : Input} {n : Nat}

theorem token_eq_getElem {i : Nat} (hi : i < input.tokens.toList.length) :
    input.token i = input.tokens.toList[i] := by
  unfold Input.token
  rw [Array.getElem?_eq_getElem (by simpa using hi), Array.getElem_toList]

theorem span_zero (input : Input) (n : Nat) : input.span 0 n = input.tokens.toList.take n := by
  unfold Input.span
  rw [Array.toList_extract, List.extract, List.drop_zero, Nat.sub_zero]

variable (h : Ended input.tokens.toList)

include h

/-- If no end of input comes before an index, there is a token of that index. -/
theorem lt_length (hn : ∀ i < n, input.kind i ≠ .endOfInput) : n < input.tokens.toList.length := by
  obtain ⟨body, last, ht, hlast, -⟩ := h
  by_contra hge
  have hlen : body.length < input.tokens.toList.length := by simp [ht]
  refine hn body.length (hlen.trans_le (Nat.le_of_not_lt hge)) ?_
  rw [Input.kind, token_eq_getElem hlen, List.getElem_of_eq ht, List.getElem_concat_length rfl]
  exact hlast

theorem take_split {m : Nat} (hn : ∀ i < n, input.kind i ≠ .endOfInput) (hm : n < m) :
    input.tokens.toList.take m =
      input.span 0 n ++ input.token n :: (input.tokens.toList.take m).drop (n + 1) := by
  have hlt := h.lt_length hn
  have hlt' : n < (input.tokens.toList.take m).length := by
    rw [List.length_take]
    exact Nat.lt_min.2 ⟨hm, hlt⟩
  have htoken : input.token n = (input.tokens.toList.take m)[n] := by
    rw [List.getElem_take, token_eq_getElem hlt]
  have hspan : input.span 0 n = (input.tokens.toList.take m).take n := by
    rw [List.take_take, min_eq_left hm.le, span_zero]
  rw [htoken, hspan, List.cons_getElem_drop_succ, List.take_append_drop]

theorem split (hn : ∀ i < n, input.kind i ≠ .endOfInput) :
    input.tokens.toList = input.span 0 n ++ input.token n :: input.tokens.toList.drop (n + 1) := by
  have htake := h.take_split hn (h.lt_length hn)
  rwa [List.take_length] at htake

/-- The only end of input is the last token. -/
theorem split_end (hn : ∀ i < n, input.kind i ≠ .endOfInput) (hk : input.kind n = .endOfInput) :
    input.tokens.toList = input.span 0 n ++ [input.token n] := by
  have hlt := h.lt_length hn
  rw [h.split hn]
  obtain ⟨body, last, ht, hlast, hbody⟩ := h
  suffices hdrop : input.tokens.toList.drop (n + 1) = [] by rw [hdrop]
  rw [List.drop_eq_nil_iff]
  by_contra hle
  have hn' : n < body.length := by
    rw [ht, List.length_append] at hle
    simpa using hle
  rw [Input.kind, token_eq_getElem hlt, List.getElem_of_eq ht, List.getElem_append_left hn'] at hk
  exact hbody _ (List.getElem_mem hn') hk

end Token.Ended

namespace Grammar

/-- The dialect of a registry: the functions it knows may be called, and each `else` belongs to the
nearest `if` that can have it. -/
def dialect (registry : Registry) : Dialect := ⟨fun name => (registry name.image).isSome, true⟩

end Grammar

namespace Parse.Input

/-- A run of the predictive parser ends in front of the end of input, or it stops where nothing goes
on. -/
theorem decided_ends {input : Input} {A : Aim} {X : Forms} {d : Dialect}
    (h : Inner A input.remembering d (Nested.predictive maxNesting) X)
    (hA : A.words = Grammar.program X) :
    (Nested.predictive maxNesting).program.Ends input.remembering .initial
      (fun _ c => A.Leaves input.remembering c (tok .endOfInput) ∧ input.kind c.pos = .endOfInput)
      (A.Rejects input.remembering) :=
  h.program_ends (hA ▸ A.leaves_initial _)

/-- The tokens of an input are parsed if and only if they are a program of the grammar. -/
theorem accepts_iff {input : Input} (h : Ended input.tokens.toList) :
    (∃ p, input.parse = .ok p) ↔
      input.tokens.toList ∈ Grammar.program (limited (dialect input.registry) maxNesting) := by
  let A : Aim := ⟨Grammar.program (limited (dialect input.registry) maxNesting), false⟩
  have hf : Fits A input.remembering (dialect input.registry) :=
    ⟨rfl, rfl, fun _ => id, fun _ t ht => by simp_all [dialect], fun hA => by cases hA⟩
  have hends := Input.decided_ends (inner_limited hf rfl maxNesting) rfl
  rw [Input.parse_eq, Input.decided]
  cases hrun : (Nested.predictive maxNesting).program.run input.remembering .initial with
  | ok p c =>
    obtain ⟨hc, hk⟩ := hends.ok hrun
    have hend : [input.token c.pos] ∈ tok .endOfInput := ⟨_, rfl, List.mem_singleton.2 hk⟩
    have hword : input.span 0 c.pos ++ [input.token c.pos] ∈ A.words :=
      (hc.rest [input.token c.pos] fun t ht _ => by cases ht; rfl).2 hend
    rw [← h.split_end hc.passed hk] at hword
    exact iff_of_true ⟨p, rfl⟩ hword
  | error e c =>
    have hr := hends.error hrun
    have hlost : input.span 0 c.pos ++ input.token c.pos :: input.tokens.toList.drop (c.pos + 1) ∉
      A.words := hr.lost rfl _
    rw [← h.split hr.passed] at hlost
    exact iff_of_false (fun ⟨p, hp⟩ => by cases hp) hlost

end Parse.Input

/-- A source is parsed if and only if its tokens are a program of the grammar: each call of a name
is one of a known function, each `else` belongs to the nearest `if` that can have it, and no more
than a hundred forms are nested. -/
theorem parse_ok_iff {source : String} {tokens : List Token} (h : tokenize source = .ok tokens)
    (registry : Registry) : (∃ p, parse source registry = .ok p) ↔
      tokens ∈ Grammar.program (limited (dialect registry) 100) := by
  have hparse : parse source registry =
      (parseTokens source tokens registry).mapError .grammatical := by
    unfold parse
    rw [h]
  have haccepts : (∃ p, parseTokens source tokens registry = .ok p) ↔
      tokens ∈ Grammar.program (limited (dialect registry) maxNesting) :=
    Parse.Input.accepts_iff (ended_tokenize h)
  have hlimit : maxNesting = 100 := rfl
  rw [hparse, ← hlimit, ← haccepts]
  cases parseTokens source tokens registry <;> simp [Except.mapError]

/-- Initial values in brackets, operators of several levels, a call, and an `else` that belongs to
the inner `if`. -/
theorem parse_ok_iff_dangling : ∃ tokens,
    tokenize
        "func f(b[] = [1, -2,]) \x7b if (!b) if (b < 1) g(b[0]); else a = b++ * 2 - 1; \x7d" =
      .ok tokens ∧
    parse
        "func f(b[] = [1, -2,]) \x7b if (!b) if (b < 1) g(b[0]); else a = b++ * 2 - 1; \x7d"
        (FunctionTable.withNames ["g"]).registry =
      .ok ⟨"f", [⟨"b", 1, some "[ 1 , - 2 , ]"⟩], [.branch "! b"
        [.branch "b < 1" [.call ⟨"g", "b[0]"⟩] [.procedure "a = b ++ * 2 - 1;"]] []]⟩ ∧
    tokens ∈ Grammar.program
      (limited (dialect (FunctionTable.withNames ["g"]).registry) 100) := by
  have hparse : parse
      "func f(b[] = [1, -2,]) \x7b if (!b) if (b < 1) g(b[0]); else a = b++ * 2 - 1; \x7d"
      (FunctionTable.withNames ["g"]).registry =
        .ok ⟨"f", [⟨"b", 1, some "[ 1 , - 2 , ]"⟩], [.branch "! b"
          [.branch "b < 1" [.call ⟨"g", "b[0]"⟩] [.procedure "a = b ++ * 2 - 1;"]] []]⟩ := by
    decide +kernel
  exact ⟨_, rfl, hparse, (parse_ok_iff rfl _).1 ⟨_, hparse⟩⟩

end Botscript
