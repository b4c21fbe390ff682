import Mathlib.Tactic.Abel
import Botscript.Proofs.Grammar.Primary

/-!
# Reading expressions and initial values

The productions of the predictive parser from operands to declarators read the words of the
grammar.
-/

namespace Botscript.Grammar

open Computability Token Parse ParseM

variable {A : Aim} {input : Input} {d : Dialect} {inner : Nested} {X : Forms}

/-- What stands behind the first operand of operands and operators. -/
def tails (d : Dialect) (X : Forms) : List (List Kind) → Language Token
  | [] => 1
  | operators :: tighter => tails d X tighter * (oneOf operators * binary d X tighter)∗

theorem binary_eq_tails (levels : List (List Kind)) :
    binary d X levels = unary d X * tails d X levels := by
  induction levels with
  | nil => rw [binary, tails, mul_one]
  | cons operators tighter ih => rw [binary, tails, ih, mul_assoc]

/-- An expression with the tables of the parser. -/
theorem expression_eq : expression d X =
    oneOf unaryOperators * (X .operand * tails d X binaryLevels) + primary d X *
      (tok .assign * X .init + opt (oneOf postOperators) * tails d X binaryLevels) := by
  simp only [expression, binary_eq_tails, unary, unaryOperators_eq, postOperators_eq,
    binaryLevels_eq, add_mul, mul_add, mul_assoc]
  exact add_left_comm _ _ _

theorem nodup_tighter {operators : List Kind} {tighter : List (List Kind)}
    (hnodup : (behindOperand ++ (operators :: tighter).flatten).Nodup) :
    (behindOperand ++ tighter.flatten).Nodup := by
  rw [List.flatten_cons, ← List.append_assoc] at hnodup
  exact hnodup.sublist ((List.sublist_append_left _ _).append_right _)

theorem possible_tails (levels : List (List Kind)) : Possible (tails d X levels) := by
  induction levels with
  | nil => exact possible_one
  | cons operators tighter ih => simp [tails, ih]

/-- Behind the first operand, only operators come before what may follow. -/
theorem avoids_tails {K : Language Token} {ks : List Kind} (hK : Avoids K ks) :
    ∀ levels : List (List Kind), (∀ k ∈ levels.flatten, k ∉ ks) → Avoids (tails d X levels * K) ks
  | [], _ => by rwa [tails, one_mul]
  | operators :: tighter, hd => by
    rw [tails, mul_assoc]
    refine avoids_tails (.star_mul ?_ hK) tighter fun k hk => hd k (List.mem_append_right _ hk)
    rw [mul_assoc]
    exact .oneOf_mul (fun k hk => hd k (List.mem_append_left _ hk)) _

namespace Inner

variable (h : Inner A input d inner X) (hf : Fits A input d)

include h hf

theorem unary : Reads A input inner.unary (unary d X) behindOperand := by
  refine .eatAnyElse (by decide) h.operand ?_ (fun hA => h.possible hA _) fun K _ =>
    ((starts_primary.mul _).mul K).avoids (by decide)
  refine (h.primary hf).reads.bind (fun _ => ((Reads.eatAny (by decide)).before fun _ _ =>
    ⟨(), rfl⟩).mono (List.subset_append_right _ _)) (by simp) fun K hK => .opt_mul ?_ ?_
  · exact .oneOf_mul (by decide) _
  · exact hK.mono (List.subset_append_left _ _)

omit hf in
theorem possible_unary (hA : A.exact = true) : Possible (Grammar.unary d X) := by
  rw [Grammar.unary, add_eq_sup]
  simp [h.possible hA, prefixOperators]

omit hf in
theorem possible_binary (hA : A.exact = true) : ∀ levels, Possible (Grammar.binary d X levels)
  | [] => h.possible_unary hA
  | _ :: tighter => by simp [Grammar.binary, possible_binary hA tighter]

omit hf in
/-- Operators of one level, with tighter operators and operands. -/
theorem level {operators : List Kind} {tighter : List (List Kind)}
    (hnodup : (behindOperand ++ (operators ++ tighter.flatten)).Nodup)
    (he : .endOfInput ∉ operators)
    (hbinary : Reads A input (inner.binary tighter) (Grammar.binary d X tighter)
      (behindOperand ++ tighter.flatten)) {m : ParseM Unit} {L : Language Token}
    (hm : Reads A input m L (behindOperand ++ tighter.flatten)) :
    Reads A input (do
        m
        let _ ← many do if ← eatAny operators then some <$> inner.binary tighter else return none)
      (L * (oneOf operators * Grammar.binary d X tighter)∗)
      (behindOperand ++ (operators ++ tighter.flatten)) := by
  obtain ⟨-, htight, hne⟩ := List.nodup_append.1 hnodup
  have hd : ∀ k ∈ operators, k ∉ behindOperand ++ tighter.flatten := by
    intro k hk hmem
    obtain hmem | hmem := List.mem_append.1 hmem
    · exact hne k hmem k (List.mem_append_left _ hk) rfl
    · exact (List.nodup_append.1 htight).2.2 k hk k hmem rfl
  have hmany := Reads.manyBehind he hbinary (fun hA => h.possible_binary hA _) hd
  have hsub : operators ++ (behindOperand ++ tighter.flatten) ⊆
      behindOperand ++ (operators ++ tighter.flatten) := by
    intro k
    simp only [List.mem_append]
    tauto
  refine hm.bind (fun _ => (hmany.before fun _ _ => ⟨(), rfl⟩).mono hsub) (by simp) fun K hK => ?_
  refine .star_mul ?_ (hK.mono (List.Subset.trans (List.subset_append_right _ _) hsub))
  rw [mul_assoc]
  exact .oneOf_mul hd _

theorem binary : ∀ levels, (behindOperand ++ levels.flatten).Nodup →
    .endOfInput ∉ levels.flatten →
      Reads A input (inner.binary levels) (Grammar.binary d X levels)
        (behindOperand ++ levels.flatten)
  | [], _, _ => (h.unary hf).mono (List.subset_append_left _ _)
  | _ :: tighter, hnodup, he =>
    have htighter := binary tighter (nodup_tighter hnodup) fun hm =>
      he (List.mem_append_right _ hm)
    h.level hnodup (fun hm => he (List.mem_append_left _ hm)) htighter htighter

theorem tails : ∀ levels, (behindOperand ++ levels.flatten).Nodup →
    .endOfInput ∉ levels.flatten →
      Reads A input (inner.tails levels) (Grammar.tails d X levels)
        (behindOperand ++ levels.flatten)
  | [], _, _ => (Reads.pure ()).mono (List.nil_subset _)
  | _ :: tighter, hnodup, he =>
    have hout : .endOfInput ∉ tighter.flatten := fun hm => he (List.mem_append_right _ hm)
    h.level hnodup (fun hm => he (List.mem_append_left _ hm))
      (h.binary hf tighter (nodup_tighter hnodup) hout) (tails tighter (nodup_tighter hnodup) hout)

theorem tailsOfAll : Reads A input (inner.tails binaryLevels) (Grammar.tails d X binaryLevels)
    behindExpression :=
  (h.tails hf binaryLevels (by decide) (by decide)).mono (List.subset_append_left _ _)

theorem afterPrimary : Reads A input inner.afterPrimary
    (tok .assign * X .init + opt (oneOf postOperators) * Grammar.tails d X binaryLevels)
    behindExpression := by
  have hoperators : ∀ k ∈ postOperators, k ∈ behindExpression := by decide
  refine .eatElse (by decide) h.init ?_ (fun hA => h.possible hA _) fun K hK => ?_
  · refine (Reads.eatAny (by decide)).bind (fun _ => h.tailsOfAll hf)
      (fun _ => possible_tails _) fun K hK => ?_
    exact avoids_tails (hK.mono hoperators) _ (by decide)
  · rw [mul_assoc]
    exact .opt_mul (.oneOf_mul (by decide) _) (avoids_tails (hK.mono (by decide)) _ (by decide))

/-- The parser's expressions are those of the grammar. -/
theorem decidedExpression : ReadsAmong A input inner.decidedExpression expressionStarts
    (Grammar.expression d X) behindExpression := fun c K Y hK hp hY hc => by
  have hoperand : Reads A input (do inner.operand; inner.tails binaryLevels)
      (X .operand * Grammar.tails d X binaryLevels) behindExpression :=
    h.operand.bind (fun _ => h.tailsOfAll hf) (fun _ => possible_tails _) fun K hK =>
      avoids_tails (hK.mono (by decide)) _ (by decide)
  have hprimary := (h.primary hf).bind (fun _ => h.afterPrimary hf)
    (fun hA => by simp [h.possible hA]) fun K hK => by
      rw [add_mul, mul_assoc, mul_assoc]
      exact .add (.tok_mul (by decide) _) (.opt_mul (.oneOf_mul (by decide) _)
        (avoids_tails (hK.mono (by decide)) _ (by decide)))
  rw [expression_eq, add_mul, mul_assoc, add_assoc] at hc
  refine ends_bind (ends_eatAny (by decide) hc (.add ?_ (hY.avoids.mono (by decide))) (fun hA => ?_)
    (fun _ h' => ?_) fun hk h' => ?_)
  · exact ((starts_primary.mul _).mul K).avoids (by decide)
  · exact possible_mul.2 ⟨possible_mul.2 ⟨h.possible hA _, possible_tails _⟩, hp hA⟩
  · refine (hoperand _ K hK hp h').mono (fun _ _ hd => ⟨?_, hd.2⟩) fun _ _ hd => hd
    have hle := hd.1
    rw [Cursor.next_pos, Cursor.noteAll_pos] at hle
    exact (Nat.le_succ _).trans hle
  · have hY' : Elsewhere input (literals ++ [.identifier, .lparen])
        (c.noteAll unaryOperators) Y := by
      have hrest := hY.others (literals ++ [.identifier, .lparen]) hk (by decide) (by decide)
      rwa [Elsewhere, Cursor.noteAll_pos]
    refine (hprimary _ K Y hK hp hY' h').mono (fun _ _ hd => ⟨?_, hd.2⟩) fun _ _ hd => hd
    simpa using hd.1

/-! ## Initial values and declarators -/

/-- What may stand behind an initial value in brackets. -/
def behindInit (X : Forms) (K : Language Token) : Language Token :=
  (tok .comma * X .init)∗ * (opt (tok .comma) * (tok .rbracket * K))

omit h hf in
theorem behindInit_eq (K : Language Token) : behindInit X K =
    tok .comma * (tok .rbracket * K + X .init * behindInit X K) + tok .rbracket * K := by
  conv_lhs => rw [behindInit, star_mul, ← behindInit, opt, add_mul, one_mul]
  rw [mul_add, mul_assoc]
  abel

omit h hf in
theorem avoids_behindInit (K : Language Token) : Avoids (behindInit X K) behindExpression := by
  refine .star_mul ?_ (.opt_mul (.tok_mul (by decide) _) (.tok_mul (by decide) _))
  rw [mul_assoc]
  exact .tok_mul (by decide) _

omit hf in
/-- Initial values and perhaps a comma leave their closing bracket. -/
theorem inits_ends {c : Cursor} {K : Language Token} (hp : A.exact = true → Possible K)
    (hc : A.Leaves input c (inits X * (tok .rbracket * K))) :
    inner.inits.Ends input c (fun _ c' => c.pos ≤ c'.pos ∧ A.Awaits input .rbracket K c')
      (A.Rejects input) := by
  have hpW : A.exact = true → Possible (behindInit X K) := fun hA => by simp [behindInit, hp hA]
  have hclosing : Avoids (tok .rbracket * K) [.comma] := .tok_mul (by decide) K
  have hvalue : Avoids (X .init * behindInit X K) [.rbracket] :=
    (h.regular.init.mul _).avoids (by decide)
  rw [inits, sepBy, mul_assoc, mul_assoc, ← behindInit] at hc
  refine ends_bind ((h.init c _ (avoids_behindInit K) hpW hc).mono (fun _ c₁ hc₁ => ?_)
    fun _ _ h' => h')
  refine ends_bind ((ends_many (I := fun _ e => c.pos ≤ e.pos ∧ A.Leaves input e (behindInit X K))
    (fun _ e he => he.2.tidy.bounded) (fun _ e he => ?_) hc₁).mono (fun _ c₂ hc₂ => ends_pure hc₂)
    fun _ _ h' => h')
  obtain ⟨hle, he⟩ := he
  rw [behindInit_eq] at he
  refine ends_bind (ends_eat (by decide) he hclosing (fun hA => by simp [hp hA])
    (fun _ he₁ => ?_) fun _ he₁ => ?_)
  · refine ends_bind (ends_check (ends_ite (fun hk => ?_) fun hk => ?_))
    · have hk := of_decide_eq_true hk
      exact ends_pure ⟨hle.trans (Nat.le_succ _), fun _ => (he₁.noted_oneOf hp).taken hvalue hp
        (by decide) (List.mem_singleton.2 hk), fun hne => absurd hk hne⟩
    · have hleft := he₁.left hp fun hm => hk (decide_eq_true (List.mem_singleton.1 hm))
      refine ends_map ((h.init _ _ (avoids_behindInit K) hpW hleft).mono (fun _ e' he' => ?_)
        fun _ _ h' => h')
      have hlt : e.pos + 1 ≤ e'.pos := he'.1
      exact ⟨⟨by omega, he'.2⟩, hlt⟩
  · exact ends_pure ⟨hle, he₁.awaits (by decide) hp⟩

omit hf in
theorem initBody : Reads A input inner.initBody (Grammar.init X) behindExpression := by
  have hlist : Reads A input (upTo .rbracket inner.inits) (opt (inits X) * tok .rbracket) [] :=
    .upTo (by decide) (fun K => ((h.regular.init.sepBy.mul _).mul K).avoids (by decide))
      fun _ _ hp hc => h.inits_ends hp hc
  exact .eatElse (by decide) ((hlist.before fun _ _ => ⟨(), rfl⟩).mono (List.nil_subset _))
    h.expression.reads (fun _ => by simp) fun K _ => (h.regular.expression.mul K).avoids (by decide)

omit hf in
theorem initText? :
    Reads A input inner.initText? (opt (tok .assign * X .init)) behindExpression := by
  rw [opt, add_comm]
  refine .eatElse (by decide) (.after (fun c => ⟨c.pos, rfl⟩) fun start => ?_)
    ((Reads.pure none).mono (List.nil_subset _)) (fun hA => h.possible hA _) fun K hK => ?_
  · exact h.init.before fun _ _ => ⟨_, rfl⟩
  · rw [one_mul]
    exact hK.mono (by decide)

omit hf in
theorem declarator : Reads A input inner.declarator (Grammar.declarator X) behindExpression := by
  have hpairs : Reads A input (many Nested.dimension?) (tok .lbracket * tok .rbracket)∗
      [.lbracket] := .manyAfter (by decide) (.expect (by decide)) (by simp) (by simp)
  refine .expectThen (by decide) (fun _ => hpairs.bind (fun _ =>
    h.initText?.before fun _ _ => ⟨_, rfl⟩) (by simp) fun K hK => ?_) (by simp)
  exact .opt_mul (by rw [mul_assoc]; exact .tok_mul (by decide) _) (hK.mono (by decide))

omit hf in
theorem parameter : Reads A input inner.parameter (Grammar.parameter X) behindExpression := by
  have heat : Reads A input (eat .kwVar) (opt (tok .kwVar)) [.kwVar] := by
    rw [eat_eq_eatAny]
    exact .eatAny (by decide)
  have hp : A.exact = true → Possible (Grammar.declarator X) := fun _ => by
    simp [Grammar.declarator]
  refine heat.bind (fun _ => h.declarator) hp fun K _ => ?_
  rw [Grammar.declarator, mul_assoc]
  exact .tok_mul (by decide) _

end Inner

end Botscript.Grammar
