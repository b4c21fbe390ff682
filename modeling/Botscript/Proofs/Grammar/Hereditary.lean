import Botscript.Proofs.Grammar.Rules

/-!
# What all expressions are made of

A language is `Hereditary` if it has the tokens that expressions are made of and whatever is put
together from its words. Such a language has all expressions and initial values
(`Hereditary.sentences_le`) and the statements that are made of them (`Hereditary.plain_le`). One of
these languages leaves out the end of input (`hereditary_endless`).
-/

namespace Botscript.Grammar

open Computability Token

/-- A language that has all marks but parentheses, and what is put together from its words, also in
parentheses. -/
structure Hereditary (K : Language Token) : Prop where
  one : 1 ≤ K
  mul : K * K ≤ K
  mark : ∀ k, k ∉ [Kind.lparen, .rparen, .endOfInput] → tok k ≤ K
  parens : tok .lparen * (K * tok .rparen) ≤ K

namespace Hereditary

variable {K L M : Language Token} {ks : List Kind} {d : Dialect} {X : Forms} (hK : Hereditary K)

include hK

theorem mul_le (hL : L ≤ K) (hM : M ≤ K) : L * M ≤ K := (mul_le_mul' hL hM).trans hK.mul

theorem opt_le (hL : L ≤ K) : opt L ≤ K := sup_le hK.one hL

theorem star_le (hL : L ≤ K) : L∗ ≤ K := kstar_le_of_mul_le_left hK.one (hK.mul_le le_rfl hL)

theorem oneOf_le (h : ∀ k ∈ ks, k ∉ [Kind.lparen, .rparen, .endOfInput]) : oneOf ks ≤ K := by
  rintro _ ⟨t, rfl, ht⟩
  exact hK.mark t.kind (h _ ht) ⟨t, rfl, List.mem_singleton_self _⟩

theorem sepBy_le (hL : L ≤ K) : sepBy L ≤ K :=
  hK.mul_le hL (hK.star_le (hK.mul_le (hK.oneOf_le (by decide)) hL))

theorem parens_le (hL : L ≤ K) : tok .lparen * (L * tok .rparen) ≤ K :=
  (mul_le_mul' le_rfl (mul_le_mul' hL le_rfl)).trans hK.parens

/-! ## Expressions -/

variable (hE : X .expression ≤ K) (hI : X .init ≤ K) (hO : X .operand ≤ K)

section Expressions

include hE

theorem primary_le : primary d X ≤ K := by
  have hindexing : indexing X ≤ K :=
    hK.mul_le (hK.oneOf_le (by decide)) (hK.mul_le hE (hK.oneOf_le (by decide)))
  have hmember : member ≤ K := hK.mul_le (hK.oneOf_le (by decide)) (hK.oneOf_le (by decide))
  have hsuffix : suffix X ≤ K :=
    sup_le (sup_le hindexing hmember) (hK.parens_le (hK.opt_le (hK.sepBy_le hE)))
  have hatom : atom X ≤ K :=
    sup_le (sup_le (hK.oneOf_le (by decide)) (hK.oneOf_le (by decide))) (hK.parens_le hE)
  exact inf_le_left.trans (hK.mul_le hatom (hK.star_le hsuffix))

include hO

theorem unary_le : unary d X ≤ K :=
  sup_le (hK.mul_le (hK.oneOf_le (by decide)) hO)
    (hK.mul_le (hK.primary_le hE) (hK.opt_le (hK.oneOf_le (by decide))))

theorem binary_le : ∀ levels : List (List Kind),
    (∀ k ∈ levels.flatten, k ∉ [Kind.lparen, .rparen, .endOfInput]) → binary d X levels ≤ K
  | [], _ => hK.unary_le hE hO
  | operators :: tighter, h => by
    have htighter := binary_le tighter fun k hk => h k (List.mem_append_right _ hk)
    have hoperators : oneOf operators ≤ K :=
      hK.oneOf_le fun k hk => h k (List.mem_append_left _ hk)
    exact hK.mul_le htighter (hK.star_le (hK.mul_le hoperators htighter))

include hI

theorem expression_le : expression d X ≤ K :=
  sup_le (hK.mul_le (hK.primary_le hE) (hK.mul_le (hK.oneOf_le (by decide)) hI))
    (hK.binary_le hE hO _ (by decide))

omit hO in
theorem init_le : init X ≤ K := by
  have hinits : inits X ≤ K :=
    hK.mul_le (hK.sepBy_le hI) (hK.opt_le (hK.oneOf_le (by decide)))
  exact sup_le (hK.mul_le (hK.oneOf_le (by decide))
    (hK.mul_le (hK.opt_le hinits) (hK.oneOf_le (by decide)))) hE

omit hO in
/-- Declarations, jumps and expressions as statements. -/
theorem plain_le : declaration X + result X + jump + evaluation X ≤ K := by
  have hsemicolon : tok .semicolon ≤ K := hK.oneOf_le (by decide)
  have hpairs : (tok .lbracket * tok .rbracket)∗ ≤ K :=
    hK.star_le (hK.mul_le (hK.oneOf_le (by decide)) (hK.oneOf_le (by decide)))
  have hassigned : opt (tok .assign * X .init) ≤ K :=
    hK.opt_le (hK.mul_le (hK.oneOf_le (by decide)) hI)
  have hdeclarator : declarator X ≤ K :=
    hK.mul_le (hK.oneOf_le (by decide)) (hK.mul_le hpairs hassigned)
  refine sup_le (sup_le (sup_le ?_ ?_) ?_) (hK.mul_le hE hsemicolon)
  · exact hK.mul_le (hK.oneOf_le (by decide)) (hK.mul_le (hK.sepBy_le hdeclarator) hsemicolon)
  · exact hK.mul_le (hK.oneOf_le (by decide)) (hK.mul_le (hK.opt_le hE) hsemicolon)
  · exact hK.mul_le (hK.oneOf_le (by decide)) hsemicolon

end Expressions

end Hereditary

/-- The words of a language for the forms inside an expression, and all words for statements. -/
def insideForms (K : Language Token) : Forms
  | .statement | .closed => ⊤
  | .expression | .init | .operand => K

variable {K : Language Token}

theorem Hereditary.rules_le (hK : Hereditary K) (d : Dialect) :
    rules d (insideForms K) ≤ insideForms K
  | .statement | .closed => le_top
  | .expression => hK.expression_le (X := insideForms K) le_rfl le_rfl le_rfl
  | .init => hK.init_le (X := insideForms K) le_rfl le_rfl
  | .operand => hK.unary_le (X := insideForms K) le_rfl le_rfl

/-- A hereditary language has all expressions and initial values. -/
theorem Hereditary.sentences_le (hK : Hereditary K) (d : Dialect) :
    sentences d .expression ≤ K ∧ sentences d .init ≤ K :=
  have hle := Grammar.sentences_le (hK.rules_le d)
  ⟨hle .expression, hle .init⟩

/-! ## The end of input -/

/-- The words without an end of input. -/
def endless : Language Token := {w | ∀ t ∈ w, t.kind ≠ .endOfInput}

theorem hereditary_endless : Hereditary endless := by
  have hmul : endless * endless ≤ endless := by
    rintro _ ⟨u, hu, v, hv, rfl⟩
    exact List.forall_mem_append.2 ⟨hu, hv⟩
  have htok : ∀ k, k ≠ .endOfInput → tok k ≤ endless := by
    rintro k hk _ ⟨t, rfl, ht⟩
    exact List.forall_mem_singleton.2 fun he => hk (List.mem_singleton.1 ht ▸ he)
  exact
    { one := fun w hw => (Language.mem_one w).1 hw ▸ fun _ ht => absurd ht List.not_mem_nil
      mul := hmul
      mark := fun k hk => htok k fun he => hk (by simp [he])
      parens := (mul_le_mul' (htok _ (by decide))
        ((mul_le_mul' le_rfl (htok _ (by decide))).trans hmul)).trans hmul }

end Botscript.Grammar
