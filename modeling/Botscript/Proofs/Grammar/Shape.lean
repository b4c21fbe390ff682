import Botscript.Parse.Program
import Botscript.Proofs.Grammar.Rules

/-!
# What words begin with

The first token of a word tells a lot about it: `Regular` collects what holds of the forms at each
depth (`regular_limited`) and without a limit (`regular_sentences`). The parser looks at first
tokens by tables of its own, which are the operators and literals of the grammar.
-/

namespace Botscript.Grammar

open Computability Token Parse

/-! ## The tables of the parser -/

theorem literals_eq : literals = literalKinds := rfl

theorem unaryOperators_eq : unaryOperators = prefixOperators := rfl

theorem postOperators_eq : postOperators = postfixOperators := rfl

theorem binaryLevels_eq : binaryLevels = operatorLevels := rfl

/-- The kinds that an expression starts with. -/
def expressionStarts : List Kind := literals ++ [.identifier, .lparen] ++ unaryOperators

/-- The kinds that an initial value starts with. -/
def initStarts : List Kind := .lbracket :: expressionStarts

variable {d : Dialect} {X : Forms}

/-- What the first tokens of the nested forms are. -/
structure Headed (X : Forms) : Prop where
  statement : Starts (X .statement) statementStarts
  closed : Starts (X .closed) statementStarts
  expression : Starts (X .expression) expressionStarts
  init : Starts (X .init) initStarts
  operand : Starts (X .operand) expressionStarts

/-- What all families of nested forms have in common. -/
structure Regular (d : Dialect) (X : Forms) : Prop extends Headed X where
  closed_le : X .closed ≤ X .statement
  grows : X ≤ rules d X
  braces : ∀ t v, t.kind = .lbrace → t :: v ∈ X .statement → t :: v ∈ block X

/-! ## First tokens of productions -/

theorem starts_block : Starts (block X) [.lbrace] := .mul (.tok (by simp)) _

theorem starts_ruled (k : Kind) (L : Language Token) : Starts (ruled X k L) [k] :=
  .mul (.tok (by simp)) _

theorem starts_atom : Starts (atom X) (literals ++ [.identifier, .lparen]) :=
  .add (.add (.oneOf (by decide)) (.tok (by decide))) (.mul (.tok (by decide)) _)

theorem starts_primary : Starts (primary d X) (literals ++ [.identifier, .lparen]) :=
  (starts_atom.mul _).of_le inf_le_left

theorem starts_unary : Starts (unary d X) expressionStarts :=
  .add (.mul (.oneOf (by decide)) _) (.mul (starts_primary.mono (by decide)) _)

theorem starts_binary : ∀ levels, Starts (binary d X levels) expressionStarts
  | [] => starts_unary
  | _ :: tighter => (starts_binary tighter).mul _

theorem Headed.simple (h : Headed X) : Starts (simple X) statementStarts :=
  .add (.add (.add (.add (.add (starts_block.mono (by decide)) (.tok (by decide)))
    (.mul (.tok (by decide)) _)) (.mul (.tok (by decide)) _)) (.mul (.oneOf (by decide)) _))
    (.mul (h.expression.mono (by decide)) _)

theorem Headed.statement' (h : Headed X) : Starts (Grammar.statement X) statementStarts :=
  .add (.add (.add h.simple ((starts_ruled _ _).mono (by decide)))
    ((starts_ruled _ _).mono (by decide))) ((starts_ruled _ _).mono (by decide))

theorem closed_le_statement (h : X .closed ≤ X .statement) : closed d X ≤ statement X := by
  have hb : closedBody X ≤ body X := add_le_add le_rfl h
  unfold closed
  split_ifs
  · unfold statement
    have hw := ruled_mono (X := X) le_rfl .kwWhile hb
    have ht := twoWay_mono (X := X) le_rfl hb
    have hi : 0 ≤ ruled X .kwIf (body X) := zero_le
    calc simple X + ruled X .kwWhile (closedBody X) + twoWay X (closedBody X)
        = simple X + ruled X .kwWhile (closedBody X) + 0 + twoWay X (closedBody X) := by
          rw [add_zero]
      _ ≤ _ := by gcongr
  · exact le_rfl

theorem Headed.rules (h : Headed X) (hc : X .closed ≤ X .statement) : Headed (rules d X) where
  statement := h.statement'
  closed := h.statement'.of_le (closed_le_statement hc)
  expression := .add (.mul (starts_primary.mono (by decide)) _) (starts_binary _)
  init := .add (.mul (.tok (by decide)) _) (h.expression.mono (by decide))
  operand := starts_unary

/-- A statement that begins with a brace is a block. -/
theorem Headed.mem_block (h : Headed X) {t : Token} {v : List Token} (ht : t.kind = .lbrace)
    (hv : t :: v ∈ Grammar.statement X) : t :: v ∈ block X := by
  have hnot : ∀ {L : Language Token} {ks : List Kind}, Starts L ks → .lbrace ∉ ks →
      t :: v ∉ L := fun {_ ks} hs hk hm => by
    obtain ⟨u, w, he, hu⟩ := hs _ hm
    cases he
    exact hk (ht ▸ hu)
  obtain (((((((hb | hm) | hm) | hm) | hm) | hm) | hm) | hm) | hm := hv
  · exact hb
  · exact absurd hm (hnot (.tok (List.mem_singleton_self _)) (by decide))
  · exact absurd hm (hnot (.mul (.tok (List.mem_singleton_self .kwVar)) _) (by decide))
  · exact absurd hm (hnot (.mul (.tok (List.mem_singleton_self .kwReturn)) _) (by decide))
  · exact absurd hm (hnot (.mul (.oneOf (List.Subset.refl _)) _) (by decide))
  · exact absurd hm (hnot (h.expression.mul _) (by decide))
  · exact absurd hm (hnot (starts_ruled _ _) (by decide))
  · exact absurd hm (hnot (starts_ruled _ _) (by decide))
  · exact absurd hm (hnot (starts_ruled _ _) (by decide))

/-! ## First tokens that are possible -/

/-- A literal or a name is a primary. -/
theorem singleton_mem_primary {t : Token} (ht : t.kind ∈ literals ++ [.identifier]) :
    [t] ∈ primary d X := by
  refine ⟨Language.append_mem_mul (a := [t]) (b := []) (.inl ?_) (Language.nil_mem_kstar _),
    fun _ _ _ he => by cases he⟩
  rw [← oneOf_append]
  exact ⟨t, rfl, ht⟩

/-- A primary is an operand of operators of all levels. -/
theorem primary_le_binary : ∀ levels, primary d X ≤ binary d X levels
  | [] => fun w hw => .inr (by
      rw [← List.append_nil w]
      exact Language.append_mem_mul hw (.inl Language.nil_mem_one))
  | _ :: tighter => fun w hw => by
      rw [← List.append_nil w]
      exact Language.append_mem_mul (primary_le_binary tighter hw) (Language.nil_mem_kstar _)

theorem begins_primary_of_mem {k : Kind} (hk : k ∈ literals ++ [.identifier]) :
    Begins (primary d X) k :=
  ⟨⟨k, "", .origin, 0⟩, [], rfl, singleton_mem_primary hk⟩

/-- A primary may start with each of its kinds. -/
theorem begins_primary (hE : Possible (X .expression)) {k : Kind}
    (hk : k ∈ literals ++ [.identifier, .lparen]) : Begins (primary d X) k := by
  obtain hk | rfl : k ∈ literals ++ [.identifier] ∨ k = .lparen := by
    simpa [or_assoc] using hk
  · exact begins_primary_of_mem hk
  · obtain ⟨e, he⟩ := hE
    refine ⟨⟨.lparen, "", .origin, 0⟩, e ++ [⟨.rparen, "", .origin, 0⟩], rfl, ?_, ?_⟩
    · rw [← List.append_nil (_ :: _)]
      refine Language.append_mem_mul (.inr (cons_mem_oneOf_mul.2 ⟨List.mem_singleton_self _, ?_⟩))
        (Language.nil_mem_kstar _)
      exact Language.append_mem_mul he ⟨_, rfl, List.mem_singleton_self _⟩
    · rintro name opening v he hn
      obtain ⟨rfl, -⟩ := List.cons.inj he
      cases hn

/-! ## Regular forms -/

theorem Regular.rules (h : Regular d X) : Regular d (rules d X) where
  toHeaded := h.toHeaded.rules h.closed_le
  closed_le := closed_le_statement h.closed_le
  grows := rules_le h.grows
  braces _ _ ht hv := block_mono h.grows (h.toHeaded.mem_block ht hv)

theorem regular_bot : Regular d ⊥ where
  statement := .zero
  closed := .zero
  expression := .zero
  init := .zero
  operand := .zero
  closed_le := le_rfl
  grows := bot_le
  braces _ _ _ hv := absurd hv (Language.notMem_zero _)

theorem regular_limited : ∀ levels, Regular d (limited d levels)
  | 0 => regular_bot
  | levels + 1 => (regular_limited levels).rules

/-- The words that begin as they should. -/
def headed : Forms
  | .statement | .closed => {w | ∃ t v, w = t :: v ∧ t.kind ∈ statementStarts}
  | .expression | .operand => {w | ∃ t v, w = t :: v ∧ t.kind ∈ expressionStarts}
  | .init => {w | ∃ t v, w = t :: v ∧ t.kind ∈ initStarts}

theorem headed_headed : Headed headed :=
  ⟨fun _ h => h, fun _ h => h, fun _ h => h, fun _ h => h, fun _ h => h⟩

theorem Headed.le (h : Headed X) : X ≤ headed
  | .statement => h.statement
  | .closed => h.closed
  | .expression => h.expression
  | .init => h.init
  | .operand => h.operand

theorem sentences_closed_le : sentences d .closed ≤ sentences d .statement := by
  refine sentences_form_le ((closed_le_statement ?_).trans ?_)
  · rw [narrowed_self, narrowed_of_ne (by decide)]
    exact inf_le_right
  · exact (statement_mono narrowed_le).trans ((rules_sentences d).le .statement)

theorem regular_sentences : Regular d (sentences d) := by
  have hle : sentences d ≤ headed := sentences_le (headed_headed.rules le_rfl).le
  have hh : Headed (sentences d) :=
    ⟨hle .statement, hle .closed, hle .expression, hle .init, hle .operand⟩
  refine ⟨hh, sentences_closed_le, (rules_sentences d).ge, fun t v ht hv => hh.mem_block ht ?_⟩
  rwa [← rules_sentences d] at hv

end Botscript.Grammar
