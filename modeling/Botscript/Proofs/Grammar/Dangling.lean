import Botscript.Proofs.Grammar.Shape

/-!
# Every else has a place

To give each `else` to the nearest `if` that can have it loses no word: a statement that cannot be
closed takes the `else` itself (`statement_le_closed_add_absorbing`). So the programs are the same
as those of the ambiguous grammar (`program_resolved`).
-/

namespace Botscript.Grammar

open Computability Token Parse

variable (known : Token → Prop)

/-- The forms without a limit, each `else` belonging to the nearest `if` that can have it. -/
def resolved : Forms := sentences ⟨known, true⟩

/-- The forms without a limit, each `else` belonging to any `if`. -/
def ambiguous : Forms := sentences ⟨known, false⟩

/-- `else` and a body behind it. -/
def elsePart : Language Token := tok .kwElse * body (resolved known)

/-- The statements that can take an `else` behind them. -/
def absorbing : Language Token :=
  {w | ∀ v ∈ elsePart known, w ++ v ∈ resolved known .statement}

variable {known} {L : Language Token}

theorem rules_resolved : rules ⟨known, true⟩ (resolved known) = resolved known := rules_sentences _

theorem statement_resolved : statement (resolved known) = resolved known .statement :=
  congrFun rules_resolved .statement

theorem closed_resolved : simple (resolved known) +
    ruled (resolved known) .kwWhile (closedBody (resolved known)) +
      twoWay (resolved known) (closedBody (resolved known)) = resolved known .closed :=
  congrFun rules_resolved .closed

theorem le_absorbing_iff :
    L ≤ absorbing known ↔ L * elsePart known ≤ resolved known .statement := by
  constructor
  · rintro h _ ⟨u, hu, v, hv, rfl⟩
    exact h hu v hv
  · intro h u hu v hv
    exact h (Language.append_mem_mul hu hv)

/-- What goes on with a statement goes on with one that takes an `else`, which is the same
statement's. -/
theorem mul_absorbing_le (h : L * resolved known .statement ≤ resolved known .statement) :
    L * absorbing known ≤ absorbing known := by
  rw [le_absorbing_iff, mul_assoc]
  calc L * (absorbing known * elsePart known)
      ≤ L * resolved known .statement := by
        gcongr
        exact le_absorbing_iff.1 le_rfl
    _ ≤ _ := h

/-! ## Statements by the productions -/

theorem simple_le : simple (resolved known) ≤ resolved known .closed := fun _ hw =>
  closed_resolved.le (.inl (.inl hw))

theorem closedLoop_le :
    ruled (resolved known) .kwWhile (closedBody (resolved known)) ≤ resolved known .closed :=
  fun _ hw => closed_resolved.le (.inl (.inr hw))

theorem closedBranch_le :
    twoWay (resolved known) (closedBody (resolved known)) ≤ resolved known .closed :=
  fun _ hw => closed_resolved.le (.inr hw)

theorem loop_le :
    ruled (resolved known) .kwWhile (body (resolved known)) ≤ resolved known .statement :=
  fun _ hw => statement_resolved.le (.inl (.inl (.inr hw)))

theorem oneWay_le :
    ruled (resolved known) .kwIf (body (resolved known)) ≤ resolved known .statement :=
  fun _ hw => statement_resolved.le (.inl (.inr hw))

theorem branch_le :
    twoWay (resolved known) (body (resolved known)) ≤ resolved known .statement :=
  fun _ hw => statement_resolved.le (.inr hw)

theorem ruled_add (X : Forms) (k : Kind) (L M : Language Token) :
    ruled X k (L + M) = ruled X k L + ruled X k M := by simp only [ruled, mul_add]

theorem twoWay_add (X : Forms) (L M : Language Token) :
    twoWay X (L + M) = twoWay X L + twoWay X M := by rw [twoWay, mul_add, mul_add, ruled_add]; rfl

theorem ruled_absorbing_le {k : Kind}
    (h : ruled (resolved known) k (body (resolved known)) ≤ resolved known .statement) :
    ruled (resolved known) k (absorbing known) ≤ absorbing known := by
  rw [ruled, ← mul_assoc]
  refine mul_absorbing_le ?_
  rw [mul_assoc]
  exact (ruled_mono le_rfl k le_add_self).trans h

theorem twoWay_absorbing_le : twoWay (resolved known) (absorbing known) ≤ absorbing known := by
  have hassoc : ∀ L, twoWay (resolved known) L = tok .kwIf * condition (resolved known) *
      closedBody (resolved known) * tok .kwElse * L := fun L => by
    simp only [twoWay, ruled, mul_assoc]
  rw [hassoc]
  refine mul_absorbing_le ?_
  rw [← hassoc]
  exact (twoWay_mono le_rfl le_add_self).trans branch_le

/-- An `if` without an `else` takes one. -/
theorem closedOneWay_le :
    ruled (resolved known) .kwIf (closedBody (resolved known)) ≤ absorbing known := by
  rw [le_absorbing_iff]
  refine le_trans (le_of_eq ?_) branch_le
  simp only [twoWay, ruled, elsePart, mul_assoc]

/-! ## Induction over statements -/

/-- A statement that cannot have an `else` behind it takes one itself. -/
theorem statement_le_closed_add_absorbing :
    resolved known .statement ≤ resolved known .closed + absorbing known := by
  refine sentences_form_le ?_
  -- `W` is the grammar with only those statements for which the assertion holds.
  generalize hW : narrowed (sentences ⟨known, true⟩) .statement _ = W
  have hle : W ≤ resolved known := hW ▸ narrowed_le
  have hbody : body W ≤ closedBody (resolved known) + absorbing known := by
    rw [body, closedBody, add_assoc]
    refine add_le_add (block_mono hle) ?_
    rw [← hW, narrowed_self]
    exact inf_le_right
  have hloop : ruled W .kwWhile (body W) ≤ resolved known .closed + absorbing known := by
    refine (ruled_mono hle _ hbody).trans ?_
    rw [ruled_add]
    exact add_le_add closedLoop_le (ruled_absorbing_le loop_le)
  have honeWay : ruled W .kwIf (body W) ≤ absorbing known := by
    refine (ruled_mono hle _ hbody).trans ?_
    rw [ruled_add]
    exact sup_le closedOneWay_le (ruled_absorbing_le oneWay_le)
  have hbranch : twoWay W (body W) ≤ resolved known .closed + absorbing known := by
    refine (twoWay_mono hle hbody).trans ?_
    rw [twoWay_add]
    exact add_le_add closedBranch_le twoWay_absorbing_le
  have hsimple : simple W ≤ resolved known .closed + absorbing known :=
    (simple_mono hle).trans (simple_le.trans le_self_add)
  exact sup_le (sup_le (sup_le hsimple hloop) (honeWay.trans le_add_self)) hbranch

/-- An `if` with an `else` is a statement, whatever its first body is. -/
theorem ruled_elsePart_le :
    ruled (resolved known) .kwIf (body (resolved known) * elsePart known) ≤
      resolved known .statement := by
  have hbody : body (resolved known) ≤ closedBody (resolved known) + absorbing known := by
    rw [body, closedBody, add_assoc]
    exact add_le_add le_rfl statement_le_closed_add_absorbing
  refine (ruled_mono le_rfl _ (mul_le_mul_left hbody _)).trans ?_
  rw [add_mul, ruled_add]
  refine sup_le branch_le ?_
  have habsorbing : absorbing known * elsePart known ≤ body (resolved known) :=
    (le_absorbing_iff.1 le_rfl).trans le_add_self
  exact (ruled_mono le_rfl _ habsorbing).trans oneWay_le

/-! ## The two grammars -/

theorem resolved_le_ambiguous : resolved known ≤ ambiguous known := by
  have hrules : rules ⟨known, false⟩ (ambiguous known) ≤ ambiguous known := (rules_sentences _).le
  exact sentences_le fun
    | .closed => (closed_le_statement sentences_closed_le).trans (hrules .closed)
    | .statement => hrules .statement
    | .expression => hrules .expression
    | .init => hrules .init
    | .operand => hrules .operand

/-- The forms in which every statement may have an `else` behind it. -/
def lenient (known : Token → Prop) : Forms :=
  Function.update (resolved known) .closed (resolved known .statement)

theorem statement_lenient_le : statement (lenient known) ≤ resolved known .statement := by
  have hsimple : simple (lenient known) ≤ resolved known .statement :=
    simple_le.trans sentences_closed_le
  exact sup_le (sup_le (sup_le hsimple loop_le) oneWay_le) ruled_elsePart_le

theorem ambiguous_le_lenient : ambiguous known ≤ lenient known := by
  have hrules : rules ⟨known, true⟩ (resolved known) ≤ resolved known := rules_resolved.le
  exact sentences_le fun
    | .statement => statement_lenient_le
    | .closed => statement_lenient_le
    | .expression => hrules .expression
    | .init => hrules .init
    | .operand => hrules .operand

theorem ambiguous_le {f : Form} (hf : f ≠ .closed) : ambiguous known f ≤ resolved known f :=
  (ambiguous_le_lenient f).trans (Function.update_of_ne hf ..).le

/-- To give each `else` to the nearest `if` that can have it loses no program. -/
theorem program_resolved : program (resolved known) = program (ambiguous known) := by
  have hf : ∀ f, f ≠ .closed → resolved known f = ambiguous known f := fun f hf =>
    (resolved_le_ambiguous f).antisymm (ambiguous_le hf)
  simp only [program, parameter, declarator, block]
  rw [hf .init (by simp), hf .statement (by simp)]

end Botscript.Grammar
