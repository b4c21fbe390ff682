import Mathlib.Tactic.Abel
import Botscript.Proofs.Grammar.Factors
import Botscript.Proofs.Grammar.Shape

/-!
# Lists of initial values

Initial values in brackets may have a comma behind the last one. In the `loose` grammar the two are
independent of each other: a comma may also stand in brackets all by itself, and nothing else is
added (`looseInit_eq`). The grammar of the parser has just those words of it in which no opening
bracket has a comma right behind it (`limited_eq`, `program_limited_eq`).
-/

namespace Botscript.Grammar

open Computability Token Parse

/-- Initial values between commas, if there are any, and a comma, if there is one, in brackets; or
an expression. -/
def looseInit (X : Forms) : Language Token :=
  tok .lbracket * (opt (sepBy (X .init)) * (opt (tok .comma) * tok .rbracket)) + X .expression

/-- The forms one level further out, with such lists. -/
def looseRules (d : Dialect) (X : Forms) : Forms := Function.update (rules d X) .init (looseInit X)

/-- The forms with a number of levels of nesting and such lists. -/
def loose (d : Dialect) : Nat → Forms
  | 0 => ⊥
  | levels + 1 => looseRules d (loose d levels)

/-- The words in which no opening bracket has a comma right behind it. -/
def filled : Language Token := {w | w.IsChain fun t s => t.kind = .lbracket → s.kind ≠ .comma}

variable {d : Dialect} {X Y : Forms} {L M : Language Token} {ks : List Kind}

@[simp] theorem looseRules_init : looseRules d X .init = looseInit X := Function.update_self ..

theorem looseRules_of_ne {f : Form} (h : f ≠ .init) : looseRules d X f = rules d X f :=
  Function.update_of_ne h ..

/-- A comma that is alone in brackets is all that is added. -/
theorem looseInit_eq (X : Forms) :
    looseInit X = init X + tok .lbracket * (tok .comma * tok .rbracket) := by
  simp only [looseInit, init, inits, opt, add_mul, mul_add, one_mul, mul_one, mul_assoc]
  abel

theorem factorial_filled : Factorial filled := fun _ _ h =>
  have h := List.isChain_append.1 h
  ⟨h.1, h.2.1⟩

/-! ## Words that are filled -/

/-- The words that are filled, whatever filled word is behind them. -/
def capped : Language Token := {u | ∀ v ∈ filled, u ++ v ∈ filled}

theorem capped_le_filled : capped ≤ filled := fun u hu => by
  have := hu [] List.isChain_nil
  rwa [List.append_nil] at this

theorem one_le_capped : 1 ≤ capped := fun w hw _ hv => (Language.mem_one w).1 hw ▸ hv

theorem cons_mem_filled {t : Token} {v : List Token} (hv : v ∈ filled)
    (ht : t.kind = .lbracket → ∀ s ∈ v.head?, s.kind ≠ .comma) : t :: v ∈ filled :=
  List.isChain_cons.2 ⟨fun s hs hk => ht hk s hs, hv⟩

theorem oneOf_le_capped (h : .lbracket ∉ ks) : oneOf ks ≤ capped := by
  rintro _ ⟨t, rfl, ht⟩ v hv
  exact cons_mem_filled hv fun hk => absurd (hk ▸ ht) h

theorem mul_le_capped (hL : L ≤ capped) (hM : M ≤ capped) : L * M ≤ capped := by
  rintro _ ⟨u, hu, w, hw, rfl⟩ v hv
  rw [List.append_assoc]
  exact hL hu _ (hM hw v hv)

theorem oneOf_mul_le_capped (h : .lbracket ∉ ks) (hM : M ≤ capped) : oneOf ks * M ≤ capped :=
  mul_le_capped (oneOf_le_capped h) hM

/-- A bracket with a word behind it that does not begin with a comma. -/
theorem lbracket_mul_le_capped (hM : M ≤ capped) (hs : Starts M ks) (hk : .comma ∉ ks) :
    tok .lbracket * M ≤ capped := by
  rintro _ ⟨_, ⟨t, rfl, -⟩, w, hw, rfl⟩ v hv
  obtain ⟨s, w, rfl, hs⟩ := hs w hw
  refine cons_mem_filled (hM hw v hv) fun _ s' hs' he => ?_
  obtain rfl : s = s' := Option.some.inj hs'
  exact hk (he ▸ hs)

theorem opt_le_capped (hL : L ≤ capped) : opt L ≤ capped := sup_le one_le_capped hL

theorem star_le_capped (hL : L ≤ capped) : L∗ ≤ capped :=
  kstar_le_of_mul_le_left one_le_capped (mul_le_capped le_rfl hL)

theorem sepBy_le_capped (hL : L ≤ capped) : sepBy L ≤ capped :=
  mul_le_capped hL (star_le_capped (oneOf_mul_le_capped (by decide) hL))

/-- A word between two tokens. -/
theorem between_le_capped {k l : Kind} (hL : L ≤ capped) (hk : k ≠ .lbracket)
    (hl : l ≠ .lbracket) : tok k * (L * tok l) ≤ capped :=
  oneOf_mul_le_capped (by simpa using hk.symm)
    (mul_le_capped hL (oneOf_le_capped (by simpa using hl.symm)))

section Productions

variable (hs : Headed X) (h : ∀ f, X f ≤ capped)

include h

section

include hs

theorem suffix_le_capped : suffix X ≤ capped := by
  have hindexing : indexing X ≤ capped :=
    lbracket_mul_le_capped (mul_le_capped (h .expression) (oneOf_le_capped (by decide)))
      (hs.expression.mul _) (by decide)
  exact sup_le (sup_le hindexing (oneOf_mul_le_capped (by decide) (oneOf_le_capped (by decide))))
    (between_le_capped (opt_le_capped (sepBy_le_capped (h .expression))) (by decide) (by decide))

theorem primary_le_capped : primary d X ≤ capped := by
  have hatom : atom X ≤ capped := sup_le (sup_le (oneOf_le_capped (by decide))
    (oneOf_le_capped (by decide))) (between_le_capped (h .expression) (by decide) (by decide))
  exact inf_le_left.trans (mul_le_capped hatom (star_le_capped (suffix_le_capped hs h)))

theorem unary_le_capped : unary d X ≤ capped :=
  sup_le (oneOf_mul_le_capped (by decide) (h .operand))
    (mul_le_capped (primary_le_capped hs h) (opt_le_capped (oneOf_le_capped (by decide))))

theorem binary_le_capped : ∀ levels : List (List Kind), .lbracket ∉ levels.flatten →
    binary d X levels ≤ capped
  | [], _ => unary_le_capped hs h
  | operators :: tighter, hk => by
    have htighter := binary_le_capped tighter fun hm => hk (List.mem_append_right _ hm)
    exact mul_le_capped htighter (star_le_capped
      (oneOf_mul_le_capped (fun hm => hk (List.mem_append_left _ hm)) htighter))

theorem expression_le_capped : expression d X ≤ capped :=
  sup_le (mul_le_capped (primary_le_capped hs h) (oneOf_mul_le_capped (by decide) (h .init)))
    (binary_le_capped hs h _ (by decide))

/-- Brackets hold a value first, or nothing. -/
theorem init_le_capped : init X ≤ capped := by
  have hinits : inits X ≤ capped :=
    mul_le_capped (sepBy_le_capped (h .init)) (opt_le_capped (oneOf_le_capped (by decide)))
  have hstarts : Starts (opt (inits X) * tok .rbracket) (.rbracket :: initStarts) :=
    .opt_mul ((hs.init.sepBy.mul _).mono (List.subset_cons_self _ _)) (.tok List.mem_cons_self)
  exact sup_le (lbracket_mul_le_capped (mul_le_capped (opt_le_capped hinits)
    (oneOf_le_capped (by decide))) hstarts (by decide)) (h .expression)

end

theorem declarator_le_capped : declarator X ≤ capped := by
  have hpairs : (tok .lbracket * tok .rbracket)∗ ≤ capped :=
    star_le_capped (lbracket_mul_le_capped (oneOf_le_capped (by decide))
      (.tok (List.mem_singleton_self _)) (by decide))
  exact oneOf_mul_le_capped (by decide) (mul_le_capped hpairs
    (opt_le_capped (oneOf_mul_le_capped (by decide) (h .init))))

theorem block_le_capped : block X ≤ capped :=
  between_le_capped (star_le_capped (h .statement)) (by decide) (by decide)

theorem ruled_le_capped {k : Kind} (hk : k ≠ .lbracket) (hL : L ≤ capped) : ruled X k L ≤ capped :=
  oneOf_mul_le_capped (by simpa using hk.symm)
    (mul_le_capped (between_le_capped (h .expression) (by decide) (by decide)) hL)

theorem twoWay_le_capped (hL : L ≤ capped) : twoWay X L ≤ capped :=
  ruled_le_capped h (by decide) (mul_le_capped (sup_le (block_le_capped h) (h .closed))
    (oneOf_mul_le_capped (by decide) hL))

theorem simple_le_capped : simple X ≤ capped := by
  have hsemicolon : tok .semicolon ≤ capped := oneOf_le_capped (by decide)
  refine sup_le (sup_le (sup_le (sup_le (sup_le (block_le_capped h) hsemicolon) ?_) ?_) ?_) ?_
  · exact between_le_capped (sepBy_le_capped (declarator_le_capped h)) (by decide) (by decide)
  · exact between_le_capped (opt_le_capped (h .expression)) (by decide) (by decide)
  · exact oneOf_mul_le_capped (by decide) hsemicolon
  · exact mul_le_capped (h .expression) hsemicolon

theorem statement_le_capped : statement X ≤ capped := by
  have hbody : body X ≤ capped := sup_le (block_le_capped h) (h .statement)
  exact sup_le (sup_le (sup_le (simple_le_capped h) (ruled_le_capped h (by decide) hbody))
    (ruled_le_capped h (by decide) hbody)) (twoWay_le_capped h hbody)

include hs

theorem rules_le_capped (hc : X .closed ≤ X .statement) : ∀ f, rules d X f ≤ capped
  | .statement => statement_le_capped h
  | .closed => (closed_le_statement hc).trans (statement_le_capped h)
  | .expression => expression_le_capped hs h
  | .init => init_le_capped hs h
  | .operand => unary_le_capped hs h

omit hs

theorem program_le_capped : program X ≤ capped := by
  have hparameter : parameter X ≤ capped :=
    mul_le_capped (opt_le_capped (oneOf_le_capped (by decide))) (declarator_le_capped h)
  exact oneOf_mul_le_capped (by decide) (oneOf_mul_le_capped (by decide)
    (oneOf_mul_le_capped (by decide) (mul_le_capped (opt_le_capped (sepBy_le_capped hparameter))
      (oneOf_mul_le_capped (by decide)
        (mul_le_capped (block_le_capped h) (oneOf_le_capped (by decide)))))))

end Productions

theorem limited_le_capped : ∀ levels f, limited d levels f ≤ capped
  | 0, _ => bot_le
  | levels + 1, f => rules_le_capped (regular_limited levels).toHeaded
      (limited_le_capped levels) (regular_limited levels).closed_le f

/-! ## Both grammars -/

theorem rules_le_looseRules (h : X ≤ Y) : rules d X ≤ looseRules d Y := fun f => by
  refine (rules_le h f).trans ?_
  by_cases hf : f = .init
  · subst hf
    rw [looseRules_init, looseInit_eq]
    exact le_self_add
  · rw [looseRules_of_ne hf]

theorem limited_le_loose : ∀ levels, limited d levels ≤ loose d levels
  | 0 => bot_le
  | levels + 1 => rules_le_looseRules (limited_le_loose levels)

/-- A comma that is alone in brackets is right behind one. -/
theorem alone_inf_filled : (tok .lbracket * (tok .comma * tok .rbracket)) ⊓ filled ≤ L := by
  rintro _ ⟨hw, hfilled⟩
  obtain ⟨t, _, rfl, ht, hw⟩ := mem_tok_mul.1 hw
  obtain ⟨s, v, rfl, hs, -⟩ := mem_tok_mul.1 hw
  exact absurd hs ((List.isChain_cons_cons.1 hfilled).1 ht)

theorem looseRules_inf_filled (h : ∀ f, X f ⊓ filled ≤ Y f) (f : Form) :
    looseRules d X f ⊓ filled ≤ rules d Y f := by
  by_cases hf : f = .init
  · subst hf
    rw [looseRules_init, looseInit_eq, ← add_zero (rules d Y .init)]
    exact add_inf_le (factorial_filled.init_inf_le h) alone_inf_filled
  · rw [looseRules_of_ne hf]
    exact factorial_filled.rules_inf_le h d f

theorem loose_inf_filled : ∀ levels f, loose d levels f ⊓ filled ≤ limited d levels f
  | 0, _ => inf_le_left
  | levels + 1, f => looseRules_inf_filled (loose_inf_filled levels) f

/-- The forms of the parser are the loose ones in which no opening bracket has a comma right behind
it. -/
theorem limited_eq (d : Dialect) (levels : Nat) (f : Form) :
    limited d levels f = loose d levels f ⊓ filled :=
  le_antisymm (le_inf (limited_le_loose levels f) ((limited_le_capped levels f).trans
    capped_le_filled)) (loose_inf_filled levels f)

/-- So are its programs. -/
theorem program_limited_eq (d : Dialect) (levels : Nat) :
    program (limited d levels) = program (loose d levels) ⊓ filled :=
  le_antisymm (le_inf (program_mono (limited_le_loose levels))
    ((program_le_capped (limited_le_capped levels)).trans capped_le_filled))
    (factorial_filled.program_inf_le (loose_inf_filled levels))

end Botscript.Grammar
