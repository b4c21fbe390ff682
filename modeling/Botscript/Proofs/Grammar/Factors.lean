import Botscript.Proofs.Grammar.Rules

/-!
# Parts of words

A language is `Factorial` if each part of a word is a word. To cut a production down to the words of
such a language, it is enough to cut down what stands inside (`Factorial.rules_inf_le`,
`Factorial.program_inf_le`).
-/

namespace Botscript.Grammar

open Computability Token

/-- Where two words make a word, so does each by itself. -/
def Factorial (F : Language Token) : Prop := ∀ u v, u ++ v ∈ F → u ∈ F ∧ v ∈ F

theorem add_inf_le {F L L' M M' : Language Token} (hL : L ⊓ F ≤ L') (hM : M ⊓ F ≤ M') :
    (L + M) ⊓ F ≤ L' + M' := by
  rintro w ⟨hw | hw, hF⟩
  · exact .inl (hL ⟨hw, hF⟩)
  · exact .inr (hM ⟨hw, hF⟩)

theorem opt_inf_le {F L L' : Language Token} (hL : L ⊓ F ≤ L') : opt L ⊓ F ≤ opt L' :=
  add_inf_le inf_le_left hL

namespace Factorial

variable {F L L' M M' : Language Token} (hF : Factorial F)

include hF

theorem mul_inf_le (hL : L ⊓ F ≤ L') (hM : M ⊓ F ≤ M') : (L * M) ⊓ F ≤ L' * M' := by
  rintro _ ⟨⟨u, hu, v, hv, rfl⟩, hw⟩
  obtain ⟨huF, hvF⟩ := hF u v hw
  exact Language.append_mem_mul (hL ⟨hu, huF⟩) (hM ⟨hv, hvF⟩)

/-- The tokens of a production stay as they are. -/
theorem oneOf_mul_inf_le {ks : List Kind} (hM : M ⊓ F ≤ M') :
    (oneOf ks * M) ⊓ F ≤ oneOf ks * M' :=
  hF.mul_inf_le inf_le_left hM

theorem mul_oneOf_inf_le {ks : List Kind} (hL : L ⊓ F ≤ L') :
    (L * oneOf ks) ⊓ F ≤ L' * oneOf ks :=
  hF.mul_inf_le hL inf_le_left

theorem star_inf_le (hL : L ⊓ F ≤ L') : L∗ ⊓ F ≤ L'∗ := by
  rintro w ⟨hw, hwF⟩
  obtain ⟨ws, rfl, hws⟩ := Language.mem_kstar.1 hw
  refine Language.mem_kstar.2 ⟨ws, rfl, fun u hu => hL ⟨hws u hu, ?_⟩⟩
  obtain ⟨front, back, rfl⟩ := List.append_of_mem hu
  rw [List.flatten_append, List.flatten_cons] at hwF
  exact (hF _ _ (hF _ _ hwF).2).1

theorem sepBy_inf_le (hL : L ⊓ F ≤ L') : sepBy L ⊓ F ≤ sepBy L' :=
  hF.mul_inf_le hL (hF.star_inf_le (hF.oneOf_mul_inf_le hL))

/-! ## Productions -/

section Productions

variable {d : Dialect} {X Y : Forms} (h : ∀ f, X f ⊓ F ≤ Y f)

include h

theorem suffix_inf_le : suffix X ⊓ F ≤ suffix Y :=
  add_inf_le (add_inf_le (hF.oneOf_mul_inf_le (hF.mul_oneOf_inf_le (h .expression))) inf_le_left)
    (hF.oneOf_mul_inf_le (hF.mul_oneOf_inf_le (opt_inf_le (hF.sepBy_inf_le (h .expression)))))

theorem primary_inf_le : primary d X ⊓ F ≤ primary d Y := by
  have hatom : atom X ⊓ F ≤ atom Y := add_inf_le inf_le_left
    (hF.oneOf_mul_inf_le (hF.mul_oneOf_inf_le (h .expression)))
  refine le_inf ?_ (inf_le_left.trans inf_le_right)
  exact (inf_le_inf_right F inf_le_left).trans
    (hF.mul_inf_le hatom (hF.star_inf_le (hF.suffix_inf_le h)))

theorem unary_inf_le : unary d X ⊓ F ≤ unary d Y :=
  add_inf_le (hF.oneOf_mul_inf_le (h .operand))
    (hF.mul_inf_le (hF.primary_inf_le h) inf_le_left)

theorem binary_inf_le : ∀ levels, binary d X levels ⊓ F ≤ binary d Y levels
  | [] => hF.unary_inf_le h
  | _ :: tighter => hF.mul_inf_le (binary_inf_le tighter)
      (hF.star_inf_le (hF.oneOf_mul_inf_le (binary_inf_le tighter)))

theorem expression_inf_le : expression d X ⊓ F ≤ expression d Y :=
  add_inf_le (hF.mul_inf_le (hF.primary_inf_le h) (hF.oneOf_mul_inf_le (h .init)))
    (hF.binary_inf_le h operatorLevels)

theorem init_inf_le : init X ⊓ F ≤ init Y :=
  add_inf_le (hF.oneOf_mul_inf_le (hF.mul_oneOf_inf_le
    (opt_inf_le (hF.mul_inf_le (hF.sepBy_inf_le (h .init)) inf_le_left)))) (h .expression)

theorem declarator_inf_le : declarator X ⊓ F ≤ declarator Y :=
  hF.oneOf_mul_inf_le (hF.mul_inf_le inf_le_left (opt_inf_le (hF.oneOf_mul_inf_le (h .init))))

theorem block_inf_le : block X ⊓ F ≤ block Y :=
  hF.oneOf_mul_inf_le (hF.mul_oneOf_inf_le (hF.star_inf_le (h .statement)))

theorem ruled_inf_le (k : Kind) (hL : L ⊓ F ≤ L') : ruled X k L ⊓ F ≤ ruled Y k L' :=
  hF.oneOf_mul_inf_le
    (hF.mul_inf_le (hF.oneOf_mul_inf_le (hF.mul_oneOf_inf_le (h .expression))) hL)

theorem body_inf_le : body X ⊓ F ≤ body Y := add_inf_le (hF.block_inf_le h) (h .statement)

theorem closedBody_inf_le : closedBody X ⊓ F ≤ closedBody Y :=
  add_inf_le (hF.block_inf_le h) (h .closed)

theorem twoWay_inf_le (hL : L ⊓ F ≤ L') : twoWay X L ⊓ F ≤ twoWay Y L' :=
  hF.ruled_inf_le h _ (hF.mul_inf_le (hF.closedBody_inf_le h) (hF.oneOf_mul_inf_le hL))

theorem simple_inf_le : simple X ⊓ F ≤ simple Y := by
  have hdeclaration : declaration X ⊓ F ≤ declaration Y := hF.oneOf_mul_inf_le
    (hF.mul_oneOf_inf_le (hF.sepBy_inf_le (hF.declarator_inf_le h)))
  have hresult : result X ⊓ F ≤ result Y := hF.oneOf_mul_inf_le
    (hF.mul_oneOf_inf_le (opt_inf_le (h .expression)))
  exact add_inf_le (add_inf_le (add_inf_le (add_inf_le (add_inf_le (hF.block_inf_le h)
    inf_le_left) hdeclaration) hresult) inf_le_left) (hF.mul_oneOf_inf_le (h .expression))

theorem statement_inf_le : statement X ⊓ F ≤ statement Y := by
  have hbody := hF.body_inf_le h
  exact add_inf_le (add_inf_le (add_inf_le (hF.simple_inf_le h) (hF.ruled_inf_le h _ hbody))
    (hF.ruled_inf_le h _ hbody)) (hF.twoWay_inf_le h hbody)

theorem closed_inf_le : closed d X ⊓ F ≤ closed d Y := by
  have hbody := hF.closedBody_inf_le h
  unfold closed
  split_ifs
  · exact add_inf_le (add_inf_le (hF.simple_inf_le h) (hF.ruled_inf_le h _ hbody))
      (hF.twoWay_inf_le h hbody)
  · exact hF.statement_inf_le h

/-- The forms are cut down one level further out if they are cut down inside. -/
theorem rules_inf_le (d : Dialect) : ∀ f, rules d X f ⊓ F ≤ rules d Y f
  | .statement => hF.statement_inf_le h
  | .closed => hF.closed_inf_le h
  | .expression => hF.expression_inf_le h
  | .init => hF.init_inf_le h
  | .operand => hF.unary_inf_le h

theorem program_inf_le : program X ⊓ F ≤ program Y := by
  have hparameter : parameter X ⊓ F ≤ parameter Y :=
    hF.mul_inf_le inf_le_left (hF.declarator_inf_le h)
  exact hF.oneOf_mul_inf_le (hF.oneOf_mul_inf_le (hF.oneOf_mul_inf_le (hF.mul_inf_le
    (opt_inf_le (hF.sepBy_inf_le hparameter)) (hF.oneOf_mul_inf_le
      (hF.mul_oneOf_inf_le (hF.block_inf_le h))))))

end Productions

end Factorial

end Botscript.Grammar
