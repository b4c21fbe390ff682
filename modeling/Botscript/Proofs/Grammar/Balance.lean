import Botscript.Proofs.Grammar.Hereditary

/-!
# Parentheses

Every expression is balanced in its parentheses, whatever else is in it (`balanced_expression`). So
the parenthesis that closes some arguments is determined by the one that opens them
(`eq_of_balanced`).
-/

namespace Botscript.Grammar

open Computability Token

/-- How many parentheses are open behind some tokens, if never one is closed that is not open. -/
def openAfter : Nat → List Token → Option Nat
  | n, [] => some n
  | n, t :: rest =>
    if t.kind = .lparen then openAfter (n + 1) rest
    else if t.kind ≠ .rparen then openAfter n rest
    else if n = 0 then none
    else openAfter (n - 1) rest

/-- The words that close each parenthesis they open, and no other. -/
def balanced : Language Token := {w | ∀ n, openAfter n w = some n}

variable {u v w : List Token}

theorem openAfter_append (n : Nat) (u v : List Token) :
    openAfter n (u ++ v) = (openAfter n u).bind (openAfter · v) := by
  induction u generalizing n with
  | nil => rfl
  | cons t rest ih =>
    simp only [List.cons_append, openAfter]
    split_ifs
    · exact ih _
    · exact ih n
    · rfl
    · exact ih _

theorem openAfter_lparen {t : Token} (ht : t.kind = .lparen) (n : Nat) (w : List Token) :
    openAfter n (t :: w) = openAfter (n + 1) w := if_pos ht

theorem openAfter_rparen {t : Token} (ht : t.kind = .rparen) (n : Nat) (w : List Token) :
    openAfter n (t :: w) = if n = 0 then none else openAfter (n - 1) w := by
  rw [openAfter, if_neg (by simp [ht]), if_neg (by simp [ht])]

theorem append_mem_balanced (hu : u ∈ balanced) (hv : v ∈ balanced) : u ++ v ∈ balanced :=
  fun n => by
    rw [openAfter_append, hu n]
    exact hv n

/-- What stands between parentheses is balanced if the parentheses come before the same token. -/
theorem eq_of_balanced (hu : u ∈ balanced) (hw : w ∈ balanced) {t t' : Token} {v v' : List Token}
    (ht : t.kind = .rparen) (ht' : t'.kind = .rparen) (h : u ++ t :: v = w ++ t' :: v') :
    u = w := by
  -- The longer word would close a parenthesis that it does not open.
  have hlonger : ∀ {u w s : List Token} {t : Token}, u ∈ balanced → w ∈ balanced →
      t.kind = .rparen → w ≠ u ++ t :: s := by
    rintro u _ s t hu hw ht rfl
    have hscan := hw 0
    rw [openAfter_append, hu 0, Option.bind_some, openAfter_rparen ht] at hscan
    cases hscan
  obtain ⟨s, rfl, hs⟩ | ⟨s, rfl, hs⟩ := List.append_eq_append_iff.1 h
  · cases s with
    | nil => exact (List.append_nil u).symm
    | cons r s =>
      obtain ⟨rfl, -⟩ := List.cons.inj hs
      exact absurd rfl (hlonger hu hw ht)
  · cases s with
    | nil => exact List.append_nil w
    | cons r s =>
      obtain ⟨rfl, -⟩ := List.cons.inj hs
      exact absurd rfl (hlonger hw hu ht')

/-! ## Expressions -/

/-- A balanced word in parentheses. -/
theorem parens_le_balanced : tok .lparen * (balanced * tok .rparen) ≤ balanced := by
  intro w hw n
  obtain ⟨t, v, rfl, ht, u, hu, _, ⟨r, rfl, hr⟩, rfl⟩ := mem_oneOf_mul.1 hw
  have ht : t.kind = .lparen := List.mem_singleton.1 ht
  have hr : r.kind = .rparen := List.mem_singleton.1 hr
  show openAfter n (t :: (u ++ [r])) = some n
  rw [openAfter_lparen ht, openAfter_append, hu, Option.bind_some, openAfter_rparen hr,
    if_neg (Nat.succ_ne_zero n)]
  rfl

theorem hereditary_balanced : Hereditary balanced where
  one w hw := (Language.mem_one w).1 hw ▸ fun _ => rfl
  mul := by
    rintro _ ⟨u, hu, v, hv, rfl⟩
    exact append_mem_balanced hu hv
  mark k hk := by
    rintro _ ⟨t, rfl, ht⟩ n
    rw [← List.mem_singleton.1 ht, List.mem_cons, List.mem_cons, not_or, not_or] at hk
    rw [openAfter, if_neg hk.1, if_pos hk.2.1]
    rfl
  parens := parens_le_balanced

/-- The parentheses of expressions are balanced. -/
theorem balanced_expression (d : Dialect) : sentences d .expression ≤ balanced :=
  (hereditary_balanced.sentences_le d).1

end Botscript.Grammar
