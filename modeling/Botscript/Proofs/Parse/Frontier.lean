import Mathlib.Order.BoundedOrder.Lattice
import Botscript.Parse.Cursor

/-!
# Frontiers as a lattice

Of two frontiers the further one counts, and at one place the kinds of both do: `⊔` joins them.
Comparing a token to a kind joins one check to the frontier (`note_eq_sup`), so the order in which
checks are made does not matter, nor how often.
-/

namespace Botscript.Parse.Frontier

/-- The frontier of two runs together. -/
def join (f g : Frontier) : Frontier :=
  if f.pos < g.pos then g
  else if g.pos < f.pos then f
  else ⟨f.pos, f.kinds.union g.kinds⟩

theorem join_comm (f g : Frontier) : f.join g = g.join f := by
  unfold join
  rcases Nat.lt_trichotomy f.pos g.pos with h | h | h
  · rw [if_pos h, if_neg (Nat.lt_asymm h), if_pos h]
  · rw [if_neg h.not_lt, if_neg h.not_gt, if_neg h.not_gt, if_neg h.not_lt, h,
      Token.KindSet.union_comm]
  · rw [if_neg (Nat.lt_asymm h), if_pos h, if_pos h]

theorem pos_join (f g : Frontier) : (f.join g).pos = max f.pos g.pos := by
  unfold join; split_ifs <;> simp_all; omega

theorem join_assoc (f g h : Frontier) : (f.join g).join h = f.join (g.join h) := by
  unfold join
  split_ifs <;> (try dsimp only at *) <;> first | rfl | omega | rw [Token.KindSet.union_assoc]

theorem join_self (f : Frontier) : f.join f = f := by simp [join]

instance : Max Frontier := ⟨join⟩

instance : SemilatticeSup Frontier := SemilatticeSup.mk' join_comm join_assoc join_self

instance : OrderBot Frontier where
  bot := ⟨0, .empty⟩
  bot_le f := sup_eq_right.1 <| by
    show join _ _ = f
    unfold join
    split_ifs with h h'
    · rfl
    · exact absurd h' (Nat.not_lt_zero _)
    · rw [Token.KindSet.empty_union, ← Nat.eq_zero_of_not_pos h]

/-- One token compared to one kind. -/
abbrev one (pos : Nat) (kind : Token.Kind) : Frontier := ⟨pos, .single kind⟩

theorem note_eq_sup (f : Frontier) (pos : Nat) (kind : Token.Kind) :
    f.note pos kind = f ⊔ one pos kind := by
  show _ = f.join _
  unfold note join
  rcases Nat.lt_trichotomy f.pos pos with h | h | h
  · rw [if_pos h, if_pos h]
  · rw [if_neg h.not_lt, if_pos h, if_neg h.not_lt, if_neg h.not_gt, h]
  · rw [if_neg (Nat.lt_asymm h), if_neg h.ne', if_neg (Nat.lt_asymm h), if_pos h]

/-- One token compared to some kinds. -/
def all (pos : Nat) (kinds : List Token.Kind) : Frontier := kinds.foldr (one pos · ⊔ ·) ⊥

@[simp] theorem pos_sup (f g : Frontier) : (f ⊔ g).pos = max f.pos g.pos := pos_join f g

theorem pos_all_le (pos : Nat) (kinds : List Token.Kind) : (all pos kinds).pos ≤ pos := by
  induction kinds with
  | nil => exact Nat.zero_le pos
  | cons kind kinds ih => simpa [all] using ih

theorem pos_mono {f g : Frontier} (h : f ≤ g) : f.pos ≤ g.pos := by
  rw [← sup_eq_right.2 h, pos_sup]; exact le_max_left ..

theorem le_of_pos_lt {f g : Frontier} (h : f.pos < g.pos) : f ≤ g :=
  sup_eq_right.1 (show f.join g = g from if_pos h)

theorem le_of_le_sup {f g h : Frontier} (hle : g ≤ f ⊔ h) (hp : h.pos < g.pos) : g ≤ f := by
  have hmax : g.pos ≤ max f.pos h.pos := pos_sup f h ▸ pos_mono hle
  have hf : h.pos < f.pos := by omega
  rwa [sup_eq_left.2 (le_of_pos_lt hf)] at hle

end Botscript.Parse.Frontier
