import Botscript.Proofs.Grammar.Acceptance
import Botscript.Proofs.Token.Spelled

/-!
# Places do not matter

Whether some tokens are a word of the grammar depends on their kinds and images only, not on their
places (`blind_limited`, `blind_sentences`), and on their kinds only if all functions may be called.
Both are cases of one statement about any feature of tokens that tells their kinds: tokens with the
same features are words together, also of two grammars, if the second lets call what the first does
(`told_limited`).
-/

namespace Botscript.Grammar

open Computability Token Parse

/-- Tokens with the same features as a word of the first language are a word of the second. -/
def Told {α : Type} (f : Token → α) (L M : Language Token) : Prop :=
  ∀ u v, u.map f = v.map f → u ∈ L → v ∈ M

/-- Tokens that differ in their places only are words of a language together. -/
def Blind (L : Language Token) : Prop := ∀ u v, u.map bare = v.map bare → u ∈ L → v ∈ L

variable {α : Type} {f : Token → α} {L L' M M' : Language Token} {X Y : Forms} {d e : Dialect}
  {ks : List Kind}

/-- A feature tells the kind of a token. -/
def TellsKind (f : Token → α) : Prop := ∀ t t', f t = f t' → t.kind = t'.kind

theorem tellsKind_kind : TellsKind kind := fun _ _ => id

theorem tellsKind_bare : TellsKind bare := fun _ t' h => by rw [← bare_kind, h, bare_kind]

namespace Told

theorem one : Told f 1 1 := fun u v h hu => by
  obtain rfl := (Language.mem_one u).1 hu
  exact (Language.mem_one v).2 (List.map_eq_nil_iff.1 h.symm)

theorem oneOf (hf : TellsKind f) (ks : List Kind) : Told f (oneOf ks) (oneOf ks) := by
  rintro _ v h ⟨t, rfl, ht⟩
  obtain ⟨t', rfl, he⟩ := List.map_eq_singleton_iff.1 h.symm
  refine ⟨t', rfl, ?_⟩
  rwa [hf t' t he]

theorem add (hL : Told f L L') (hM : Told f M M') : Told f (L + M) (L' + M') := fun u v h hu =>
  hu.imp (hL u v h) (hM u v h)

theorem mul (hL : Told f L L') (hM : Told f M M') : Told f (L * M) (L' * M') := by
  rintro _ v h ⟨u₁, h₁, u₂, h₂, rfl⟩
  obtain ⟨v₁, v₂, rfl, he₁, he₂⟩ := List.map_eq_append_iff.1 (h.symm.trans List.map_append)
  exact Language.append_mem_mul (hL _ _ he₁.symm h₁) (hM _ _ he₂.symm h₂)

theorem kstar (hL : Told f L L') : Told f L∗ L'∗ := by
  intro u v h hu
  obtain ⟨us, rfl, hus⟩ := Language.mem_kstar.1 hu
  clear hu
  induction us generalizing v with
  | nil =>
    obtain rfl := List.map_eq_nil_iff.1 h.symm
    exact Language.nil_mem_kstar L'
  | cons u us ih =>
    rw [List.flatten_cons] at h
    obtain ⟨v₁, v₂, rfl, he₁, he₂⟩ := List.map_eq_append_iff.1 (h.symm.trans List.map_append)
    have hfirst := hL _ _ he₁.symm (hus u List.mem_cons_self)
    have hrest := ih v₂ (fun w hw => hus w (List.mem_cons_of_mem _ hw)) he₂.symm
    exact (mul_kstar_le_kstar : L' * L'∗ ≤ L'∗) (Language.append_mem_mul hfirst hrest)

theorem inf (hL : Told f L L') (hM : Told f M M') : Told f (L ⊓ M) (L' ⊓ M') := fun u v h hu =>
  ⟨hL u v h hu.1, hM u v h hu.2⟩

theorem opt (hL : Told f L L') : Told f (opt L) (opt L') := one.add hL

theorem sepBy (hf : TellsKind f) (hL : Told f L L') : Told f (sepBy L) (sepBy L') :=
  hL.mul ((oneOf hf _).mul hL).kstar

end Told

/-- The second dialect lets call what looks like something that the first one lets call. -/
def Dialect.Told (f : Token → α) (d e : Dialect) : Prop :=
  ∀ t t' : Token, f t = f t' → d.known t → e.known t'

theorem Dialect.Told.calls (hf : TellsKind f) (hd : Dialect.Told f d e) :
    Grammar.Told f d.calls e.calls := by
  rintro u _ h hu name opening v rfl hname hopening
  obtain ⟨name', w, rfl, hn, hw⟩ := List.map_eq_cons_iff.1 h
  obtain ⟨opening', w, rfl, ho, -⟩ := List.map_eq_cons_iff.1 hw
  refine hd _ _ hn (hu name' opening' w rfl ?_ ?_)
  · rwa [hf _ _ hn]
  · rwa [hf _ _ ho]

/-! ## The productions -/

section Rules

variable (hf : TellsKind f) (hX : ∀ form, Told f (X form) (Y form))

include hf hX

theorem told_block : Told f (block X) (block Y) :=
  (Told.oneOf hf _).mul ((hX _).kstar.mul (.oneOf hf _))

theorem told_declarator : Told f (declarator X) (declarator Y) :=
  (Told.oneOf hf _).mul (((Told.oneOf hf _).mul (.oneOf hf _)).kstar.mul
    ((Told.oneOf hf _).mul (hX _)).opt)

theorem told_declaration : Told f (declaration X) (declaration Y) :=
  (Told.oneOf hf _).mul (((told_declarator hf hX).sepBy hf).mul (.oneOf hf _))

theorem told_result : Told f (result X) (result Y) :=
  (Told.oneOf hf _).mul ((hX _).opt.mul (.oneOf hf _))

omit hX in
theorem told_jump : Told f jump jump := (Told.oneOf hf _).mul (.oneOf hf _)

theorem told_evaluation : Told f (evaluation X) (evaluation Y) := (hX _).mul (.oneOf hf _)

theorem told_simple : Told f (simple X) (simple Y) :=
  ((((told_block hf hX).add (.oneOf hf _)).add (told_declaration hf hX)).add
    (told_result hf hX)).add (told_jump hf) |>.add (told_evaluation hf hX)

theorem told_ruled (k : Kind) (hL : Told f L L') : Told f (ruled X k L) (ruled Y k L') :=
  (Told.oneOf hf _).mul (((Told.oneOf hf _).mul ((hX _).mul (.oneOf hf _))).mul hL)

theorem told_twoWay (hL : Told f L L') : Told f (twoWay X L) (twoWay Y L') :=
  told_ruled hf hX _ (((told_block hf hX).add (hX _)).mul ((Told.oneOf hf _).mul hL))

theorem told_statement : Told f (statement X) (statement Y) := by
  have hbody : Told f (body X) (body Y) := (told_block hf hX).add (hX _)
  exact (((told_simple hf hX).add (told_ruled hf hX _ hbody)).add
    (told_ruled hf hX _ hbody)).add (told_twoWay hf hX hbody)

theorem told_closed (he : d.nearestElse = e.nearestElse) : Told f (closed d X) (closed e Y) := by
  have hbody : Told f (closedBody X) (closedBody Y) := (told_block hf hX).add (hX _)
  unfold closed
  rw [he]
  split_ifs
  · exact ((told_simple hf hX).add (told_ruled hf hX _ hbody)).add (told_twoWay hf hX hbody)
  · exact told_statement hf hX

theorem told_init : Told f (init X) (init Y) :=
  ((Told.oneOf hf _).mul ((((hX _).sepBy hf).mul (Told.oneOf hf _).opt).opt.mul
    (.oneOf hf _))).add (hX _)

theorem told_program : Told f (program X) (program Y) := by
  have hparameter : Told f (parameter X) (parameter Y) :=
    (Told.oneOf hf _).opt.mul (told_declarator hf hX)
  exact (Told.oneOf hf _).mul ((Told.oneOf hf _).mul ((Told.oneOf hf _).mul
    ((hparameter.sepBy hf).opt.mul ((Told.oneOf hf _).mul
      ((told_block hf hX).mul (.oneOf hf _))))))

variable (hd : Dialect.Told f d e)

include hd

theorem told_primary : Told f (primary d X) (primary e Y) := by
  have hatom : Told f (atom X) (atom Y) := ((Told.oneOf hf _).add (.oneOf hf _)).add
    ((Told.oneOf hf _).mul ((hX _).mul (.oneOf hf _)))
  have hsuffix : Told f (suffix X) (suffix Y) :=
    (((Told.oneOf hf _).mul ((hX _).mul (.oneOf hf _))).add
      ((Told.oneOf hf _).mul (.oneOf hf _))).add
        ((Told.oneOf hf _).mul (((hX _).sepBy hf).opt.mul (.oneOf hf _)))
  exact (hatom.mul hsuffix.kstar).inf (hd.calls hf)

theorem told_unary : Told f (unary d X) (unary e Y) :=
  ((Told.oneOf hf _).mul (hX _)).add ((told_primary hf hX hd).mul (Told.oneOf hf _).opt)

theorem told_binary : ∀ levels, Told f (binary d X levels) (binary e Y levels)
  | [] => told_unary hf hX hd
  | _ :: tighter =>
    (told_binary tighter).mul ((Told.oneOf hf _).mul (told_binary tighter)).kstar

theorem told_expression : Told f (expression d X) (expression e Y) :=
  ((told_primary hf hX hd).mul ((Told.oneOf hf _).mul (hX _))).add (told_binary hf hX hd _)

theorem told_rules (he : d.nearestElse = e.nearestElse) :
    ∀ form, Told f (rules d X form) (rules e Y form)
  | .statement => told_statement hf hX
  | .closed => told_closed hf hX he
  | .expression => told_expression hf hX hd
  | .init => told_init hf hX
  | .operand => told_unary hf hX hd

end Rules

/-- Tokens with the features of a word with some levels of nesting are a word with as many. -/
theorem told_limited (hf : TellsKind f) (hd : Dialect.Told f d e)
    (he : d.nearestElse = e.nearestElse) :
    ∀ levels form, Told f (limited d levels form) (limited e levels form)
  | 0, _ => fun u _ _ hu => absurd hu (Language.notMem_zero u)
  | levels + 1, form => told_rules hf (told_limited hf hd he levels) hd he form

/-! ## Kinds and images -/

/-- Whether a name may be called depends on its image only. -/
def Dialect.Blind (d : Dialect) : Prop := ∀ t t' : Token, t.bare = t'.bare → d.known t → d.known t'

theorem dialect_blind (registry : Registry) : (dialect registry).Blind := fun t t' h ht => by
  have himage : t'.image = t.image := by rw [← bare_image t', ← h, bare_image]
  change (registry t'.image).isSome
  rwa [himage]

/-- The words that are sentences wherever their tokens stand. -/
def anywhere (d : Dialect) : Forms := fun f =>
  {w | ∀ u, w.map bare = u.map bare → u ∈ sentences d f}

theorem anywhere_le : anywhere d ≤ sentences d := fun _ w hw => hw w rfl

theorem blind_anywhere (f : Form) : Blind (anywhere d f) := fun _ _ h hu w hw => hu w (h.trans hw)

variable (hd : d.Blind)

include hd

theorem blind_limited (levels : Nat) (f : Form) : Blind (limited d levels f) :=
  told_limited tellsKind_bare hd rfl levels f

theorem rules_anywhere : rules d (anywhere d) ≤ anywhere d := fun f w hw u h =>
  (rules_sentences d).le f (rules_le anywhere_le f
    (told_rules tellsKind_bare blind_anywhere hd rfl f w u h hw))

theorem blind_sentences (f : Form) : Blind (sentences d f) :=
  fun _ v h hu => sentences_le (rules_anywhere hd) f hu v h

end Botscript.Grammar
