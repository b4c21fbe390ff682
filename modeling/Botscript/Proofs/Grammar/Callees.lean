import Botscript.Proofs.Grammar.Rules

/-!
# Called names

In a program of the grammar every name with an opening parenthesis behind it may be called, except
the name of the program itself and those of members (`known_of_callee`). For the statements and
expressions inside, this is stated for a word with something behind it: whatever that is
(`settled`), or anything that is not an opening parenthesis (`pending`).
-/

namespace Botscript.Grammar

open Computability Token

/-- The token of an index is a name that is called: it comes in front of an opening parenthesis, and
not behind a dot. -/
structure Callee (tokens : List Token) (i : Nat) (name : Token) : Prop where
  token : tokens[i]? = some name
  name : name.kind = .identifier
  opening : ∃ t, tokens[i + 1]? = some t ∧ t.kind = .lparen
  free : ∀ j t, i = j + 1 → tokens[j]? = some t → t.kind ≠ .dot

/-- All names that are called are known. -/
def Sound (known : Token → Prop) (tokens : List Token) : Prop :=
  ∀ i name, Callee tokens i name → known name

variable {known : Token → Prop} {t : Token} {u v w : List Token} {i : Nat} {name : Token}

theorem Callee.tail (h : Callee (t :: w) (i + 1) name) : Callee w i name where
  token := h.token
  name := h.name
  opening := h.opening
  free j u hi hu := h.free (j + 1) u (congrArg (· + 1) hi) hu

theorem Sound.cons (h : Sound known w)
    (ht : t.kind = .identifier → (∃ o ∈ w.head?, o.kind = .lparen) → known t) :
    Sound known (t :: w) := fun i name hc => by
  cases i with
  | zero =>
    obtain rfl : t = name := Option.some.inj hc.token
    obtain ⟨o, ho, hk⟩ := hc.opening
    have ho : w[0]? = some o := ho
    rw [← List.head?_eq_getElem?] at ho
    exact ht hc.name ⟨o, ho, hk⟩
  | succ i => exact h i name hc.tail

/-- A name behind a dot does not matter. -/
theorem Sound.member {dot : Token} (h : Sound known w) (hd : dot.kind = .dot) :
    Sound known (dot :: t :: w) := fun i name hc => by
  match i with
  | 0 =>
    obtain rfl : dot = name := Option.some.inj hc.token
    exact absurd (hd.symm.trans hc.name) (by decide)
  | 1 => exact absurd hd (hc.free 0 dot rfl rfl)
  | i + 2 => exact h i name hc.tail.tail

/-! ## Words with something behind them -/

/-- The words that have no unknown names called, whatever is behind them. -/
def settled (known : Token → Prop) : Language Token :=
  {u | ∀ v, Sound known v → Sound known (u ++ v)}

/-- No opening parenthesis comes first. -/
def Shut (v : List Token) : Prop := ∀ t ∈ v.head?, t.kind ≠ .lparen

/-- The words that have no unknown names called, unless there is an opening parenthesis behind
them. -/
def pending (known : Token → Prop) : Language Token :=
  {u | ∀ v, Sound known v → Shut v → Sound known (u ++ v)}

variable {K L M : Language Token} {ks : List Kind}

theorem settled_le_pending : settled known ≤ pending known := fun _ hu v hv _ => hu v hv

theorem one_le_settled : 1 ≤ settled known := fun w hw _ hv => (Language.mem_one w).1 hw ▸ hv

theorem oneOf_le_settled (h : .identifier ∉ ks) : oneOf ks ≤ settled known := by
  rintro _ ⟨t, rfl, ht⟩ v hv
  exact hv.cons fun hk => absurd (hk ▸ ht) h

theorem identifier_le_pending : tok .identifier ≤ pending known := by
  rintro _ ⟨t, rfl, -⟩ v hv hshut
  exact hv.cons fun _ ⟨o, ho, hk⟩ => absurd hk (hshut o ho)

theorem mul_le_settled (hL : L ≤ settled known) (hM : M ≤ settled known) :
    L * M ≤ settled known := by
  rintro _ ⟨u, hu, w, hw, rfl⟩ v hv
  rw [List.append_assoc]
  exact hL hu _ (hM hw v hv)

/-- A word that must not be called, and one behind it that begins with something else. -/
theorem close_le_settled (hL : L ≤ pending known) (hM : M ≤ settled known) (hs : Starts M ks)
    (hk : .lparen ∉ ks) : L * M ≤ settled known := by
  rintro _ ⟨u, hu, w, hw, rfl⟩ v hv
  rw [List.append_assoc]
  refine hL hu _ (hM hw v hv) fun t ht he => ?_
  obtain ⟨t', w, rfl, ht'⟩ := hs w hw
  obtain rfl : t' = t := Option.some.inj ht
  exact hk (he ▸ ht')

theorem settled_mul_le_pending (hL : L ≤ settled known) (hM : M ≤ pending known) :
    L * M ≤ pending known := by
  rintro _ ⟨u, hu, w, hw, rfl⟩ v hv hshut
  rw [List.append_assoc]
  exact hL hu _ (hM hw v hv hshut)

theorem shut_append (hs : Avoids L [.lparen]) (hu : u ∈ L) (hv : Shut v) : Shut (u ++ v) := by
  cases u with
  | nil => exact hv
  | cons t u =>
    intro t' ht he
    obtain rfl : t = t' := Option.some.inj ht
    exact hs t u hu (List.mem_singleton.2 he)

theorem mul_le_pending (hL : L ≤ pending known) (hM : M ≤ pending known)
    (hs : Avoids M [.lparen]) : L * M ≤ pending known := by
  rintro _ ⟨u, hu, w, hw, rfl⟩ v hv hshut
  rw [List.append_assoc]
  exact hL hu _ (hM hw v hv hshut) (shut_append hs hw hshut)

theorem opt_le_settled (hL : L ≤ settled known) : opt L ≤ settled known :=
  sup_le one_le_settled hL

theorem opt_le_pending (hL : L ≤ pending known) : opt L ≤ pending known :=
  sup_le (one_le_settled.trans settled_le_pending) hL

theorem star_le_settled (hL : L ≤ settled known) : L∗ ≤ settled known :=
  kstar_le_of_mul_le_left one_le_settled (mul_le_settled le_rfl hL)

theorem avoids_star {ls : List Kind} (hs : Starts L ks) (hk : ∀ k ∈ ks, k ∉ ls) : Avoids L∗ ls := by
  rw [← Language.one_add_self_mul_kstar_eq_kstar]
  exact .add .one ((hs.mul _).avoids hk)

theorem star_le_pending (hL : L ≤ pending known) (hs : Starts L ks) (hk : .lparen ∉ ks) :
    L∗ ≤ pending known := by
  have havoids : Avoids L∗ [.lparen] := avoids_star hs fun k hm he =>
    hk (List.mem_singleton.1 he ▸ hm)
  intro w hw
  obtain ⟨ws, rfl, hws⟩ := Language.mem_kstar.1 hw
  clear hw
  induction ws with
  | nil => exact settled_le_pending (one_le_settled Language.nil_mem_one)
  | cons u ws ih =>
    have hrest := fun v hv => hws v (List.mem_cons_of_mem _ hv)
    intro v hv hshut
    rw [List.flatten_cons, List.append_assoc]
    exact hL (hws u List.mem_cons_self) _ (ih hrest v hv hshut)
      (shut_append havoids (Language.mem_kstar.2 ⟨ws, rfl, hrest⟩) hshut)

/-- Words behind one of some tokens that are no names, again and again. -/
theorem sequel_le_pending (hL : L ≤ pending known) (hn : .identifier ∉ ks) (hk : .lparen ∉ ks) :
    (oneOf ks * L)∗ ≤ pending known :=
  star_le_pending (settled_mul_le_pending (oneOf_le_settled hn) hL)
    (.mul (.oneOf (List.Subset.refl ks)) _) hk

theorem sepBy_le_pending (hL : L ≤ pending known) : sepBy L ≤ pending known :=
  mul_le_pending hL (sequel_le_pending hL (by decide) (by decide))
    (avoids_star (.mul (.tok (List.mem_singleton_self _)) _) (by decide))

/-- A word in front of a closing token. -/
theorem ended_le_settled {k : Kind} (hL : L ≤ pending known) (hn : k ≠ .identifier)
    (hk : k ≠ .lparen) : L * tok k ≤ settled known :=
  close_le_settled hL (oneOf_le_settled (by simpa using hn.symm))
    (.tok (List.mem_singleton_self _)) (by simpa using hk.symm)

/-- A word between two tokens. -/
theorem between_le_settled {k l : Kind} (hL : L ≤ pending known) (hk : k ≠ .identifier)
    (hl : l ≠ .identifier) (hl' : l ≠ .lparen) : tok k * (L * tok l) ≤ settled known :=
  mul_le_settled (oneOf_le_settled (by simpa using hk.symm)) (ended_le_settled hL hl hl')

/-! ## Productions -/

section Productions

variable {d : Dialect} {X : Forms} (hE : X .expression ≤ pending d.known)
  (hI : X .init ≤ pending d.known) (hO : X .operand ≤ pending d.known)
  (hS : X .statement ≤ settled d.known) (hC : X .closed ≤ settled d.known)

include hE

theorem suffix_le_settled : suffix X ≤ settled d.known := by
  refine sup_le (sup_le (between_le_settled hE ?_ ?_ ?_) ?_)
    (between_le_settled (opt_le_pending (sepBy_le_pending hE)) ?_ ?_ ?_)
  case refine_4 =>
    rintro _ ⟨_, ⟨dot, rfl, hd⟩, _, ⟨t, rfl, -⟩, rfl⟩ v hv
    exact hv.member (List.mem_singleton.1 hd)
  all_goals decide

/-- A name in front of a primary's arguments is one that may be called. -/
theorem primary_le_pending : primary d X ≤ pending d.known := by
  have hsuffixes : (suffix X)∗ ≤ settled d.known := star_le_settled (suffix_le_settled hE)
  rintro _ ⟨⟨a, ha, s, hs, rfl⟩, hcalls⟩ v hv hshut
  rw [List.append_assoc]
  have hrest : Sound d.known (s ++ v) := hsuffixes hs v hv
  obtain (ha | ⟨t, rfl, ht⟩) | ha := ha
  · exact oneOf_le_settled (by decide) ha _ hrest
  · refine hrest.cons fun hk ⟨o, ho, hopening⟩ => ?_
    cases s with
    | nil => exact absurd hopening (hshut o ho)
    | cons o' s =>
      obtain rfl : o' = o := Option.some.inj ho
      exact hcalls t o' s rfl hk hopening
  · exact between_le_settled hE (by decide) (by decide) (by decide) ha _ hrest

include hO

theorem unary_le_pending : unary d X ≤ pending d.known :=
  sup_le (settled_mul_le_pending (oneOf_le_settled (by decide)) hO)
    (mul_le_pending (primary_le_pending hE)
      (opt_le_pending (settled_le_pending.trans' (oneOf_le_settled (by decide))))
      (.add .one ((Starts.oneOf (List.Subset.refl _)).avoids (by decide))))

theorem binary_le_pending : ∀ levels : List (List Kind), .identifier ∉ levels.flatten →
    .lparen ∉ levels.flatten → binary d X levels ≤ pending d.known
  | [], _, _ => unary_le_pending hE hO
  | operators :: tighter, hn, hk => by
    have htighter := binary_le_pending tighter (fun h => hn (List.mem_append_right _ h))
      fun h => hk (List.mem_append_right _ h)
    have hk' : .lparen ∉ operators := fun h => hk (List.mem_append_left _ h)
    refine mul_le_pending htighter (sequel_le_pending htighter
      (fun h => hn (List.mem_append_left _ h)) hk') (avoids_star
        (.mul (.oneOf (List.Subset.refl _)) _) fun k hm he => ?_)
    exact hk' (List.mem_singleton.1 he ▸ hm)

include hI

theorem expression_le_pending : expression d X ≤ pending d.known :=
  sup_le (mul_le_pending (primary_le_pending hE)
    (settled_mul_le_pending (oneOf_le_settled (by decide)) hI) (.tok_mul (by decide) _))
    (binary_le_pending hE hO _ (by decide) (by decide))

omit hO in
theorem init_le_pending : init X ≤ pending d.known := by
  have hinits : inits X ≤ pending d.known := mul_le_pending (sepBy_le_pending hI)
    (opt_le_pending ((oneOf_le_settled (by decide)).trans settled_le_pending))
    (.add .one ((Starts.oneOf (List.Subset.refl _)).avoids (by decide)))
  exact sup_le ((between_le_settled (opt_le_pending hinits) (by decide) (by decide)
    (by decide)).trans settled_le_pending) hE

omit hE hO in
theorem declarator_le_pending : declarator X ≤ pending d.known := by
  have hassigned : tok .assign * X .init ≤ pending d.known :=
    settled_mul_le_pending (oneOf_le_settled (by decide)) hI
  have hpairs : (tok .lbracket * tok .rbracket)∗ ≤ settled d.known :=
    star_le_settled (mul_le_settled (oneOf_le_settled (by decide)) (oneOf_le_settled (by decide)))
  have hassign : Avoids (opt (tok .assign * X .init)) [.lparen] :=
    .add .one (.tok_mul (by decide) _)
  refine mul_le_pending identifier_le_pending
    (settled_mul_le_pending hpairs (opt_le_pending hassigned)) (.star_mul ?_ hassign)
  rw [mul_assoc]
  exact .tok_mul (by decide) _

omit hE hI hO
include hS

theorem block_le_settled : block X ≤ settled d.known :=
  between_le_settled ((star_le_settled hS).trans settled_le_pending) (by decide) (by decide)
    (by decide)

omit hS
include hE

theorem ruled_le_settled {k : Kind} (hk : k ≠ .identifier) (hL : L ≤ settled d.known) :
    ruled X k L ≤ settled d.known :=
  mul_le_settled (oneOf_le_settled (by simpa using hk.symm))
    (mul_le_settled (between_le_settled hE (by decide) (by decide) (by decide)) hL)

include hI hS

theorem simple_le_settled : simple X ≤ settled d.known := by
  have hsemicolon : tok .semicolon ≤ settled d.known := oneOf_le_settled (by decide)
  refine sup_le (sup_le (sup_le (sup_le (sup_le (block_le_settled hS) hsemicolon) ?_) ?_) ?_) ?_
  · exact between_le_settled (sepBy_le_pending (declarator_le_pending hI)) (by decide) (by decide)
      (by decide)
  · exact between_le_settled (opt_le_pending hE) (by decide) (by decide) (by decide)
  · exact mul_le_settled (oneOf_le_settled (by decide)) hsemicolon
  · exact ended_le_settled hE (by decide) (by decide)

include hC

omit hI in
theorem twoWay_le_settled (hL : L ≤ settled d.known) : twoWay X L ≤ settled d.known :=
  ruled_le_settled hE (by decide) (mul_le_settled (sup_le (block_le_settled hS) hC)
    (mul_le_settled (oneOf_le_settled (by decide)) hL))

theorem statement_le_settled : statement X ≤ settled d.known := by
  have hbody : body X ≤ settled d.known := sup_le (block_le_settled hS) hS
  exact sup_le (sup_le (sup_le (simple_le_settled hE hI hS)
    (ruled_le_settled hE (by decide) hbody)) (ruled_le_settled hE (by decide) hbody))
    (twoWay_le_settled hE hS hC hbody)

theorem closed_le_settled : closed d X ≤ settled d.known := by
  have hbody : closedBody X ≤ settled d.known := sup_le (block_le_settled hS) hC
  unfold closed
  split_ifs
  · exact sup_le (sup_le (simple_le_settled hE hI hS) (ruled_le_settled hE (by decide) hbody))
      (twoWay_le_settled hE hS hC hbody)
  · exact statement_le_settled hE hI hS hC

end Productions

/-! ## Programs -/

/-- Statements that call known names only, and the other forms, which a `(` may yet follow. -/
def knownForms (known : Token → Prop) : Forms
  | .statement | .closed => settled known
  | .expression | .init | .operand => pending known

theorem rules_knownForms (d : Dialect) : rules d (knownForms d.known) ≤ knownForms d.known
  | .statement => statement_le_settled (X := knownForms d.known) le_rfl le_rfl le_rfl le_rfl
  | .closed => closed_le_settled (X := knownForms d.known) le_rfl le_rfl le_rfl le_rfl
  | .expression => expression_le_pending (X := knownForms d.known) le_rfl le_rfl le_rfl
  | .init => init_le_pending (X := knownForms d.known) le_rfl le_rfl
  | .operand => unary_le_pending (X := knownForms d.known) le_rfl le_rfl

theorem sentences_le_known (d : Dialect) :
    sentences d .statement ≤ settled d.known ∧ sentences d .expression ≤ pending d.known ∧
      sentences d .init ≤ pending d.known := by
  have hle := sentences_le (rules_knownForms d)
  exact ⟨hle .statement, hle .expression, hle .init⟩

theorem sound_nil {known : Token → Prop} : Sound known [] := fun i name hn => by
  simpa using hn.token

/-- The name that an expression begins with is known, if it is called. -/
theorem known_of_expression {d : Dialect} {opening : Token}
    (h : name :: opening :: w ∈ sentences d .expression) (hn : name.kind = .identifier)
    (ho : opening.kind = .lparen) : d.known name := by
  have hsound := (sentences_le_known d).2.1 h [] sound_nil fun t ht => by cases ht
  exact hsound 0 name ⟨rfl, hn, ⟨opening, rfl, ho⟩, fun j t hj => by cases hj⟩

/-- In a program, all names that are called are known, except the name of the program. -/
theorem known_of_callee {d : Dialect} {tokens : List Token}
    (h : tokens ∈ program (sentences d)) (hc : Callee tokens i name) (hi : i ≠ 1) :
    d.known name := by
  obtain ⟨hS, -, hI⟩ := sentences_le_known d
  have hparameter : parameter (sentences d) ≤ pending d.known :=
    settled_mul_le_pending (opt_le_settled (oneOf_le_settled (by decide)))
      (declarator_le_pending hI)
  have hrest : tok .lparen * (opt (sepBy (parameter (sentences d))) * (tok .rparen *
      (block (sentences d) * tok .endOfInput))) ≤ settled d.known := by
    have hblock := block_le_settled hS
    rw [← mul_assoc (opt _), ← mul_assoc]
    exact mul_le_settled (between_le_settled (opt_le_pending (sepBy_le_pending hparameter))
      (by decide) (by decide) (by decide)) (mul_le_settled hblock (oneOf_le_settled (by decide)))
  obtain ⟨func, _, rfl, hfunc, hw⟩ := mem_oneOf_mul.1 h
  obtain ⟨own, w, rfl, -, hw⟩ := mem_oneOf_mul.1 hw
  have hsound : Sound d.known w := by
    simpa using hrest hw [] sound_nil
  match i with
  | 0 =>
    obtain rfl : func = name := Option.some.inj hc.token
    exact absurd ((List.mem_singleton.1 hfunc).symm.trans hc.name) (by decide)
  | 1 => exact absurd rfl hi
  | i + 2 => exact hsound i name hc.tail.tail

end Botscript.Grammar
