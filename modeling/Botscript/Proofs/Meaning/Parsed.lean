import Botscript.Proofs.Meaning.Reading
import Botscript.Proofs.Parse.Dependence

/-!
# The tree of a program

A source is parsed to a program if and only if its tokens denote that program
(`parse_ok_iff_denotes`): no step of the parser loses, adds or changes anything, and what a program
denotes does not depend on how it is parsed.
-/

namespace Botscript

open Computability Token Parse Grammar ParseM

namespace Parse

variable {input : Input} {c : Cursor} {t : Token} {u v w : List Token} {levels : Nat}

/-! ## Parameters -/

theorem gives_dimensions {dims : Nat} (hw : w ∈ (tok .lbracket * tok .rbracket) ^ dims)
    (ht : t.kind ≠ .lbracket) (h : c.Before input (w ++ t :: v)) :
    ∃ pairs, pairs.length = dims ∧ Gives input (many Nested.dimension?) c pairs (t :: v) := by
  have hseq : ∃ pairs : List Token, pairs.length = dims ∧
      Sequence (fun u r => ∃ l, u = [l, r] ∧ l.kind = .lbracket ∧ r.kind = .rbracket) w pairs := by
    clear h
    induction dims generalizing w with
    | zero =>
      obtain rfl := (Language.mem_one w).1 hw
      exact ⟨[], rfl, .nil⟩
    | succ dims ih =>
      rw [pow_succ'] at hw
      obtain ⟨_, hpair, w, hw, rfl⟩ := hw
      obtain ⟨l, _, rfl, hl, hlast⟩ := mem_tok_mul.1 hpair
      obtain ⟨r, rfl, hr⟩ := mem_tok.1 hlast
      obtain ⟨pairs, hlength, hpairs⟩ := ih hw
      exact ⟨r :: pairs, congrArg (· + 1) hlength, .cons ⟨l, rfl, hl, hr⟩ hpairs⟩
  obtain ⟨pairs, hlength, hpairs⟩ := hseq
  refine ⟨pairs, hlength, gives_many (P := fun _ => True) ?_ (fun _ _ _ _ _ => trivial) ?_ ?_
    hpairs trivial h⟩
  · rintro _ r ⟨l, rfl, -⟩
    exact List.cons_ne_nil _ _
  · rintro _ r v c ⟨l, rfl, hl, hr⟩ - h
    refine (gives_eat h hl (by decide) (by decide)).bind fun d hd => ?_
    rw [if_pos rfl]
    exact (gives_expect hd hr (by decide) (by decide)).map some
  · intro c h
    refine (gives_eat_of_ne h ht).bind fun d hd => ?_
    rw [if_neg Bool.false_ne_true]
    exact gives_pure hd _

theorem starts_parameter {X : Forms} {p : Param} (h : Parameter X w p) :
    ∃ t v, w = t :: v ∧ t.kind ≠ .rparen := by
  obtain ⟨hfront, hname, -, -⟩ := h
  obtain hfront | hfront := hfront
  · obtain rfl := (Language.mem_one _).1 hfront
    exact ⟨_, _, rfl, by rw [hname]; decide⟩
  · obtain ⟨keyword, rfl, hk⟩ := mem_tok.1 hfront
    exact ⟨_, _, rfl, by rw [hk]; decide⟩

section Parameters

variable (he : Ended input.tokens.toList) (hr : input.remembers = true)

include he hr

theorem gives_initText {init : Option String}
    (ha : Assigned (limited (dialect input.registry) levels) w init)
    (ht : t.kind ∉ behindExpression) (h : c.Before input (w ++ t :: v)) :
    Gives input (Nested.predictive levels).initText? c init (t :: v) := by
  cases ha with
  | none =>
    refine (gives_eat_of_ne h fun hk => ht (hk ▸ by decide)).bind fun d hd => ?_
    rw [if_neg Bool.false_ne_true]
    exact gives_pure hd _
  | some hs hinit =>
    rw [← spanText_eq]
    refine (gives_eat h hs (by decide) (by decide)).bind fun d hd => ?_
    rw [if_pos rfl]
    refine gives_bind_of_run run_position ?_
    refine (gives_init he hr hinit ht hd).bind fun e he => ?_
    exact (gives_textFrom hd he).map some

theorem gives_parameter {p : Param}
    (hp : Parameter (limited (dialect input.registry) levels) w p)
    (ht : t.kind ∉ behindExpression) (h : c.Before input (w ++ t :: v)) :
    Gives input (Nested.predictive levels).parameter c p (t :: v) := by
  obtain ⟨hfront, hname, hpairs, ha⟩ := hp
  rename_i front pairs rest name dims init
  have hdeclarator : ∀ c, c.Before input (name :: (pairs ++ (rest ++ t :: v))) →
      Gives input (Nested.predictive levels).declarator c ⟨name.image, dims, init⟩ (t :: v) := by
    intro c h
    refine (gives_expect h hname (by decide) (by decide)).bind fun d hd => ?_
    obtain ⟨t', v', hnext, ht'⟩ : ∃ t' v', rest ++ t :: v = t' :: v' ∧ t'.kind ≠ .lbracket := by
      cases ha with
      | none => exact ⟨t, v, rfl, fun hk => ht (hk ▸ by decide)⟩
      | some hs => exact ⟨_, _, rfl, by rw [hs]; decide⟩
    rw [hnext] at hd
    obtain ⟨answers, hlength, hanswers⟩ := gives_dimensions hpairs ht' hd
    refine hanswers.bind fun e he' => ?_
    rw [← hnext] at he'
    refine (gives_initText he hr ha ht he').bind fun e' he' => ?_
    rw [hlength]
    exact gives_pure he' _
  rw [List.append_assoc, List.cons_append, List.append_assoc] at h
  obtain hfront | hfront := hfront
  · obtain rfl := (Language.mem_one front).1 hfront
    exact (gives_eat_of_ne h (by rw [hname]; decide)).bind fun d hd => hdeclarator d hd
  · obtain ⟨keyword, rfl, hk⟩ := mem_tok.1 hfront
    exact (gives_eat h hk (by decide) (by decide)).bind fun d hd => hdeclarator d hd

/-- Behind a parameter there is a comma or the closing parenthesis. -/
def BehindParameter (v : List Token) : Prop := ∃ t u, v = t :: u ∧ t.kind ∉ behindExpression

omit he hr in
theorem behindParameter_append {X : Forms} {p : Param} (h : NextParameter X u p)
    (v : List Token) : BehindParameter (u ++ v) := by
  obtain ⟨comma, w, rfl, hc, -⟩ := h
  exact ⟨comma, w ++ v, rfl, by rw [hc]; decide⟩

theorem gives_nextParameter {p : Param}
    (h : NextParameter (limited (dialect input.registry) levels) u p) (hv : BehindParameter v)
    (hc : c.Before input (u ++ v)) :
    Gives input
      (do if ← eat .comma then some <$> (Nested.predictive levels).parameter else return none)
      c (some p) v := by
  obtain ⟨comma, w, rfl, hcomma, hp⟩ := h
  obtain ⟨t, v, rfl, ht⟩ := hv
  refine (gives_eat hc hcomma (by decide) (by decide)).bind fun d hd => ?_
  rw [if_pos rfl]
  exact (gives_parameter he hr hp ht hd).map some

theorem gives_parameters {params : List Param}
    (hp : u = [] ∧ params = [] ∨ Parameters (limited (dialect input.registry) levels) u params)
    (ht : t.kind = .rparen) (h : c.Before input (u ++ t :: v)) :
    Gives input (Nested.predictive levels).parameters c params (t :: v) := by
  have hlast : BehindParameter (t :: v) := ⟨t, v, rfl, by rw [ht]; decide⟩
  obtain ⟨rfl, rfl⟩ | ⟨hfirst, hrest⟩ := hp
  · refine (gives_check h _).bind fun d hd => ?_
    rw [decide_eq_true ht, if_pos rfl]
    exact gives_pure hd _
  rename_i u w p ps
  rw [List.append_assoc] at h
  obtain ⟨t', v', hnext, ht'⟩ : BehindParameter (w ++ t :: v) :=
    sequence_append (fun _ _ v hp _ => behindParameter_append hp v) hrest hlast
  have hne : ∀ u p, NextParameter (limited (dialect input.registry) levels) u p → u ≠ [] := by
    rintro _ _ ⟨comma, w, rfl, -⟩
    exact List.cons_ne_nil _ _
  obtain ⟨first, u, rfl, hstart⟩ := starts_parameter hfirst
  refine (gives_check h _).bind fun d hd => ?_
  rw [decide_eq_false hstart, if_neg Bool.false_ne_true]
  rw [hnext] at hd
  refine (gives_parameter he hr hfirst ht' hd).bind fun e he' => ?_
  rw [← hnext] at he'
  refine (gives_many hne (fun _ _ v hp _ => behindParameter_append hp v)
    (fun _ _ _ _ hp hv hc => gives_nextParameter he hr hp hv hc) (fun c hc => ?_) hrest hlast
    he').bind fun e' he' => gives_pure he' _
  refine (gives_eat_of_ne hc (by rw [ht]; decide)).bind fun d hd => ?_
  rw [if_neg Bool.false_ne_true]
  exact gives_pure hd _

end Parameters

/-! ## Programs -/

/-- In front of tokens that denote a program, the parser answers this program. -/
theorem exists_run_program {source : String} {p : Program} (he : Ended input.tokens.toList)
    (hr : input.remembers = true) (hsource : input.source = source.toList)
    (h : ProgramMeaning (sourceText source) input.registry levels input.tokens.toList p) :
    ∃ d, (Nested.predictive levels).program.run input .initial = .ok p d := by
  have hc : Cursor.initial.Before input input.tokens.toList := ⟨Twins.sound_initial input, rfl⟩
  have hgives := givesAll_statement he hr hsource levels
  generalize input.tokens.toList = w at h hc
  obtain ⟨hf, hn, ho, hp, hclose, hb, hend⟩ := h
  rename_i func name opening closing ending u v params body
  suffices hprogram : Gives input (Nested.predictive levels).program .initial
      ⟨name.image, params, body⟩ [ending] by
    obtain ⟨d, hrun, -⟩ := hprogram
    exact ⟨d, hrun⟩
  refine (gives_expect hc hf (by decide) (by decide)).bind fun c₁ h₁ => ?_
  refine (gives_expect h₁ hn (by decide) (by decide)).bind fun c₂ h₂ => ?_
  refine (gives_expect h₂ ho (by decide) (by decide)).bind fun c₃ h₃ => ?_
  refine (gives_parameters he hr hp hclose h₃).bind fun c₄ h₄ => ?_
  refine (gives_expect h₄ hclose (by decide) (by decide)).bind fun c₅ h₅ => ?_
  refine (gives_braced (orderly_meaning _ _ _) hgives hb h₅).bind fun c₆ h₆ => ?_
  have hlast := run_expect_end (h₆.kind.trans hend)
  exact gives_bind_of_run hlast (gives_pure (h₆.note _) _)

/-- The program that tokens denote is the one that is parsed. -/
theorem parse_of_programMeaning {source : String} {p : Program} (he : Ended input.tokens.toList)
    (hr : input.remembers = true) (hsource : input.source = source.toList)
    (h : ProgramMeaning (sourceText source) input.registry maxNesting input.tokens.toList p) :
    input.parse = .ok p := by
  obtain ⟨d, hrun⟩ := exists_run_program he hr hsource h
  rw [Input.parse_eq, Twins.decided_eq hr, hrun]

theorem parse_iff_programMeaning {source : String} {p : Program} (he : Ended input.tokens.toList)
    (hr : input.remembers = true) (hsource : input.source = source.toList) :
    input.parse = .ok p ↔
      ProgramMeaning (sourceText source) input.registry maxNesting input.tokens.toList p := by
  refine ⟨fun hp => ?_, parse_of_programMeaning he hr hsource⟩
  -- What was accepted denotes a program, which is then the one that was parsed.
  obtain ⟨p', hp'⟩ :=
    exists_programMeaning (sourceText source) ((Input.accepts_iff he).1 ⟨p, hp⟩)
  obtain rfl : p' = p :=
    Except.ok.inj ((parse_of_programMeaning he hr hsource hp').symm.trans hp)
  exact hp'

end Parse

/-- A source is parsed to a program if and only if its tokens denote that program: commands stand in
source order, neighbouring plain statements make one procedure, whole calls and control structures
are commands of their own, and each `else` belongs to the nearest `if`. -/
theorem parse_ok_iff_denotes {source : String} {registry : Registry} {p : Program} :
    parse source registry = .ok p ↔ ∃ tokens, tokenize source = .ok tokens ∧
      ProgramMeaning (sourceText source) registry maxNesting tokens p := by
  constructor
  · intro hp
    obtain ⟨tokens, h⟩ := exists_tokens_of_parse hp
    exact ⟨tokens, h, (parse_iff_programMeaning (ended_tokenize h) rfl rfl).1
      ((parse_eq_ok_iff h).1 hp)⟩
  · rintro ⟨tokens, h, hp⟩
    exact (parse_eq_ok_iff h).2 (parse_of_programMeaning (ended_tokenize h) rfl rfl hp)

end Botscript
