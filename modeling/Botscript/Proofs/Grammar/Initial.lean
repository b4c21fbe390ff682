import Botscript.Proofs.Grammar.Exact
import Botscript.Proofs.Grammar.Lists
import Botscript.Proofs.Parse.Dependence

/-!
# Where initial values end

Wherever initial values stand in a list of tokens, the parser ends behind a word of their language
and behind no other (`ReadsAll.ends_behind`, `init_run_iff`), if what follows does not go on with an
expression. That language is the loose one without commas right behind opening brackets
(`init_ends_behind`), and so it is for whole sources (`accepts_filled`): a comma that is alone in
brackets is not accepted (`comma_alone`).
-/

namespace Botscript

open Computability Token Parse ParseM Grammar

namespace Parse

namespace Cursor

variable {input : Input} {u v : List Token}

/-- Behind tokens without an end of input. -/
theorem reached_starting (h : input.stream = u ++ v) (hv : v ≠ [])
    (hu : ∀ s ∈ u, s.kind ≠ .endOfInput) : (starting u.length).Reached input := by
  have hpos := List.length_pos_iff.2 hv
  have hlength := congrArg List.length h
  rw [Input.length_stream, List.length_append] at hlength
  refine ⟨tidy_starting (by omega), fun i hi => ?_⟩
  have hi : i < u.length := hi
  have htoken : input.stream[i]? = some (input.token i) := Input.getElem?_stream (by omega)
  rw [h, List.getElem?_append_left hi] at htoken
  exact hu _ (List.mem_of_getElem? htoken)

end Cursor

/-- Two runs end at the same places, except where only one of them is in front of an assignment
sign. -/
theorem Frame.Answers.ok_iff {α : Type} {F : Frame} {input : Input} {doom : Bool}
    {r r' : EStateM.Result Failure Cursor α} (h : F.Answers input doom r r') {n : Nat}
    (hk : input.kind n ≠ .assign) (a : α) :
    (∃ d, r = .ok a d ∧ d.pos = n) ↔ ∃ d, r' = .ok a d ∧ d.pos = n := by
  cases h with
  | ok h =>
    constructor
    · rintro ⟨_, he, hn⟩
      cases he
      exact ⟨_, rfl, h.pos.symm.trans hn⟩
    · rintro ⟨_, he, hn⟩
      cases he
      exact ⟨_, rfl, h.pos.trans hn⟩
  | doomed _ hd =>
    constructor
    · rintro ⟨_, he, rfl⟩
      cases he
      exact absurd hd.kind hk
    · rintro ⟨_, he, -⟩
      cases he
  | mismatch | fatal =>
    constructor
    all_goals
      rintro ⟨_, he, -⟩
      cases he

end Parse

namespace Grammar

variable {input : Input} {u v w : List Token} {t : Token}

/-- The parser ends initial values where the predictive parser does, if no assignment sign is
there. -/
theorem init_run_iff {i n : Nat} (hi : i ≤ input.tokens.size) (hk : input.kind n ≠ .assign)
    (levels : Nat) :
    (∃ d, (Nested.ofLevels levels).init.run input (.starting i) = .ok () d ∧ d.pos = n) ↔
      ∃ d, (Nested.predictive levels).init.run input.remembering (.starting i) = .ok () d ∧
        d.pos = n := by
  obtain ⟨F, -, -, hans⟩ := ParseM.Sim.exists_frame (fun F _ => (Nested.sim levels).init F) hi
  exact hans.ok_iff hk ()

/-- Initial values end behind a word of the loose grammar in which no opening bracket has a comma
right behind it, and behind no other word, where what follows does not go on with an expression. -/
theorem init_ends_behind (hstream : input.stream = u ++ (w ++ t :: v))
    (hu : ∀ s ∈ u, s.kind ≠ .endOfInput) (ht : t.kind ∉ behindExpression) (levels : Nat) :
    (∃ d, (Nested.ofLevels levels).init.run input (.starting u.length) = .ok () d ∧
      d.pos = u.length + w.length) ↔
        w ∈ loose (dialect input.registry) levels .init ∧ w ∈ filled := by
  have hlength := congrArg List.length hstream
  rw [Input.length_stream, List.length_append, List.length_append, List.length_cons] at hlength
  have htoken : input.token (u.length + w.length) = t := by
    have hget : input.stream[u.length + w.length]? = some _ := Input.getElem?_stream (by omega)
    rw [hstream, ← List.append_assoc, List.getElem?_append_right (by simp), List.length_append,
      Nat.sub_self] at hget
    exact (Option.some.inj hget).symm
  have hassign : input.kind (u.length + w.length) ≠ .assign := fun he => by
    rw [Input.kind, htoken] at he
    exact ht (he ▸ by decide)
  have hreads : ReadsAll input.remembering (Nested.predictive levels).init
      (limited (dialect input.registry) levels .init) behindExpression :=
    fun A hA => (inner_predictive rfl hA levels).init
  have hreached : (Cursor.starting u.length).Reached input.remembering :=
    Cursor.reached_starting hstream (by simp) hu
  have hdrop : input.remembering.stream.drop u.length = w ++ t :: v :=
    (congrArg (List.drop u.length) hstream).trans (List.drop_left ..)
  have hends := hreads.ends_behind hreached hdrop ht
  rw [limited_eq] at hends
  rw [init_run_iff (by omega) hassign]
  cases hrun : (Nested.predictive levels).init.run input.remembering (.starting u.length) with
  | error e d =>
    refine iff_of_false ?_ (hends.error hrun)
    rintro ⟨_, he, -⟩
    cases he
  | ok a d =>
    obtain ⟨-, hiff⟩ := hends.ok hrun
    constructor
    · rintro ⟨_, he, hpos⟩
      cases he
      exact hiff.2 hpos
    · exact fun hw => ⟨d, rfl, hiff.1 hw⟩

end Grammar

/-- What the parser accepts is the loose grammar of initial values, except that no opening bracket
may have a comma right behind it. This is so of whole sources, and at each depth of the initial
values that stand somewhere in a list of tokens, with nothing behind them that goes on with an
expression. -/
theorem accepts_filled (registry : Registry) :
    (∀ (source : String) (tokens : List Token), tokenize source = .ok tokens →
      ((∃ p, parse source registry = .ok p) ↔
        tokens ∈ Grammar.program (loose (dialect registry) maxNesting) ∧ tokens ∈ filled)) ∧
    ∀ (input : Input) (levels : Nat) (u w v : List Token) (t : Token),
      input.registry = registry → input.stream = u ++ (w ++ t :: v) →
      (∀ s ∈ u, s.kind ≠ .endOfInput) → t.kind ∉ behindExpression →
      ((∃ d, (Nested.ofLevels levels).init.run input (.starting u.length) = .ok () d ∧
        d.pos = u.length + w.length) ↔
          w ∈ loose (dialect registry) levels .init ∧ w ∈ filled) := by
  refine ⟨fun source tokens h => ?_, ?_⟩
  · have haccepts : (∃ p, parseTokens source tokens registry = .ok p) ↔ _ :=
      Input.accepts_iff (ended_tokenize h)
    simp only [parse_eq_ok_iff h, haccepts, program_limited_eq]
    rfl
  · rintro input levels u w v t rfl hstream hu ht
    exact init_ends_behind hstream hu ht levels

/-- Tokens of some kinds that stand nowhere in particular. -/
def ofKinds (ks : List Kind) : List Token := ks.map fun k => ⟨k, "", .origin, 0⟩

/-- An input of some tokens, without a source or functions. -/
def Parse.Input.sample (tokens : List Token) : Input := ⟨[], tokens.toArray, fun _ => none, true⟩

/-- A comma behind a value, in a source and in a list by itself. -/
theorem accepts_filled_behind :
    (∃ tokens, tokenize "func f() \x7bvar a[] = [1,];\x7d" = .ok tokens ∧
      tokens ∈ Grammar.program (loose (dialect fun _ => none) maxNesting) ∧ tokens ∈ filled) ∧
    ∃ w : List Token, w.map kind = [.lbracket, .integer, .comma, .rbracket] ∧
      w ∈ loose (dialect fun _ => none) maxNesting .init ∧ w ∈ filled := by
  have hparse : parse "func f() \x7bvar a[] = [1,];\x7d" (fun _ => none) =
      .ok ⟨"f", [], [.procedure "var a [ ] = [ 1 , ];"]⟩ := by rfl
  refine ⟨⟨_, rfl, ((accepts_filled _).1 _ _ rfl).1 ⟨_, hparse⟩⟩, ?_⟩
  let w := ofKinds [.lbracket, .integer, .comma, .rbracket]
  let t : Token := ⟨.semicolon, "", .origin, 0⟩
  let input := Input.sample (w ++ [t])
  have hrun : ∃ d, (Nested.ofLevels maxNesting).init.run input (.starting 0) = .ok () d ∧
      d.pos = 4 := ⟨_, rfl, rfl⟩
  exact ⟨w, rfl, ((accepts_filled _).2 input maxNesting [] w [input.ending] t rfl rfl nofun
    (by decide)).1 hrun⟩

/-- A comma that is alone in brackets is a loose list of initial values, but no such list ends
behind it. -/
theorem comma_alone :
    ofKinds [.lbracket, .comma, .rbracket] ∈ loose (dialect fun _ => none) maxNesting .init ∧
      ¬ ∃ d, (Nested.ofLevels maxNesting).init.run
        (.sample (ofKinds [.lbracket, .comma, .rbracket, .semicolon])) (.starting 0) = .ok () d ∧
          d.pos = 3 := by
  let w := ofKinds [.lbracket, .comma, .rbracket]
  let input := Input.sample (w ++ [⟨.semicolon, "", .origin, 0⟩])
  constructor
  · have hw : w ∈ looseInit (loose (dialect fun _ => none) (maxNesting - 1)) := by
      rw [looseInit_eq]
      refine .inr (cons_mem_oneOf_mul.2 ⟨by decide, cons_mem_oneOf_mul.2 ⟨by decide, ?_⟩⟩)
      exact ⟨_, rfl, by decide⟩
    exact hw
  · intro hrun
    have hstream : input.stream = [] ++ (w ++ ⟨.semicolon, "", .origin, 0⟩ :: [input.ending]) := rfl
    have hfilled := ((init_ends_behind hstream nofun (by decide) maxNesting).1 hrun).2
    exact (List.isChain_cons_cons.1 hfilled).1 rfl rfl

end Botscript
