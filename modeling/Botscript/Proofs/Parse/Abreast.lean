import Botscript.Proofs.Parse.Decision
import Botscript.Proofs.Parse.Twins

/-!
# The productions on twins

Every production of the predictive parser runs alike on twins (`Twins.inner_predictive`), so parses
of whole programs do (`Twins.parse_alike`).
-/

namespace Botscript.Parse

open Computability Token Grammar ParseM

/-- What is read up to a token, and where that token is. -/
theorem ParseM.exists_of_run_upTo {input : Input} {c d : Cursor} {k : Kind} {step : ParseM Unit}
    {closing : Nat} (hk : k ≠ .endOfInput) (h : (upTo k step).run input c = .ok closing d) :
    input.kind closing = k ∧ d.pos = closing + 1 := by
  obtain ⟨_, e, -, h⟩ := exists_of_run_bind h
  rw [run_bind_of_ok run_position] at h
  obtain ⟨t, e', hexpect, h⟩ := exists_of_run_bind h
  obtain ⟨hkind, -, rfl⟩ := (run_expect_eq_ok hk).1 hexpect
  cases h
  exact ⟨hkind, rfl⟩

theorem Input.getElem?_of_lt {input : Input} {i : Nat} (h : i < input.tokens.size) :
    input.tokens.toList[i]? = some (input.token i) := by
  have hlt : i < input.tokens.toList.length := by simpa using h
  rw [Ended.token_eq_getElem hlt, List.getElem?_eq_getElem hlt]

/-- There is a token of an index if it is not the end of input. -/
theorem Input.getElem?_of_kind {input : Input} {i : Nat} (h : input.kind i ≠ .endOfInput) :
    input.tokens.toList[i]? = some (input.token i) :=
  getElem?_of_lt (Nat.lt_of_not_le fun hle => h (Cursor.kind_of_size_le hle))

/-- A name with an opening parenthesis behind it and no dot in front of it. -/
theorem callee_of_kinds {input : Input} {i : Nat} (hname : input.kind i = .identifier)
    (hopening : input.kind (i + 1) = .lparen) (hs : Settled input i) :
    Callee input.tokens.toList i (input.token i) where
  token := Input.getElem?_of_kind (by rw [hname]; decide)
  name := hname
  opening := ⟨_, Input.getElem?_of_kind (by rw [hopening]; decide), hopening⟩
  free j t hi ht := by
    have htoken : input.token j = t := by
      rw [Array.getElem?_toList] at ht
      unfold Input.token
      rw [ht]
    have hj := hs j hi
    rwa [Input.kind, htoken] at hj

namespace Twins

variable {α : Type} {input input' : Input} {texts : String → String → Prop}
  {w : Twins input input' texts} {inner : Nested} {c : Cursor}

/-- Nested productions that run alike on twins. Those of the first input read forms. -/
structure Inner (w : Twins input input' texts) (inner : Nested) : Prop where
  forward : inner.Forward
  forms : ∃ X ≤ sentences (dialect input.registry), ∀ A : Aim, A.exact = false →
    Grammar.Inner A input (dialect input.registry) inner X
  statement : w.Alike (Item.Like texts) inner.statement inner.statement
  expression : w.Alike Eq inner.expression inner.expression
  init : w.Alike Eq inner.init inner.init
  operand : w.Alike Eq inner.operand inner.operand

namespace Alike

variable {R : α → α → Prop} {m m' : ParseM α}

theorem advanceIf {ks : List Kind} (hd : .dot ∉ ks) {m m' : ParseM Unit} (h : w.Alike Eq m m') :
    w.Alike Eq (do if ← ParseM.checkAny ks then ParseM.advance else m)
      (do if ← ParseM.checkAny ks then ParseM.advance else m') := fun c hc => by
  refine .bind_of_ok (run_checkAny ks) (run_checkAny ks) (Cursor.noteAll_pos c ks).ge ?_
  rw [w.kind]
  by_cases hk : input.kind c.pos ∈ ks
  · rw [decide_eq_true hk, if_pos rfl, if_pos rfl]
    refine alikeAt_advance (hc.noteAll ks) fun he => ?_
    rw [Cursor.noteAll_pos] at he
    exact hd (he ▸ hk)
  · rw [decide_eq_false hk, if_neg Bool.false_ne_true, if_neg Bool.false_ne_true]
    exact h _ (hc.noteAll ks)

/-- A dot is passed together with the name behind it. -/
theorem memberElse (a : α) (ha : R a a) (h : w.Alike R m m') :
    w.Alike R
      (do
        if ← ParseM.eat .dot then
          let _ ← ParseM.expect .identifier
          return a
        else m)
      (do
        if ← ParseM.eat .dot then
          let _ ← ParseM.expect .identifier
          return a
        else m') := fun c hc => by
  by_cases hk : input.kind c.pos = .dot
  · refine .bind_of_ok (run_eat_of_eq hk (by decide))
      (run_eat_of_eq (by rwa [w.kind]) (by decide)) (Nat.le_succ _) ?_
    rw [if_pos rfl, if_pos rfl]
    have hreached := (hc.toReached.note .dot).next (by rw [Cursor.note_pos, hk]; decide)
    by_cases hn : input.kind (c.note .dot).next.pos = .identifier
    · refine .bind_of_ok (run_expect_of_eq hn (by decide))
        (run_expect_of_eq (by rwa [w.kind]) (by decide)) (Nat.le_succ _) ?_
      refine .of_ok rfl rfl ha ⟨(hreached.note _).next (by rw [Cursor.note_pos, hn]; decide), ?_,
        fun site hs => (hc.calls site hs).mono (Nat.le_add_right _ 2)⟩ le_rfl
      intro j hj
      cases hj
      exact hn.trans_ne (by decide)
    · unfold AlikeAt
      rw [run_bind_of_error (run_expect_of_ne hn),
        run_bind_of_error (run_expect_of_ne (by rwa [w.kind]))]
      exact .mismatch
  · refine .bind_of_ok (run_eat_of_ne hk) (run_eat_of_ne (by rwa [w.kind])) le_rfl ?_
    rw [if_neg Bool.false_ne_true, if_neg Bool.false_ne_true]
    exact h _ (hc.note _)

end Alike

/-! ## Calls -/

/-- A call is noted by both, or it is unknown to the first input at least. -/
theorem alikeAt_callSite {site : CallSite} (hc : c.Sound input)
    (hcallee : Callee input.tokens.toList site.name (input.token site.name))
    (hsite : (input.registry (input.token site.name).image).isSome → site.Proper input c.pos) :
    w.AlikeAt c Eq (callSite site) (callSite site) := by
  refine .bind_of_ok run_read run_read le_rfl (.bind_of_ok run_read run_read le_rfl ?_)
  rw [w.image]
  cases hr : input.registry (input.token site.name).image with
  | some make =>
    obtain ⟨make', hr', -⟩ := w.registry _ _ hr
    rw [hr']
    exact .of_ok (run_modify _) (run_modify _) rfl (hc.addCall (hsite (by rw [hr]; rfl))) le_rfl
  | none =>
    cases hr' : input'.registry (input.token site.name).image with
    | none => exact .unknown hcallee
    | some make' => exact .missing hcallee hr (by rw [hr']; rfl)

namespace Inner

variable (h : w.Inner inner)

include h

theorem expressions : w.Alike Eq inner.expressions inner.expressions :=
  (Alike.sepByComma h.expression).bind fun _ _ _ => .pure rfl

/-- The arguments of a call stand between its parentheses. -/
theorem span_arguments (hc : c.Reached input) {d : Cursor} {closing : Nat}
    (hrun : (upTo .rparen inner.expressions).run input c = .ok closing d) :
    c.pos ≤ closing ∧ input.span c.pos closing ∈
      opt (sepBy (sentences (dialect input.registry) .expression)) := by
  obtain ⟨X, hX, hinner⟩ := h.forms
  have hreads : ReadsAll input (upTo .rparen inner.expressions)
      (opt (sepBy (X .expression)) * tok .rparen) [] := fun A hA => by
    have hi := hinner A hA
    have hexprs : Reads A input inner.expressions (sepBy (X .expression))
        (.comma :: behindExpression) :=
      (Reads.sepByComma hi.expression.reads (fun hA => hi.possible hA _) (by decide)).before
        fun _ _ => ⟨_, rfl⟩
    exact .upTo (by decide) (fun K => ((hi.regular.expression.sepBy).mul K).avoids (by decide))
      fun _ _ hp hc => hexprs.awaits (by decide) (by decide) hp hc
  obtain ⟨-, hd⟩ := exists_of_run_upTo (by decide) hrun
  obtain ⟨hle, hreached, u, hu, _, ⟨t, rfl, -⟩, hspan⟩ :=
    hreads.span_mem hc hrun List.not_mem_nil
  have hbounded := hreached.tidy.bounded
  have hlength := congrArg List.length hspan
  rw [Input.length_span hbounded, List.length_append, List.length_singleton] at hlength
  have hle : c.pos ≤ closing := by omega
  refine ⟨hle, ?_⟩
  rw [hd, Input.span_concat hle (by omega)] at hspan
  obtain ⟨rfl, -⟩ := List.append_inj' hspan rfl
  exact opt_mono (sepBy_mono (hX .expression)) hu

theorem alikeAt_arguments {start : Nat} (hstart : Settled input start) (hc : c.Sound input)
    (hk : input.kind c.pos = .lparen) :
    w.AlikeAt c Eq (inner.arguments start) (inner.arguments start) := by
  refine .bind_of_ok run_position run_position le_rfl ?_
  refine (alikeAt_advance hc (by rw [hk]; decide)).bind fun _ _ d hd _ hsound => ?_
  rw [run_advance (by rw [hk]; decide)] at hd
  cases hd
  refine ((Alike.upTo (by decide) h.expressions) _ hsound).bind
    fun closing _ e hrun he hsound' => ?_
  subst he
  obtain ⟨hclosing, hpos⟩ := exists_of_run_upTo (by decide) hrun
  obtain ⟨hle, hargs⟩ := h.span_arguments hsound.toReached hrun
  refine .bind_of_ok run_read run_read le_rfl ?_
  rw [w.kind]
  by_cases hcall : c.pos = start + 1 ∧ input.kind start = .identifier
  · rw [if_pos hcall]
    have hopening : input.kind (start + 1) = .lparen := hcall.1 ▸ hk
    refine alikeAt_callSite hsound' (callee_of_kinds hcall.2 hopening hstart) fun hknown => ?_
    exact
      { name := hcall.2
        opening_eq := hcall.1
        opening := hk
        lt := hle
        closing := hclosing
        closing_lt := hpos ▸ Nat.lt_succ_self _
        args := hargs
        known := hknown }
  · rw [if_neg hcall]
    exact .of_ok rfl rfl rfl hsound' le_rfl

/-! ## Expressions -/

theorem suffix? {start : Nat} (hstart : Settled input start) :
    w.Alike (Option.Rel Eq) (inner.suffix? start) (inner.suffix? start) := by
  refine (Alike.eat (by decide)).bind_eq fun _ => .ite (fun _ => ?_) fun _ =>
    .memberElse _ (.some rfl) fun c hc => ?_
  · exact h.expression.bind fun _ _ _ => (Alike.expect (by decide)).bind fun _ _ _ =>
      .pure (.some rfl)
  refine .bind_of_ok (run_check .lparen) (run_check .lparen) le_rfl ?_
  rw [w.kind]
  by_cases hk : input.kind c.pos = .lparen
  · rw [decide_eq_true hk, if_pos rfl, map_eq_pure_bind]
    exact (h.alikeAt_arguments hstart (hc.note _) hk).bind fun _ _ d _ he hd =>
      .of_ok rfl rfl (.some he) hd le_rfl
  · rw [decide_eq_false hk, if_neg Bool.false_ne_true]
    exact .of_ok rfl rfl .none (hc.note _) le_rfl

theorem head : w.Alike Eq inner.head inner.head := by
  have hparens : w.Alike Eq
      (do
        if ← ParseM.eat .lparen then
          inner.expression
          let _ ← ParseM.expect .rparen
        else throw .mismatch)
      (do
        if ← ParseM.eat .lparen then
          inner.expression
          let _ ← ParseM.expect .rparen
        else throw .mismatch) :=
    (Alike.eat (by decide)).bind_eq fun _ => .ite (fun _ => h.expression.bind fun _ _ _ =>
      (Alike.expect (by decide)).bind fun _ _ _ => .pure rfl) fun _ => .throw_mismatch
  have hname := Alike.advanceIf (show .dot ∉ [Kind.identifier] by decide) hparens
  exact .advanceIf (by decide) (by simpa [checkAny, ParseM.check, Cursor.noteAll] using hname)

theorem plainPrimary : w.Alike Eq inner.plainPrimary inner.plainPrimary :=
  Alike.position.bind fun _ _ hs => hs.1 ▸ h.head.bind fun _ _ _ =>
    (Alike.many (h.suffix? hs.2)).bind fun _ _ _ => .pure rfl

theorem primary : w.Alike Eq inner.primary inner.primary := fun c hc => by
  have hplain := h.plainPrimary c hc
  unfold AlikeAt at hplain ⊢
  have hends := h.forward.plainPrimary_ends [] w.remembers hc.tidy
  rw [Nested.Forward.run_primary w.remembers hc.tidy,
    Nested.Forward.run_primary w.remembers' (w.tidy hc.tidy)]
  revert hplain hends
  unfold Ends
  generalize inner.plainPrimary.run input c = r, inner.plainPrimary.run input' c = r'
  intro hplain hends
  cases hplain with
  | ok _ hd hle => exact .ok rfl (hd.remember hends.1.pos) hle
  | mismatch => exact .mismatch
  | tooDeep hi => exact .tooDeep hi
  | unknown hi => exact .unknown hi
  | missing hi hnone hsome => exact .missing hi hnone hsome

theorem unary : w.Alike Eq inner.unary inner.unary :=
  (Alike.eatAny (by decide)).bind_eq fun _ => .ite (fun _ => h.operand) fun _ =>
    h.primary.bind fun _ _ _ => (Alike.eatAny (by decide)).bind fun _ _ _ => .pure rfl

theorem binary : ∀ levels : List (List Kind), .dot ∉ levels.flatten →
    w.Alike Eq (inner.binary levels) (inner.binary levels)
  | [], _ => h.unary
  | _ :: tighter, hd => by
    have htighter := binary tighter fun hm => hd (List.mem_append_right _ hm)
    exact htighter.bind fun _ _ _ => (Alike.many (.eatAnyThen (fun hm =>
      hd (List.mem_append_left _ hm)) htighter)).bind fun _ _ _ => .pure rfl

theorem tails : ∀ levels : List (List Kind), .dot ∉ levels.flatten →
    w.Alike Eq (inner.tails levels) (inner.tails levels)
  | [], _ => .pure rfl
  | _ :: tighter, hd => by
    have hout : .dot ∉ tighter.flatten := fun hm => hd (List.mem_append_right _ hm)
    exact (tails tighter hout).bind fun _ _ _ => (Alike.many (.eatAnyThen (fun hm =>
      hd (List.mem_append_left _ hm)) (h.binary tighter hout))).bind fun _ _ _ => .pure rfl

theorem afterPrimary : w.Alike Eq inner.afterPrimary inner.afterPrimary :=
  (Alike.eat (by decide)).bind_eq fun _ => .ite (fun _ => h.init) fun _ =>
    (Alike.eatAny (by decide)).bind fun _ _ _ => h.tails _ (by decide)

theorem decidedExpression : w.Alike Eq inner.decidedExpression inner.decidedExpression :=
  (Alike.eatAny (by decide)).bind_eq fun _ =>
    .ite (fun _ => h.operand.bind fun _ _ _ => h.tails _ (by decide)) fun _ =>
      h.primary.bind fun _ _ _ => h.afterPrimary

theorem nextInit? : w.Alike (Option.Rel Eq) inner.nextInit? inner.nextInit? :=
  (Alike.eat (by decide)).bind_eq fun _ => .ite
    (fun _ => (Alike.check _).bind_eq fun _ => .ite (fun _ => .pure .none) fun _ =>
      h.init.map fun _ _ => .some)
    fun _ => .pure .none

theorem initBody : w.Alike Eq inner.initBody inner.initBody :=
  (Alike.eat (by decide)).bind_eq fun _ => .ite
    (fun _ => (Alike.upTo (by decide) (h.init.bind fun _ _ _ => (Alike.many h.nextInit?).bind
      fun _ _ _ => .pure rfl)).bind fun _ _ _ => .pure rfl)
    fun _ => h.expression

/-! ## Statements -/

theorem initText? : w.Alike Eq inner.initText? inner.initText? :=
  (Alike.eat (by decide)).bind_eq fun _ => .ite
    (fun _ => Alike.position.bind fun start _ hs => hs.1 ▸ h.init.bind fun _ _ _ =>
      (Alike.textFrom start).map fun _ _ he => congrArg some he)
    fun _ => .pure rfl

theorem declarator : w.Alike Eq inner.declarator inner.declarator := by
  have hpair : w.Alike (Option.Rel fun _ _ => True) Nested.dimension? Nested.dimension? :=
    .eatThen (by decide) ((Alike.expect (by decide)).mono fun _ _ _ => trivial)
  refine (Alike.expect (by decide)).bind fun t t' ht => (Alike.many hpair).bind fun ps ps' hps =>
    h.initText?.bind_eq fun init => .pure ?_
  have himage : t'.image = t.image := by rw [← bare_image t', ht, bare_image]
  rw [himage, hps.length_eq]

theorem parameters : w.Alike Eq inner.parameters inner.parameters := by
  have hparameter : w.Alike Eq inner.parameter inner.parameter :=
    (Alike.eat (by decide)).bind fun _ _ _ => h.declarator
  refine (Alike.check _).bind_eq fun _ => .ite (fun _ => .pure rfl) fun _ =>
    (Alike.sepByComma hparameter).mono fun _ _ hps => ?_
  rwa [List.forall₂_eq_eq_eq] at hps

theorem nextStatement? :
    w.Alike (Option.Rel (Item.Like texts)) inner.nextStatement? inner.nextStatement? :=
  (Alike.checkAny _).bind_eq fun _ => .ite (fun _ => h.statement.map fun _ _ => .some)
    fun _ => .pure .none

theorem braced : w.Alike (Block.Like texts) inner.braced inner.braced :=
  (Alike.expect (by decide)).bind fun _ _ _ => (Alike.many h.nextStatement?).bind fun _ _ hitems =>
    (Alike.expect (by decide)).bind fun _ _ _ => .pure (Item.Like.block hitems)

theorem body : w.Alike (Block.Like texts) inner.body inner.body :=
  (Alike.check _).bind_eq fun _ => .ite (fun _ => h.braced) fun _ =>
    h.statement.bind fun _ _ hi => .pure (Item.Like.block (.cons hi .nil))

theorem condition : w.Alike Eq inner.condition inner.condition :=
  (Alike.expect (by decide)).bind fun _ _ _ => Alike.position.bind fun start _ hs => hs.1 ▸
    h.expression.bind fun _ _ _ => (Alike.textFrom start).bind_eq fun _ =>
      (Alike.expect (by decide)).bind fun _ _ _ => .pure rfl

theorem elseBody : w.Alike (Block.Like texts) inner.elseBody inner.elseBody :=
  (Alike.eat (by decide)).bind_eq fun _ => .ite (fun _ => h.body) fun _ => .pure .nil

theorem branch : w.Alike (Item.Like texts) inner.branch inner.branch :=
  (Alike.expect (by decide)).bind fun _ _ _ => h.condition.bind_eq fun condition =>
    h.body.bind fun _ _ hthen => h.elseBody.bind fun _ _ helse =>
      .pure (.command (.branch condition hthen helse))

theorem loop : w.Alike (Item.Like texts) inner.loop inner.loop :=
  (Alike.expect (by decide)).bind fun _ _ _ => h.condition.bind_eq fun condition =>
    h.body.bind fun _ _ hbody => .pure (.command (.loop condition hbody))

omit h in
theorem alikeAt_wholeCall? (hc : c.Sound input) (start stop : Nat) :
    w.AlikeAt c (Option.Rel (Call.Like texts)) (wholeCall? start stop) (wholeCall? start stop) := by
  refine .of_ok (run_wholeCall? start stop) (run_wholeCall? start stop) ?_ hc le_rfl
  cases hfind : c.calls.find? _ with
  | none => exact .none
  | some site =>
    have hsite := hc.calls site (List.mem_of_find?_eq_some hfind)
    obtain ⟨make, hmake⟩ := Option.isSome_iff_exists.1 hsite.known
    obtain ⟨make', hmake', hlike⟩ := w.registry _ _ hmake
    rw [Option.bind_some, Option.bind_some, w.image, hmake, hmake']
    refine .some (hlike _ _ (w.between _ _ hsite.lt fun k hk => hc.passed k ?_))
    exact hk.trans hsite.closing_lt

theorem evaluation (start : Nat) :
    w.Alike (Item.Like texts) (inner.evaluation start) (inner.evaluation start) := fun c hc => by
  refine .bind_of_ok (run_modify _) (run_modify _) le_rfl ?_
  refine (h.expression _ hc.forgetCalls).bind fun _ _ d _ _ hd => ?_
  refine .bind_of_ok run_position run_position le_rfl ?_
  refine ((Alike.expect (by decide)) d hd).bind fun _ _ e _ _ he => ?_
  refine (alikeAt_wholeCall? he start d.pos).bind fun o o' e' _ ho he' => ?_
  cases ho with
  | none => exact Alike.plainFrom start e' he'
  | some hcall => exact .of_ok rfl rfl (.command (.call hcall)) he' le_rfl

theorem alikeAt_statementFrom {start : Nat} {k : Kind} (hc : c.Sound input)
    (hk : input.kind c.pos = k) (hd : k ≠ .dot) :
    w.AlikeAt c (Item.Like texts) (inner.statementFrom start k) (inner.statementFrom start k) := by
  have hadvance : w.AlikeAt c Eq advance advance := alikeAt_advance hc (hk ▸ hd)
  cases k
  case lbrace =>
    exact (h.braced c hc).bind fun _ _ _ _ hb he => .of_ok rfl rfl (.command (.block hb)) he le_rfl
  case semicolon => exact hadvance.bind fun _ _ _ _ _ he => .of_ok rfl rfl .empty he le_rfl
  case kwIf => exact h.branch c hc
  case kwWhile => exact h.loop c hc
  case kwVar =>
    exact hadvance.bind fun _ _ d _ _ hd => ((Alike.sepByComma h.declarator).bind fun _ _ _ =>
      (Alike.expect (by decide)).bind fun _ _ _ => .plainFrom start) d hd
  case kwBreak | kwContinue =>
    exact hadvance.bind fun _ _ d _ _ hd => ((Alike.expect (by decide)).bind fun _ _ _ =>
      .plainFrom start) d hd
  case kwReturn =>
    exact hadvance.bind fun _ _ d _ _ hd => ((Alike.upTo (by decide) h.expression).bind
      fun _ _ _ => .plainFrom start) d hd
  all_goals exact h.evaluation start c hc

theorem statementBody : w.Alike (Item.Like texts) inner.statementBody inner.statementBody :=
  fun c hc => by
    refine .bind_of_ok (run_checkAny _) (run_checkAny _) (Cursor.noteAll_pos c _).ge ?_
    rw [w.kind]
    by_cases hk : input.kind c.pos ∈ statementStarts
    · rw [decide_eq_true hk, if_pos rfl]
      refine .bind_of_ok run_position run_position le_rfl ?_
      refine .bind_of_ok run_currentKind run_currentKind le_rfl ?_
      rw [w.kind]
      refine h.alikeAt_statementFrom (hc.noteAll _) rfl fun he => ?_
      rw [Cursor.noteAll_pos] at he
      exact absurd (he ▸ hk) (by decide)
    · rw [decide_eq_false hk, if_neg Bool.false_ne_true]
      exact .mismatch

theorem program : w.Alike (Program.Like texts) inner.program inner.program := by
  refine (Alike.expect (by decide)).bind fun _ _ _ => (Alike.expect (by decide)).bind
    fun t t' ht => (Alike.expect (by decide)).bind fun _ _ _ => h.parameters.bind_eq
      fun params => (Alike.expect (by decide)).bind fun _ _ _ => h.braced.bind fun b b' hb =>
        (Alike.expect (by decide)).bind fun _ _ _ => .pure ⟨?_, rfl, hb⟩
  rw [← bare_image t, ← ht, bare_image]

end Inner

/-! ## Whole programs -/

variable (w)

/-- At each depth, the predictive parser runs alike on twins. -/
theorem inner_predictive : ∀ levels, w.Inner (Nested.predictive levels)
  | 0 =>
    { forward := (Nested.sim 0).forward
      forms := ⟨_, limited_le_sentences 0, fun _ hA => Grammar.inner_predictive w.remembers hA 0⟩
      statement := .failTooDeep
      expression := .failTooDeep
      init := .failTooDeep
      operand := .failTooDeep }
  | levels + 1 =>
    have h := inner_predictive levels
    { forward := (Nested.sim (levels + 1)).forward
      forms := ⟨_, limited_le_sentences (levels + 1), fun _ hA =>
        Grammar.inner_predictive w.remembers hA (levels + 1)⟩
      statement := h.statementBody
      expression := h.decidedExpression
      init := h.initBody
      operand := h.unary }

omit w in
theorem sound_initial (input : Input) : Cursor.initial.Sound input where
  toReached := Cursor.reached_initial input
  settled j hj := by cases hj
  calls _ hs := absurd hs List.not_mem_nil

omit w in
theorem decided_eq {input : Input} (hr : input.remembers = true) :
    input.decided = (Nested.predictive maxNesting).program.run input .initial := by
  obtain ⟨source, tokens, registry, remembers⟩ := input
  cases hr
  rfl

omit w in
/-- A mismatch is reported at a token of the input. -/
theorem lt_size_of_mismatch {input : Input} (he : Ended input.tokens.toList) {c : Cursor}
    (h : input.decided = .error .mismatch c) : c.frontier.pos < input.tokens.size := by
  let A : Aim := ⟨Grammar.program (limited (dialect input.registry) maxNesting), false⟩
  have hends := Input.decided_ends (Grammar.inner_predictive (A := A) (show
    input.remembering.remembers = true from rfl) rfl maxNesting) rfl
  have hrejects := hends.error h
  have hlt := he.lt_length hrejects.passed
  rw [Array.length_toList] at hlt
  exact (hrejects.stuck rfl).1.tidy.frontier.trans_lt hlt

include w in
/-- How parses of twins end: with programs that differ in argument texts only, with one error at the
same token of both, or with a call that the first input does not know and the second does. -/
theorem parse_alike :
    (∃ p p', input.parse = .ok p ∧ input'.parse = .ok p' ∧ p.Like texts p') ∨
    (∃ i cause, i < input.tokens.size ∧ input.parse = .error ⟨input.token i, cause⟩ ∧
      input'.parse = .error ⟨input'.token i, cause⟩) ∨
    ∃ i, Callee input.tokens.toList i (input.token i) ∧
      input.registry (input.token i).image = none ∧
      (input'.registry (input.token i).image).isSome ∧
      input.parse = .error ⟨input.token i, .unknownFunction⟩ := by
  have halike := (w.inner_predictive maxNesting).program .initial (sound_initial input)
  have hlt := fun c => lt_size_of_mismatch (c := c) w.ended
  unfold AlikeAt at halike
  rw [← decided_eq w.remembers, ← decided_eq w.remembers'] at halike
  rw [Input.parse_eq, Input.parse_eq]
  revert halike hlt
  generalize input.decided = r, input'.decided = r'
  intro halike hlt
  cases halike with
  | ok h => exact .inl ⟨_, _, rfl, rfl, h⟩
  | mismatch => exact .inr (.inl ⟨_, _, hlt _ rfl, rfl, rfl⟩)
  | tooDeep hi => exact .inr (.inl ⟨_, _, hi, rfl, rfl⟩)
  | unknown hi =>
    exact .inr (.inl ⟨_, _, by simpa using (List.getElem?_eq_some_iff.1 hi.token).1, rfl, rfl⟩)
  | missing hi hnone hsome => exact .inr (.inr ⟨_, hi, hnone, hsome, rfl⟩)

end Twins

end Botscript.Parse
