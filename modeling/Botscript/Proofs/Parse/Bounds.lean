import Botscript.Proofs.Parse.Onward

/-!
# Parsing within bounds

The productions go on, each because those in it do (`NestedGoes`). A nested production goes on
because it does so one level further in, and on the last level it is not tried (`nestedGoes`). So
the parse of any neighbouring tokens of a text stays within bounds from its first token to where it
ends, whether the end of input is among them or not (`parse_within_bounds`).
-/

namespace Botscript.Parse

open Token ParseM

/-- The source can be cut from the start of each token to the end of each later one. -/
def Input.Cut (input : Input) : Prop :=
  ∀ i j, i ≤ j → j < input.tokens.size →
    Cuts input.source (input.token i).start (input.token j).stop

theorem CallSite.Lies.sliced {input : Input} {pos : Nat} {site : CallSite}
    (h : site.Lies input pos) (hcuts : input.Cut) (hpos : pos ≤ input.tokens.size) :
    site.Sliced input := by
  have hnonempty := h.nonempty
  have hbefore := h.before
  obtain heq | hlt := Nat.eq_or_lt_of_le (Nat.succ_le_of_lt hnonempty)
  · exact .inl heq
  · exact .inr ⟨by omega, by omega, hcuts _ _ (by omega) (by omega)⟩

/-- On a level of nesting the nested productions go on, by one token at least. A statement forgets
the calls from before it. -/
structure NestedGoes (input : Input) (depth : Nat) : Prop where
  statement : ∀ floor, Goes input depth [] floor (fun _ => 1) Nested.statement
  expression : ∀ base floor, Goes input depth base floor (fun _ => 1) Nested.expression
  init : ∀ base floor, Goes input depth base floor (fun _ => 1) Nested.init
  operand : ∀ base floor, Goes input depth base floor (fun _ => 1) Nested.operand

namespace NestedGoes

variable {input : Input} {depth : Nat} (h : NestedGoes input depth) (base : List CallSite)
  (floor : Nat)

include h

/-! ## Primaries -/

theorem expressions : Goes input depth base floor (fun _ => 1) Nested.expressions :=
  .bind_left (.sepByComma (h.expression base floor)) fun _ => .pure _

theorem head : Goes input depth base floor (fun _ => 1) Nested.head := by
  have hliteral : ∀ kind ∈ literals, Goes.IsMark kind := by decide
  refine .ifCheckAny_of (fun s _ _ hs hk => Goes.advance (hliteral _ hk) hs rfl)
    (.ifCheck_of (fun s _ _ hs hk => Goes.advance (by decide) hs hk) ?_)
  rintro s rfl hfloor hs
  simp only [eat_eq_eatAny]
  refine Course.seq (R := fun b s' => if b = true then
      input.kind s.cursor.pos = .lparen ∧ s.Passes s' else s.Stays s')
    (.eatAny (by decide) hs (fun hk _ hpass => ⟨List.mem_singleton.1 hk, hpass⟩) fun _ _ => id) ?_
  rintro (_ | _) s₁ hdepth hs₁ hb
  · exact .mismatch hs₁ (Stage.Stays.keeps hb)
  · exact Goes.closed hb.2 hb.1 (h.expression base 0 s₁ hdepth (Nat.zero_le _) hs₁)
      (fun _ _ _ _ hs₃ honward => .pure hs₃ honward) fun _ _ he => he

/-- Arguments are read up to the parenthesis that closes them, so a call that is noted lies before
the cursor. -/
theorem arguments (start : Nat) {s : Stage} (hdepth : s.depth = depth) (hs : s.Sane input)
    (hlparen : input.kind s.cursor.pos = .lparen) :
    GoesOn input base (fun _ => 1) (fun inner => inner.arguments start) s := by
  have heq : (fun inner : Nested => inner.arguments start) = fun inner =>
      (do
        let opening ← ParseM.position
        ParseM.advance
        let closing ← ParseM.upTo .rparen inner.expressions
        let kind ← (Act.kindAt start).step
        if opening = start + 1 ∧ kind = .identifier then Parse.callSite ⟨start, opening, closing⟩
        else pure ()) := by
    funext inner
    simp [Nested.arguments, Act.step]
  rw [heq]
  refine Course.look (a := .position) hs trivial run_position ?_
  refine Course.seq (R := fun _ s₁ => s.Passes s₁) (.advance hs (by simp [hlparen]) fun _ => id)
    fun _ s₁ hdepth₁ hs₁ hopen => ?_
  refine Course.bind (.mono ((h.expressions base 0).upTo_rparen (hdepth₁.trans hdepth)
    (Nat.zero_le _) hs₁) (fun _ _ => id) fun _ _ he => hopen.keeps.trans he) ?_
  rintro _ s₃ hs₃ ⟨s₂, hinner, hclose, hrparen, rfl⟩
  have honward := hopen.parens hlparen hinner hclose hrparen
  refine Course.look (a := .kindAt start) hs₃ trivial rfl ?_
  refine Course.ite (fun hname => ?_) fun _ => .pure hs₃ honward
  have hpos : s.cursor.pos + 1 ≤ s₂.cursor.pos := hopen.pos ▸ hinner.pos
  have hlies : CallSite.Lies input s₃.cursor.pos ⟨start, s.cursor.pos, s₂.cursor.pos⟩ :=
    ⟨hname.2, hname.1, hlparen, hpos, hrparen, by simp [hclose.pos], hopen.pos ▸ hinner.matching⟩
  refine .act (a := .callSite ⟨start, s.cursor.pos, s₂.cursor.pos⟩) hs₃ hlies
    (Act.ends_callSite ⟨honward.pos, fun hbase => ?_, honward.matching⟩ honward.calls)
  exact (honward.calls hbase).trans (List.prefix_append _ _)

theorem suffix? (start : Nat) :
    Goes input depth base floor gain fun inner => inner.suffix? start := by
  have hindex : Goes input depth base floor (fun _ => 0) fun inner : Nested => (do
      inner.expression
      let _ ← ParseM.expect .rbracket
      return some ()) :=
    (h.expression base floor).bind fun _ => (Goes.expect (by decide)).bind fun _ => .pure _
  have hmember : Goes input depth base floor (fun _ => 0) fun _ : Nested => (do
      let _ ← ParseM.expect .identifier
      return some ()) := (Goes.expect (by decide)).bind fun _ => .pure _
  refine .ifEat (by decide) hindex (.ifEat (by decide) hmember (.ifCheck_of ?_ (.pure_of rfl))
    gain_le_one) gain_le_one
  exact fun s hdepth _ hs hlparen => .map (h.arguments base start hdepth hs hlparen)

theorem plainPrimary : Goes input depth base floor (fun _ => 1) Nested.plainPrimary :=
  .position fun start _ => .bind_left (h.head base start) fun _ =>
    .bind (.many (h.suffix? base start start)) fun _ => .pure _

/-- A primary that is remembered lies where it should, and so is skipped within bounds. -/
theorem primary (hr : input.remembers = true) :
    Goes input depth base floor (fun _ => 1) Nested.primary := by
  intro s hdepth hfloor hs
  cases hknown : s.cursor.memory[s.cursor.pos]? with
  | some known =>
    have hlies := hs.memory _ _ hknown
    exact .known hr hs hknown
      ⟨hlies.nonempty, fun hbase => hbase.trans (List.prefix_append _ _), hlies.matching⟩
  | none =>
    have hplain := h.plainPrimary base floor s hdepth hfloor hs
    refine .unknown hr hknown (.mono hplain.done (fun _ s' hs' => ?_) fun _ _ => id)
    obtain ⟨hsane, hpos, hcalls, hmatching⟩ := hs'
    exact ⟨hsane.remember hpos hmatching, hpos, hcalls, hmatching⟩

/-! ## Expressions -/

theorem unary (hr : input.remembers = true) :
    Goes input depth base floor (fun _ => 1) Nested.unary :=
  .ifEatAny (by decide) (h.operand base floor)
    (.bind_left (h.primary base floor hr) fun _ => (Goes.eatAny (by decide)).bind fun _ => .pure _)
    fun _ => Nat.le_add_left _ _

theorem binary (hr : input.remembers = true) {operators : List (List Kind)}
    (hmark : ∀ kinds ∈ operators, ∀ kind ∈ kinds, Goes.IsMark kind) :
    Goes input depth base floor (fun _ => 1) fun inner => inner.binary operators := by
  induction operators with
  | nil => exact h.unary base floor hr
  | cons kinds tighter ih =>
    obtain ⟨hkinds, htighter⟩ := List.forall_mem_cons.1 hmark
    exact (ih htighter).bind_left fun _ =>
      (Goes.many (.thenSome hkinds (ih htighter))).bind fun _ => .pure _

theorem assignment (hr : input.remembers = true) :
    Goes input depth base floor (fun _ => 1) Nested.assignment :=
  .bind_left (h.primary base floor hr) fun _ => .bind (.expect (by decide)) fun _ =>
    h.init base floor

omit h in
theorem isMark_of_binaryLevels : ∀ kinds ∈ binaryLevels, ∀ kind ∈ kinds, Goes.IsMark kind := by
  decide

/-- An assignment that was tried in vain has kept the calls from before it, so that these are the
calls again when the cursor is back. -/
theorem expressionBody (hr : input.remembers = true) :
    Goes input depth base floor (fun _ => 1) Nested.expressionBody := by
  intro s hdepth hfloor hs
  have hfirst := Course.depth (h.assignment s.cursor.calls floor hr s hdepth hfloor hs)
  have hall : ∀ s', s.Keeps s.cursor.calls s' → s.Keeps base s' :=
    fun s' hkeeps hbase => hbase.trans (hkeeps List.prefix_rfl)
  refine Course.orElse (.mono hfirst (fun _ s' ha => { ha.2 with calls := hall s' ha.2.calls })
    fun _ _ => id) (fun _ s' _ he => hall s' he.2) fun s' hs' he => ?_
  have hcalls : s.cursor.calls <+: s'.cursor.calls := he.2 List.prefix_rfl
  have hstay : s.Stays (s'.rewind s) := ⟨rfl, (List.prefix_iff_eq_take.1 hcalls).symm⟩
  have hsecond := h.binary base floor hr isMark_of_binaryLevels (s'.rewind s)
    (he.1.trans hdepth) hfloor (hs.rewind hs' hcalls)
  exact hsecond.behind hstay.onward fun _ => le_rfl

theorem nextInit? : Goes input depth base floor gain Nested.nextInit? := by
  have hnext : Goes input depth base floor (fun _ => 0) fun inner : Nested =>
      (do if ← ParseM.check .rbracket then return none else some <$> inner.init) :=
    .ifCheck (.pure none) (.map (h.init base floor) fun _ => Nat.zero_le _)
  exact .ifEat (by decide) hnext (.pure_of rfl) gain_le_one

theorem inits : Goes input depth base floor (fun _ => 1) Nested.inits :=
  .bind_left (h.init base floor) fun _ => .bind (.many (h.nextInit? base floor)) fun _ => .pure _

theorem initBody : Goes input depth base floor (fun _ => 1) Nested.initBody :=
  .ifEat (by decide) (.bind (.upTo (by decide) (h.inits base floor)) fun _ => .pure _)
    (h.expression base floor) fun _ => Nat.le_add_right _ _

/-! ## Declarations -/

theorem initText? : Goes input depth base floor (fun _ => 0) Nested.initText? :=
  .ifEat (by decide) (.position fun start _ => .bind (k := fun _ _ => 0) (h.init base start)
    fun _ => .map (.textFrom start) fun _ => le_rfl) (.pure _) fun _ => Nat.zero_le _

theorem declarator : Goes input depth base floor (fun _ => 1) Nested.declarator :=
  .bind_left (.expect (by decide)) fun _ => .bind (.many (.ifEat (by decide)
    (.map (.expect (by decide)) fun _ => le_rfl) (.pure_of rfl) (fun _ => Nat.le_add_left _ _)))
    fun _ => .bind (h.initText? base floor) fun _ => .pure _

theorem parameter : Goes input depth base floor (fun _ => 1) Nested.parameter :=
  .bind_right (.eat (by decide)) fun _ => h.declarator base floor

theorem parameters : Goes input depth base floor (fun _ => 0) Nested.parameters :=
  .ifCheck (.pure []) ((Goes.sepByComma (h.parameter base floor)).weaken fun _ => Nat.zero_le _)

/-! ## Statements -/

theorem nextStatement? : Goes input depth [] floor gain Nested.nextStatement? :=
  .ifCheckAny (.map (h.statement floor) fun _ => le_rfl) (.pure_of rfl)

theorem braced : Goes input depth [] floor (fun _ => 1) Nested.braced :=
  .bind_left (.expect (by decide)) fun _ => .bind (.many (h.nextStatement? floor)) fun _ =>
    .bind (.expect (by decide)) fun _ => .pure _

theorem body : Goes input depth [] floor (fun _ => 1) Nested.body :=
  .ifCheck (h.braced floor) (.bind_left (h.statement floor) fun _ => .pure _)

theorem condition : Goes input depth [] floor (fun _ => 1) Nested.condition := by
  have heq : Nested.condition = fun inner =>
      (do
        let _ ← ParseM.expect .lparen
        let text ← (do
          let start ← ParseM.position
          inner.expression
          Parse.textFrom start)
        let _ ← ParseM.expect .rparen
        return text) := by
    funext inner
    simp [Nested.condition]
  rw [heq]
  exact .parens (.position fun start _ => .bind (h.expression [] start) fun _ => .textFrom start)
    fun _ => .pure _

theorem elseBody : Goes input depth [] floor (fun _ => 0) Nested.elseBody :=
  .ifEat (by decide) (h.body floor) (.pure _) fun _ => Nat.zero_le _

theorem branch : Goes input depth [] floor (fun _ => 1) Nested.branch :=
  .bind_left (.expect (by decide)) fun _ => .bind (h.condition floor) fun _ =>
    .bind (h.body floor) fun _ => .bind (h.elseBody floor) fun _ => .pure _

theorem loop : Goes input depth [] floor (fun _ => 1) Nested.loop :=
  .bind_left (.expect (by decide)) fun _ => .bind (h.condition floor) fun _ =>
    .bind (h.body floor) fun _ => .pure _

theorem declaration {start : Nat} {s : Stage} (hdepth : s.depth = depth) (hs : s.Sane input)
    (hstart : start ≤ s.cursor.pos) (hk : input.kind s.cursor.pos = .kwVar) :
    GoesOn input [] (fun _ => 1) (fun inner => inner.declaration start) s := by
  subst hdepth
  exact (Goes.advance (by decide) hs hk).bind (fun _ => .bind (.sepByComma (h.declarator [] start))
    fun _ => .bind (.expect (by decide)) fun _ => .plainFrom start) hstart
      fun _ _ => Nat.le_add_right _ _

theorem result {start : Nat} {s : Stage} (hdepth : s.depth = depth) (hs : s.Sane input)
    (hstart : start ≤ s.cursor.pos) (hk : input.kind s.cursor.pos = .kwReturn) :
    GoesOn input [] (fun _ => 1) (fun inner => inner.result start) s := by
  subst hdepth
  exact (Goes.advance (by decide) hs hk).bind (fun _ =>
    .bind (.upTo (by decide) (h.expression [] start)) fun _ => .plainFrom start) hstart
      fun _ _ => Nat.le_add_right _ _

omit h in
theorem jump {start : Nat} {s : Stage} (hs : s.Sane input) (hstart : start ≤ s.cursor.pos)
    {kind : Kind} (hmark : Goes.IsMark kind) (hk : input.kind s.cursor.pos = kind) :
    GoesOn input [] (fun _ => 1) (fun _ => Nested.jump start) s :=
  (Goes.advance hmark hs hk).bind (fun _ => .bind (.expect (by decide)) fun _ => .plainFrom start)
    hstart fun _ _ => Nat.le_add_right _ _

/-- The calls that were noted for an expression lie before the cursor, so the arguments of the one
that is the whole statement are a slice of the source. -/
theorem evaluation (hcuts : input.Cut) (start : Nat) :
    Goes input depth [] start (fun _ => 1) fun inner => inner.evaluation start := by
  have hforget : Goes input depth [] start (fun _ => 0) fun _ => modify Cursor.forgetCalls := by
    intro s _ _ hs
    have hstay : s.Onward input [] 0 s := Stage.Stays.onward ⟨rfl, rfl⟩
    exact .act (a := .forgetCalls) hs trivial (ends_of_ok (run_modify _)
      ⟨hstay.pos, fun _ => List.nil_prefix, hstay.matching⟩)
  have hcall : ∀ stop,
      Goes input depth [] start (fun _ => 0) fun _ => Parse.wholeCall? start stop :=
    fun stop => .of_still (a := .wholeCall? start stop)
      (fun s _ hs site hsite _ _ => (hs.calls site hsite).sliced hcuts hs.pos_le_size)
      fun _ => ⟨_, run_wholeCall? _ _⟩
  refine .bind_right hforget fun _ => .bind_left (h.expression [] start) fun _ =>
    .position fun stop hstop => .bind (.expect (by decide)) fun _ =>
      .bind (k := fun _ _ => 0) ((hcall stop).raise hstop) ?_
  rintro (_ | call)
  · exact (Goes.plainFrom start).raise hstop
  · exact .pure _

theorem statementFrom (hcuts : input.Cut) {s : Stage} (hdepth : s.depth = depth)
    (hs : s.Sane input) {kind : Kind} (hk : input.kind s.cursor.pos = kind) :
    GoesOn input [] (fun _ => 1) (fun inner => inner.statementFrom s.cursor.pos kind) s := by
  have hplain : GoesOn input [] (fun _ => 1) (fun inner => inner.evaluation s.cursor.pos) s :=
    h.evaluation hcuts s.cursor.pos s hdepth le_rfl hs
  cases kind
  case lbrace => exact Goes.bind_left (h.braced 0) (fun _ => .pure _) s hdepth (Nat.zero_le _) hs
  case semicolon =>
    exact (Goes.advance (by decide) hs hk).bind (fun _ => .pure _) (Nat.zero_le _) fun _ _ => le_rfl
  case kwIf => exact h.branch 0 s hdepth (Nat.zero_le _) hs
  case kwWhile => exact h.loop 0 s hdepth (Nat.zero_le _) hs
  case kwVar => exact h.declaration hdepth hs le_rfl hk
  case kwBreak | kwContinue => exact jump hs le_rfl (by decide) hk
  case kwReturn => exact h.result hdepth hs le_rfl hk
  all_goals exact hplain

theorem statementBody (hcuts : input.Cut) :
    Goes input depth [] floor (fun _ => 1) Nested.statementBody :=
  .ifCheckAny_of (fun _ hdepth _ hs _ =>
    Course.look (a := .position) hs trivial run_position
      (Course.look (a := .currentKind) hs trivial run_currentKind
        (h.statementFrom hcuts hdepth hs rfl))) .throw_mismatch

/-! ## Levels of nesting -/

/-- What goes on one level further in goes on where it is nested. -/
theorem outer (hr : input.remembers = true) (hcuts : input.Cut) {outer : Nat}
    (hdepth : depth = outer + 1) (hlt : outer < maxNesting) : NestedGoes input outer := by
  subst hdepth
  have hpart : ∀ {α : Type} {base : List CallSite} {floor : Nat} {least : α → Nat} (part : Part α),
      Goes input (outer + 1) base floor least (fun inner => part.body inner) →
        Goes input outer base floor least fun inner => part.get inner := by
    intro α base floor least part hbody s hs_depth hfloor hs
    have hlt : s.depth < maxNesting := hs_depth ▸ hlt
    refine .nested hs hlt (.mono (hbody s.enter (congrArg (· + 1) hs_depth) hfloor
      { hs with depth := hlt }) (fun a s' ha => ?_) fun _ _ he => he)
    exact ⟨ha.pos, ha.calls, ha.matching⟩
  exact {
    statement := fun floor => hpart .statement (h.statementBody floor hcuts)
    expression := fun base floor => hpart .expression (h.expressionBody base floor hr)
    init := fun base floor => hpart .init (h.initBody base floor)
    operand := fun base floor => hpart .operand (h.unary base floor hr) }

end NestedGoes

/-- On the last level nothing is nested any more. -/
theorem nestedGoes_last (input : Input) : NestedGoes input maxNesting := by
  have hpart : ∀ {α : Type} {base : List CallSite} {floor : Nat} {least : α → Nat} (part : Part α),
      Goes input maxNesting base floor least fun inner => part.get inner :=
    fun part _ hdepth _ hs => .tooDeep hs hdepth id
  exact ⟨fun _ => hpart .statement, fun _ _ => hpart .expression, fun _ _ => hpart .init,
    fun _ _ => hpart .operand⟩

theorem nestedGoes {input : Input} (hr : input.remembers = true) (hcuts : input.Cut) {depth : Nat}
    (hle : depth ≤ maxNesting) : NestedGoes input depth := by
  induction hle using Nat.decreasingInduction with
  | self => exact nestedGoes_last input
  | of_succ depth hlt ih => exact ih.outer hr hcuts rfl hlt

/-! ## Programs -/

theorem goes_expectEnd {input : Input} {depth floor : Nat} {base : List CallSite} :
    Goes input depth base floor (fun _ => 0) fun _ => Act.expectEnd.step := by
  intro s _ _ hs
  refine .act (a := .expectEnd) hs trivial (ends_map ?_)
  by_cases hk : input.kind s.cursor.pos = .endOfInput
  · exact ends_of_ok (run_expect_end hk) (Stage.Stays.onward ⟨rfl, rfl⟩)
  · exact ends_of_error (run_expect_of_ne hk) id

theorem NestedGoes.program {input : Input} {depth : Nat} (h : NestedGoes input depth) :
    Goes input depth [] 0 (fun _ => 1) Nested.program := by
  have heq : Nested.program = fun inner =>
      (do
        let _ ← ParseM.expect .kwFunc
        let name ← ParseM.expect .identifier
        let _ ← ParseM.expect .lparen
        let params ← inner.parameters
        let _ ← ParseM.expect .rparen
        let body ← inner.braced
        Act.expectEnd.step
        return ⟨name.image, params, body⟩) := by
    funext inner
    simp [Nested.program, Act.step]
  rw [heq]
  exact .bind_left (.expect (by decide)) fun _ => .bind (.expect (by decide)) fun _ =>
    .parens (h.parameters [] 0) fun _ => .bind (h.braced 0) fun _ =>
      .bind goes_expectEnd fun _ => .pure _

end Botscript.Parse

namespace Botscript

open Token Parse

theorem cut_of_slice {source : String} {tokens all : List Token} (h : tokenize source = .ok all)
    (hslice : tokens <:+: all) (registry : Registry) :
    Input.Cut ⟨source.toList, tokens.toArray, registry, true⟩ := by
  intro i j hij hj
  have hj : j < tokens.length := hj
  simpa [Input.token, hj, hij.trans_lt hj] using cuts_of_slice h hslice hij hj

end Botscript
