import Botscript.Proofs.Parse.Attempt

/-!
# Parsing without going back

Every production of the parser does what the predictive parser does (`Nested.sim`), so a parse
comes to what the predictive parser comes to (`Input.parse_eq`), and it does not matter whether
primaries are remembered (`parseTokens_eq_plain`).
-/

namespace Botscript.Parse

open Token ParseM

namespace Nested.Sim

variable {inner inner' : Nested} (h : inner.Sim inner') (F : Frame)

include h

/-! ## Initial values -/

theorem nextInit? : ParseM.Sim true F inner.nextInit? inner'.nextInit? :=
  .bind (.eat _) fun _ =>
    .ite (.bind (.check _) fun _ => .ite (.pure _) (.map _ (h.init F))) (.pure _)

theorem inits : ParseM.Sim true F inner.inits inner'.inits := by
  have hstill : ∀ input c, c.Doomed input → inner.nextInit?.run input c = .ok none c :=
    fun input c hc => by
      rw [Nested.nextInit?, run_bind_of_ok (hc.run_eat (by decide))]; rfl
  exact (h.init F).bind_doomed
    (fun _ => .bind_doomed (.many (h.nextInit? F) fun _ => hstill) (fun _ => .pure _)
      fun _ => .pure _)
    fun _ => .bind (.many hstill) fun _ => .pure _

theorem initBody : ParseM.Sim true F inner.initBody inner'.initBody :=
  .bind (.eat _) fun _ => .ite (.bind (.upTo (by decide) (h.inits F)) fun _ => .pure _)
    (h.expression F)

/-! ## Statements -/

theorem initText? : ParseM.Sim true F inner.initText? inner'.initText? := by
  refine .bind (.eat _) fun _ => .ite (.bind .position fun _ => ?_) (.pure _)
  exact (h.init F).bind_doomed (fun _ => .map _ (.textFrom _)) fun _ =>
    .of_still fun _ _ => ⟨_, rfl⟩

theorem declarator : ParseM.Sim true F inner.declarator inner'.declarator :=
  .bind (.expect _) fun _ => .bind (.many (.eatThen _ (.expect _)) (by simp)) fun _ =>
    (h.initText? F).bind_doomed (fun _ => .pure _) fun _ => .pure _

theorem parameters : ParseM.Sim true F inner.parameters inner'.parameters :=
  .bind (.check _) fun _ => .ite (.pure _) (.sepByComma (.bind (.eat _) fun _ => h.declarator F))

theorem condition : ParseM.Sim false F inner.condition inner'.condition := by
  refine .bind (.expect _) fun _ => .bind .position fun _ => ?_
  exact (h.expression F).bind_doomed
    (fun _ => .bind (.textFrom _) fun _ => .bind (.expect _) fun _ => .pure _)
    fun _ => .bind (.of_still fun _ _ => ⟨_, rfl⟩) fun _ => .fails (.expect (by decide))

theorem declaration (start : Nat) :
    ParseM.Sim false F (inner.declaration start) (inner'.declaration start) :=
  .bind .advance fun _ => (ParseM.Sim.sepByComma (h.declarator F)).bind_doomed
    (fun _ => .bind (.expect _) fun _ => .plainFrom _) fun _ => .fails (.expect (by decide))

theorem result (start : Nat) :
    ParseM.Sim false F (inner.result start) (inner'.result start) :=
  .bind .advance fun _ => .bind (.upTo (by decide) (h.expression F)) fun _ => .plainFrom _

variable {F} (hF : F.base = [])

include hF

theorem braced : ParseM.Sim false F inner.braced inner'.braced :=
  .bind (.expect _) fun _ => .bind (.many (.bind (.checkAny _) fun _ =>
    .ite (.map _ (h.statement F hF)) (.pure _)) (by simp)) fun _ =>
      .bind (.expect _) fun _ => .pure _

theorem body : ParseM.Sim false F inner.body inner'.body :=
  .bind (.check _) fun _ => .ite (h.braced hF) (.bind (h.statement F hF) fun _ => .pure _)

theorem branch : ParseM.Sim false F inner.branch inner'.branch :=
  .bind (.expect _) fun _ => .bind (h.condition F) fun _ => .bind (h.body hF) fun _ =>
    .bind (.bind (.eat _) fun _ => .ite (h.body hF) (.pure _)) fun _ => .pure _

theorem loop : ParseM.Sim false F inner.loop inner'.loop :=
  .bind (.expect _) fun _ => .bind (h.condition F) fun _ => .bind (h.body hF) fun _ => .pure _

theorem evaluation (start : Nat) :
    ParseM.Sim false F (inner.evaluation start) (inner'.evaluation start) := by
  refine .bind (.forgetCalls hF) fun _ => (h.expression F).bind_doomed (fun _ => ?_) fun _ =>
    .bind (.of_still fun _ _ => ⟨_, rfl⟩) fun _ => .fails (.expect (by decide))
  refine .bind .position fun _ => .bind (.expect _) fun _ => .bind (.wholeCall? _ _) fun o => ?_
  cases o with
  | none => exact .plainFrom _
  | some call => exact .pure _

theorem statementBody : ParseM.Sim false F inner.statementBody inner'.statementBody := by
  refine .bind (.checkAny _) fun _ => .ite (.bind .position fun start =>
    .bind .currentKind fun kind => ?_) (.throw _)
  cases kind
  case lbrace => exact .bind (h.braced hF) fun _ => .pure _
  case semicolon => exact .bind .advance fun _ => .pure _
  case kwIf => exact h.branch hF
  case kwWhile => exact h.loop hF
  case kwVar => exact h.declaration F start
  case kwBreak | kwContinue => exact .bind .advance fun _ => .bind (.expect _) fun _ => .plainFrom _
  case kwReturn => exact h.result F start
  all_goals exact h.evaluation hF start

theorem program : ParseM.Sim false F inner.program inner'.program :=
  .bind (.expect _) fun _ => .bind (.expect _) fun _ => .bind (.expect _) fun _ =>
    (h.parameters F).bind_doomed
      (fun _ => .bind (.expect _) fun _ => .bind (h.braced hF) fun _ => .bind (.expect _) fun _ =>
        .pure _)
      fun _ => .fails (.expect (by decide))

end Nested.Sim

/-! ## Closing the productions -/

namespace ParseM.Looks

variable {α : Type}

theorem failTooDeep : (ParseM.failTooDeep : ParseM α).Looks := fun _ _ _ _ =>
  ends_of_error run_failTooDeep (by simp)

theorem noteAll (c : Cursor) (ks : List Kind) (h : ks ≠ []) :
    c.pos ≤ (c.noteAll ks).frontier.pos := by
  obtain ⟨k, ks, rfl⟩ := List.exists_cons_of_ne_nil h
  rw [Cursor.frontier_noteAll, Frontier.pos_sup]
  simp [Frontier.all]

theorem eatAny {ks : List Kind} (h : ks ≠ []) (hk : .endOfInput ∉ ks) : (ParseM.eatAny ks).Looks :=
  fun _ c _ _ => ends_eatAny hk (fun _ => noteAll c ks h) fun _ => noteAll c ks h

theorem eat {k : Kind} (hk : k ≠ .endOfInput) : (ParseM.eat k).Looks :=
  fun _ c _ _ => ends_eat hk (fun _ => noteAll c [k] (by simp)) fun _ => noteAll c [k] (by simp)

end ParseM.Looks

namespace Nested

theorem Sim.looks_initBody {inner inner' : Nested} (h : inner.Sim inner') :
    inner'.initBody.Looks :=
  .bind (.eat (by decide)) (.eat _) fun _ => .ite (.bind (.upTo _ (.bind (h.forward.init [])
    fun _ => .bind (.many (h.nextInit? ⟨fun _ => none, ⊥, ⊥, []⟩).1) fun _ => .pure _))
      fun _ => .pure _) (h.forward.expression [])

theorem Sim.looks_operandBody {inner inner' : Nested} (h : inner.Sim inner') :
    inner'.operandBody.Looks :=
  .bind (.eatAny (by decide) (by decide)) (.eatAny _) fun _ => .ite (h.forward.operand []) <|
    .bind (h.forward.primary []) fun _ => .bind (.eatAny _) fun _ => .pure _

/-- At each depth the parser does what the predictive parser does. -/
theorem sim : ∀ levels, (ofLevels levels).Sim (predictive levels)
  | 0 =>
    { statement _ _ := .failTooDeep
      expression _ := .failTooDeep
      init _ := .failTooDeep
      operand _ := .failTooDeep
      looks_init := .failTooDeep
      looks_operand := .failTooDeep }
  | levels + 1 =>
    have h := sim levels
    { statement _ hF := h.statementBody hF
      expression F := h.expressionBody F
      init F := h.initBody F
      operand F := h.unary F
      looks_init := h.looks_initBody
      looks_operand := h.looks_operandBody }

end Nested

/-! ## From the start -/

/-- A cursor at an index, with nothing read before it. -/
def Cursor.starting (i : Nat) : Cursor := { Cursor.initial with pos := i }

theorem Cursor.tidy_starting {input : Input} {i : Nat} (h : i ≤ input.tokens.size) :
    (starting i).Tidy input :=
  ⟨h, Nat.zero_le _, fun s _ => by simp [starting, initial]⟩

theorem exists_agrees {α : Type} (r : EStateM.Result Failure Cursor α) :
    ∃ memory, Agrees memory r := by
  cases r with
  | ok a c => exact ⟨(c.memory[·]?), fun _ _ => rfl⟩
  | error e c => exact ⟨(c.memory[·]?), fun _ => rfl⟩

/-- Two steps that keep runs in step answer alike if nothing was read before. -/
theorem ParseM.Sim.exists_frame {α : Type} {doom : Bool} {m m' : ParseM α}
    (h : ∀ F : Frame, F.base = [] → ParseM.Sim doom F m m') {input : Input} {i : Nat}
    (hi : i ≤ input.tokens.size) : ∃ F : Frame, F.ahead = ⊥ ∧ F.spent = ⊥ ∧
      F.Answers input doom (m.run input (.starting i))
        (m'.run input.remembering (.starting i)) := by
  obtain ⟨memory, hA⟩ := exists_agrees (m'.run input.remembering (.starting i))
  let F : Frame := ⟨memory, ⊥, ⊥, []⟩
  have hT : F.Tracks input (.starting i) (.starting i) :=
    ⟨⟨by rw [sup_bot_eq]; exact (bot_sup_eq _).symm, fun _ s known hs => by
        simp [Cursor.starting, Cursor.initial] at hs, List.nil_prefix⟩,
      rfl, rfl, Nat.zero_le _, Cursor.tidy_starting hi⟩
  exact ⟨F, rfl, rfl, (h F rfl).2 input _ _ hT hA⟩

/-! ## Whole programs -/

namespace Input

variable (input : Input)

/-- What the predictive parser comes to. -/
def decided : EStateM.Result Failure Cursor Program :=
  (Nested.predictive maxNesting).program.run input.remembering .initial

/-- A parse comes to what the predictive parser comes to. -/
theorem parse_eq : input.parse = match input.decided with
    | .ok program _ => .ok program
    | .error failure c => .error (failure.report input c) := by
  obtain ⟨F, hahead, hspent, hans⟩ := ParseM.Sim.exists_frame (i := 0)
    (fun F hF => (Nested.sim maxNesting).program (F := F) hF) (Nat.zero_le input.tokens.size)
  change F.Answers input false (program.run input .initial) input.decided at hans
  unfold Input.parse
  revert hans
  generalize program.run input .initial = r, input.decided = r'
  intro hans
  cases hans with
  | ok h => rfl
  | mismatch h =>
    have hf := h.frontier
    rw [hahead, hspent, sup_bot_eq, bot_sup_eq] at hf
    simp only [Failure.report, hf]
  | doomed hd => cases hd
  | @fatal e _ _ he =>
    cases e with
    | mismatch => exact absurd rfl he
    | unknownFunction name => rfl
    | tooDeep token => rfl

end Input

end Botscript.Parse

namespace Botscript

open Parse

/-- To remember primaries changes neither the program nor the error that tokens are parsed to. -/
theorem parseTokens_eq_plain (source : String) (tokens : List Token) (registry : Registry) :
    parseTokens source tokens registry = parseTokensPlain source tokens registry := by
  unfold parseTokens parseTokensPlain
  rw [Input.parse_eq, Input.parse_eq]
  rfl

end Botscript
