import Botscript.Proofs.Parse.Tracking

/-!
# Remembering primaries

The parser answers as the predictive parser does, with a memory or without.
-/

namespace Botscript.Parse

open Token ParseM

/-- A step that looks at the current token, unless it fails for good. -/
def ParseM.Looks {α : Type} (m : ParseM α) : Prop :=
  ∀ (input : Input) (c : Cursor), input.remembers = true → c.Tidy input →
    m.Ends input c (fun _ c' => c.pos ≤ c'.frontier.pos)
      fun e c' => e = .mismatch → c.pos ≤ c'.frontier.pos

theorem ParseM.Looks.bind {α β : Type} {m : ParseM α} {f : α → ParseM β} (h : m.Looks)
    (hm : m.Forward []) (hf : ∀ a, (f a).Forward []) : (m >>= f).Looks := fun input c hr hc => by
  refine ends_bind (((h input c hr hc).and (hm input c hr hc)).mono (fun a d hd => ?_)
    fun _ _ hd => hd.1)
  exact (hf a input d hr hd.2.2).mono (fun _ _ h' => hd.1.trans (Frontier.pos_mono h'.1.frontier))
    fun _ _ h' _ => hd.1.trans (Frontier.pos_mono h'.frontier)

/-- The nested productions of the parser do what those of the predictive one do. Where an expression
ends the parser may be in front of a doomed assignment sign. -/
structure Nested.Sim (inner inner' : Nested) : Prop where
  statement : ∀ F, F.base = [] → ParseM.Sim false F inner.statement inner'.statement
  expression : ∀ F, ParseM.Sim true F inner.expression inner'.expression
  init : ∀ F, ParseM.Sim true F inner.init inner'.init
  operand : ∀ F, ParseM.Sim false F inner.operand inner'.operand
  looks_init : inner'.init.Looks
  looks_operand : inner'.operand.Looks

namespace Nested.Sim

variable {inner inner' : Nested} (h : inner.Sim inner') (F : Frame)

include h

theorem expressions : ParseM.Sim true F inner.expressions inner'.expressions :=
  (ParseM.Sim.sepByComma (h.expression F)).bind_doomed (fun _ => .pure _) fun _ => .pure _

theorem arguments (start : Nat) :
    ParseM.Sim false F (inner.arguments start) (inner'.arguments start) :=
  .bind .position fun _ => .bind .advance fun _ => .bind (.upTo (by decide) (h.expressions F))
    fun _ => .reading (fun _ => .ite (.callSite _) (.pure _)) fun _ => rfl

theorem suffix? (start : Nat) :
    ParseM.Sim false F (inner.suffix? start) (inner'.suffix? start) := by
  refine .bind (.eat _) fun _ => .ite ?_ <| .bind (.eat _) fun _ =>
    .ite (.bind (.expect _) fun _ => .pure _) <| .bind (.check _) fun _ =>
      .ite (.map _ (h.arguments F start)) (.pure _)
  exact (h.expression F).bind_doomed (fun _ => .bind (.expect _) fun _ => .pure _)
    fun _ => .fails (.expect (by decide))

theorem head : ParseM.Sim false F inner.head inner'.head := by
  refine .bind (.checkAny _) fun _ => .ite .advance <| .bind (.check _) fun _ => .ite .advance <|
    .bind (.eat _) fun _ => .ite ?_ (.throw _)
  exact (h.expression F).bind_doomed (fun _ => .bind (.expect _) fun _ => .pure _)
    fun _ => .fails (.expect (by decide))

theorem plainPrimary : ParseM.Sim false F inner.plainPrimary inner'.plainPrimary :=
  .bind .position fun start => .bind (h.head F) fun _ =>
    .bind (.many (h.suffix? F start) (by simp)) fun _ => .pure _

theorem forward : inner'.Forward where
  expression base := (h.expression ⟨fun _ => none, ⊥, ⊥, base⟩).1
  init base := (h.init ⟨fun _ => none, ⊥, ⊥, base⟩).1
  operand base := (h.operand ⟨fun _ => none, ⊥, ⊥, base⟩).1

/-- A primary that is known is what the predictive parser reads there. -/
theorem primary_known {input : Input} {c c' : Cursor} {known : Primary}
    (hT : F.Tracks input c c') (hr : input.remembers = true) (hk : c.memory[c.pos]? = some known)
    (hA : Agrees F.memory (inner'.primary.run input.remembering c')) :
    F.Answers input false (inner.primary.run input c)
      (inner'.primary.run input.remembering c') := by
  obtain ⟨hmem, hle⟩ := hT.memory hr _ _ hk
  have hrun : inner.primary.run input c = .ok () (c.skip known) := by
    change (if input.remembers then _ else _) = _
    rw [if_pos hr, hk]
  have hplain := h.forward.plainPrimary_ends c'.calls rfl hT.tidy
  rw [Nested.Forward.run_primary rfl hT.tidy] at hA ⊢
  rw [hT.pos] at hmem
  cases hm : inner'.plainPrimary.run input.remembering c' with
  | error e d' =>
    simp only [hm] at hA
    have hnone := (hplain.error hm).2.trans (hT.tidy.fresh c'.pos le_rfl)
    rw [← hA c'.pos, hmem] at hnone
    cases hnone
  | ok u d' =>
    simp only [hm] at hA
    obtain ⟨hl, ht', hf⟩ := hplain.ok hm
    have hlt : c'.pos < d'.pos := hl.pos
    have hfound := hA c'.pos hlt
    rw [hmem, Cursor.getElem?_remember, if_pos rfl, Option.some.injEq] at hfound
    subst hfound
    have hfar : F.spent ⊔ .behindPrimary d'.pos = F.spent ⊔ c'.frontier := by
      have hspent : Frontier.behindPrimary d'.pos ≤ F.spent :=
        Frontier.le_of_le_sup ((hle.trans le_sup_left).trans hT.frontier.le)
          (hT.tidy.frontier.trans_lt (by simpa using hlt))
      have hc' : c'.frontier ≤ Frontier.behindPrimary d'.pos := hf ▸ hl.frontier
      rw [sup_eq_left.2 hspent, sup_eq_left.2 (hc'.trans hspent)]
    rw [hrun]
    refine .ok ⟨⟨?_, hT.memory, hT.base.trans (List.prefix_append _ _)⟩, rfl, ?_, ?_,
      ht'.remember hlt⟩
    · exact hT.frontier.trans (hfar.symm.trans (by rw [← hf]; rfl))
    · change c.calls ++ _ = d'.calls
      rw [hT.calls]
      exact List.prefix_iff_eq_append.1 (hl.calls (List.prefix_refl _))
    · exact (hT.ahead.trans hT.pos.le).trans hlt.le

omit h in
/-- A primary that is not known is read as if there were no memory. -/
theorem run_primary_new {input : Input} {c : Cursor}
    (hk : input.remembers = true → c.memory[c.pos]? = none) :
    inner.primary.run input c = match inner.plainPrimary.run input c with
      | .ok () d => .ok () (if input.remembers then d.remember c else d)
      | failed => failed := by
  change (if input.remembers then _ else _) = _
  by_cases hr : input.remembers = true
  · rw [if_pos hr, hk hr]
    cases inner.plainPrimary.run input c <;> simp [hr]
  · rw [if_neg hr]
    cases inner.plainPrimary.run input c <;> simp [hr]

omit h in
/-- Two runs are still in step after what a primary comes to is remembered. -/
theorem tracks_remember {input : Input} {c c' d d' : Cursor} (hT : F.Tracks input c c')
    (hG : (F.whileReading c).Tracks input d d') (hlt : c'.pos < d'.pos)
    (hf : d'.frontier = .behindPrimary d'.pos)
    (hA : ∀ s < d'.pos, F.memory s = (d'.remember c').memory[s]?) :
    F.Tracks input (if input.remembers then d.remember c else d) (d'.remember c') := by
  have hmem : input.remembers = true → ∀ s known, (d.remember c).memory[s]? = some known →
      F.memory s = some known ∧ .behindPrimary known.stop ≤ d.frontier := by
    intro hr s known hs
    rw [Cursor.getElem?_remember] at hs
    split_ifs at hs with hsc
    · obtain rfl := Option.some.inj hs
      have hfound := hA c'.pos hlt
      rw [Cursor.getElem?_remember, if_pos rfl, ← hG.pos, ← hG.calls, ← hT.calls, ← hT.pos,
        ← hsc] at hfound
      refine ⟨hfound, Frontier.le_of_le_sup (h := F.ahead) ?_ ?_⟩
      · rw [hG.pos, ← hf]
        exact le_sup_right.trans hG.frontier.ge
      · have := hT.ahead.trans_lt (hT.pos.trans_lt (hlt.trans_eq hG.pos.symm))
        simpa using this
    · obtain ⟨hfound, hle⟩ := hG.memory hr s known hs
      exact ⟨by rwa [F.whileReading_memory_of_ne hsc] at hfound, hle⟩
  have hT' : F.Tracks input (d.remember c) (d'.remember c') :=
    ⟨⟨hG.frontier, hmem, hT.base.trans hG.base⟩, hG.pos, hG.calls, hG.ahead, hG.tidy.remember hlt⟩
  split_ifs with hr
  · exact hT'
  · exact ⟨⟨hG.frontier, fun h => absurd h hr, hT'.base⟩, hT'.pos, hT'.calls, hT'.ahead, hT'.tidy⟩

omit h in
/-- Two runs in step stay so while a primary that is not known is read. -/
theorem tracks_whileReading {input : Input} {c c' : Cursor} (hT : F.Tracks input c c')
    (hk : input.remembers = true → c.memory[c.pos]? = none) :
    (F.whileReading c).Tracks input c c' := by
  refine ⟨⟨hT.frontier, fun hr s known hs => ?_, List.prefix_refl _⟩, hT.pos, hT.calls, hT.ahead,
    hT.tidy⟩
  have hsc : s ≠ c.pos := by
    rintro rfl
    rw [hk hr] at hs
    cases hs
  exact ⟨(F.whileReading_memory_of_ne hsc).trans (hT.memory hr s known hs).1,
    (hT.memory hr s known hs).2⟩

/-- A frame that agrees with a primary of the predictive parser agrees, while it is being read, with
what it is before it is remembered. -/
theorem agrees_whileReading {input : Input} {c c' : Cursor} (hT : F.Tracks input c c')
    (hA : Agrees F.memory (inner'.primary.run input.remembering c')) :
    Agrees (F.whileReading c).memory (inner'.plainPrimary.run input.remembering c') := by
  have hplain := h.forward.plainPrimary_ends c'.calls rfl hT.tidy
  rw [Nested.Forward.run_primary rfl hT.tidy] at hA
  cases hm : inner'.plainPrimary.run input.remembering c' with
  | error e d' =>
    simp only [hm] at hA
    have hnone := (hplain.error hm).2.trans (hT.tidy.fresh c'.pos le_rfl)
    intro s
    by_cases hsc : s = c.pos
    · rw [hsc, F.whileReading_memory, hT.pos, hnone]
    · exact (F.whileReading_memory_of_ne hsc).trans (hA s)
  | ok u d' =>
    simp only [hm] at hA
    obtain ⟨hl, -, -⟩ := hplain.ok hm
    intro s hs
    by_cases hsc : s = c.pos
    · rw [hsc, F.whileReading_memory, hT.pos, hl.memory c'.pos (Nat.lt_succ_self _)]
      exact (hT.tidy.fresh c'.pos le_rfl).symm
    · refine (F.whileReading_memory_of_ne hsc).trans ((hA s hs).trans ?_)
      rw [Cursor.getElem?_remember, if_neg (hT.pos ▸ hsc)]

/-- A primary that is not known is read, and remembered as the predictive parser does. -/
theorem primary_new {input : Input} {c c' : Cursor} (hT : F.Tracks input c c')
    (hk : input.remembers = true → c.memory[c.pos]? = none)
    (hA : Agrees F.memory (inner'.primary.run input.remembering c')) :
    F.Answers input false (inner.primary.run input c)
      (inner'.primary.run input.remembering c') := by
  have hplain := h.forward.plainPrimary_ends c'.calls rfl hT.tidy
  have hans := (h.plainPrimary _).2 input c c' (tracks_whileReading F hT hk)
    (h.agrees_whileReading F hT hA)
  rw [Nested.Forward.run_primary rfl hT.tidy] at hA ⊢
  rw [run_primary_new hk]
  revert hA hans
  generalize inner.plainPrimary.run input c = r,
    hm : inner'.plainPrimary.run input.remembering c' = r'
  intro hA hans
  cases hans with
  | ok hGd =>
    obtain ⟨hl, -, hf⟩ := hplain.ok hm
    exact .ok (tracks_remember F hT hGd hl.pos hf hA)
  | mismatch hGd =>
    refine .mismatch ⟨hGd.frontier, fun hr s known hs => ?_, hT.base.trans hGd.base⟩
    obtain ⟨hfound, hle⟩ := hGd.memory hr s known hs
    have hsc : s ≠ c.pos := by
      rintro rfl
      rw [F.whileReading_memory] at hfound
      cases hfound
    exact ⟨by rwa [F.whileReading_memory_of_ne hsc] at hfound, hle⟩
  | fatal he => exact .fatal he
  | doomed hd => cases hd

theorem primary : ParseM.Sim false F inner.primary inner'.primary := by
  refine ⟨h.forward.primary F.base, fun input c c' hT hA => ?_⟩
  by_cases hr : input.remembers = true
  · cases hk : c.memory[c.pos]? with
    | none => exact h.primary_new F hT (fun _ => hk) hA
    | some known => exact h.primary_known F hT hr hk hA
  · exact h.primary_new F hT (fun h => absurd h hr) hA

theorem unary : ParseM.Sim false F inner.unary inner'.unary :=
  .bind (.eatAny _) fun _ => .ite (h.operand F) <| .bind (h.primary F) fun _ =>
    .bind (.eatAny _) fun _ => .pure _

theorem binary : ∀ levels, ParseM.Sim false F (inner.binary levels) (inner'.binary levels)
  | [] => h.unary F
  | _ :: tighter => .bind (binary tighter) fun _ => .bind (.many (.bind (.eatAny _) fun _ =>
      .ite (.map _ (binary tighter)) (.pure _)) (by simp)) fun _ => .pure _

theorem tails : ∀ levels, ParseM.Sim false F (inner.tails levels) (inner'.tails levels)
  | [] => .pure _
  | _ :: tighter => .bind (tails tighter) fun _ => .bind (.many (.bind (.eatAny _) fun _ =>
      .ite (.map _ (h.binary F tighter)) (.pure _)) (by simp)) fun _ => .pure _

end Nested.Sim

end Botscript.Parse
