import Botscript.Proofs.Parse.Memo

/-!
# Trying an assignment

The parser tries to read an assignment and goes back if it cannot; the predictive parser decides
behind the first primary. `Nested.Sim.expressionBody` says that the two come to the same: what the
attempt looked at is looked at again (`Frame.Trails.again`), and if what is assigned cannot be read,
the second attempt ends in front of the assignment sign and is doomed.
-/

namespace Botscript.Parse

open Token ParseM

namespace Frame

variable {F : Frame} {input : Input} {base : List CallSite} {c c' d d' : Cursor}

/-- What attempts given up have looked at no longer matters where the predictive run has looked at
it, too. -/
theorem Trails.settle {spent : Frontier}
    (h : Trails { F with spent := F.spent ⊔ spent, base := base } input c c')
    (he : spent ⊔ c'.frontier = d'.frontier) (hb : F.base <+: base) : F.Trails input c d' :=
  ⟨by rw [h.frontier, sup_assoc, he], h.memory, hb.trans h.base⟩

theorem Answers.settle {α : Type} {doom : Bool} {r r' : EStateM.Result Failure Cursor α}
    {spent : Frontier}
    (h : Answers { F with spent := F.spent ⊔ spent, base := base } input doom r r')
    (hb : F.base <+: base) (hok : ∀ a c', r' = .ok a c' → spent ≤ c'.frontier)
    (herr : ∀ c', r' = .error .mismatch c' → spent ≤ c'.frontier) :
    F.Answers input doom r r' := by
  cases h with
  | ok h =>
    have hT := h.toTrails.settle (sup_eq_right.2 (hok _ _ rfl)) hb
    exact .ok ⟨hT, h.pos, h.calls, h.ahead, h.tidy⟩
  | mismatch h => exact .mismatch (h.settle (sup_eq_right.2 (herr _ rfl)) hb)
  | doomed hd hc h => exact .doomed hd hc (h.settle (sup_eq_right.2 (herr _ rfl)) hb)
  | fatal he => exact .fatal he

/-- What only the predictive run has looked at no longer matters where both have passed it. -/
theorem Trails.catchUp {ahead : Frontier}
    (h : Trails { F with ahead := F.ahead ⊔ ahead, base := base } input c c')
    (hp : (F.ahead ⊔ ahead).pos < c'.frontier.pos) :
    Trails { F with base := base } input c c' := by
  have hle : c'.frontier ≤ c.frontier :=
    Frontier.le_of_le_sup (h := F.ahead ⊔ ahead) (le_sup_right.trans h.frontier.ge) hp
  have hle' : F.ahead ⊔ ahead ≤ c.frontier := (Frontier.le_of_pos_lt hp).trans hle
  refine ⟨?_, h.memory, h.base⟩
  have hf : c.frontier ⊔ (F.ahead ⊔ ahead) = F.spent ⊔ c'.frontier := h.frontier
  change c.frontier ⊔ F.ahead = F.spent ⊔ c'.frontier
  rw [← hf, sup_eq_left.2 hle', sup_eq_left.2 (le_sup_left.trans hle')]

theorem Trails.fallBehind {ahead : Frontier} (h : Trails { F with base := base } input c c')
    (hle : ahead ≤ c'.frontier) :
    Trails { F with ahead := F.ahead ⊔ ahead, base := base } input c c' := by
  refine ⟨?_, h.memory, h.base⟩
  have hf : c.frontier ⊔ F.ahead = F.spent ⊔ c'.frontier := h.frontier
  change c.frontier ⊔ (F.ahead ⊔ ahead) = F.spent ⊔ c'.frontier
  rw [← sup_assoc, hf, sup_assoc, sup_eq_left.2 hle]

/-- Back where an attempt started, the two runs are in step again. -/
theorem Tracks.again (hT : F.Tracks input c c') {ks : List Kind}
    (hd : Trails { F with ahead := F.ahead ⊔ .all c.pos ks, base := c.calls } input d d')
    (hle : (c'.noteAll ks).frontier ≤ d'.frontier) :
    Tracks { F with spent := F.spent ⊔ d'.frontier, base := c.calls } input
      ((d.rewind c).noteAll ks) (c'.noteAll ks) := by
  have hcalls : (d.rewind c).calls = c.calls := (List.prefix_iff_eq_take.1 hd.base).symm
  have hframe : ((d.rewind c).noteAll ks).frontier = d.frontier ⊔ .all c.pos ks := by
    rw [Cursor.frontier_noteAll]; rfl
  refine ⟨⟨?_, fun hr s known hs => ?_, ?_⟩, ?_, ?_, ?_, hT.tidy.noteAll ks⟩
  · have hf : d.frontier ⊔ (F.ahead ⊔ .all c.pos ks) = F.spent ⊔ d'.frontier := hd.frontier
    change _ ⊔ F.ahead = F.spent ⊔ d'.frontier ⊔ _
    rw [hframe, sup_right_comm, sup_assoc, hf, sup_assoc, sup_eq_left.2 hle]
  · rw [Cursor.noteAll_memory] at hs
    obtain ⟨hfound, hle⟩ := hd.memory hr s known hs
    exact ⟨hfound, hle.trans (hframe.symm ▸ le_sup_left)⟩
  · exact ((Cursor.noteAll_calls _ _).trans hcalls) ▸ List.prefix_refl c.calls
  · simpa [Cursor.rewind] using hT.pos
  · simpa [hcalls] using hT.calls
  · simpa [Cursor.rewind] using hT.ahead

/-- The predictive run looks for operators before the attempt is given up. -/
theorem Tracks.ahead_noteAll (hT : F.Tracks input c c') (ks : List Kind) :
    Tracks { F with ahead := F.ahead ⊔ .all c.pos ks, base := c.calls } input c
      (c'.noteAll ks) := by
  refine ⟨⟨?_, hT.memory, List.prefix_refl _⟩, by simpa using hT.pos, by simpa using hT.calls, ?_,
    hT.tidy.noteAll ks⟩
  · change c.frontier ⊔ (F.ahead ⊔ _) = F.spent ⊔ _
    rw [Cursor.frontier_noteAll, ← sup_assoc, hT.frontier, hT.pos, sup_assoc]
  · simpa using ⟨hT.ahead, Frontier.pos_all_le c.pos ks⟩

/-- Going back from an attempt that failed at once. -/
theorem Tracks.back (hT : F.Tracks input c c') (ks : List Kind) :
    Tracks { F with spent := F.spent ⊔ .all c.pos ks } input ((c.noteAll ks).rewind c) c' := by
  have hcalls : ((c.noteAll ks).rewind c).calls = c.calls := by simp [Cursor.rewind]
  refine ⟨⟨?_, fun hr s known hs => ?_, hcalls ▸ hT.base⟩, hT.pos, hcalls.trans hT.calls,
    hT.ahead, hT.tidy⟩
  · change (c.noteAll ks).frontier ⊔ F.ahead = _
    rw [Cursor.frontier_noteAll, sup_right_comm, hT.frontier, sup_right_comm]
  · rw [Cursor.rewind, Cursor.noteAll_memory] at hs
    obtain ⟨hfound, hle⟩ := hT.memory hr s known hs
    exact ⟨hfound, hle.trans (c.frontier_le_noteAll ks)⟩

/-- What the predictive run has passed without remembering it is not known. -/
theorem Tracks.not_known (hT : F.Tracks input c c') (h : F.memory c.pos = none)
    (hr : input.remembers = true) : c.memory[c.pos]? = none := by
  cases hfound : c.memory[c.pos]? with
  | none => rfl
  | some known => rw [(hT.memory hr _ _ hfound).1] at h; cases h

end Frame

namespace Nested

variable (inner : Nested)

theorem run_decidedExpression_of_mem {input : Input} {c : Cursor}
    (hk : input.kind c.pos ∈ unaryOperators) :
    inner.decidedExpression.run input c =
      (do inner.operand; inner.tails binaryLevels : ParseM Unit).run input
        (c.noteAll unaryOperators).next := by
  rw [decidedExpression, run_bind_of_ok (run_eatAny_of_mem hk (by decide)), if_pos rfl]

theorem run_decidedExpression_of_not_mem {input : Input} {c : Cursor}
    (hk : input.kind c.pos ∉ unaryOperators) :
    inner.decidedExpression.run input c =
      (do inner.primary; inner.afterPrimary : ParseM Unit).run input
        (c.noteAll unaryOperators) := by
  rw [decidedExpression, run_bind_of_ok (run_eatAny_of_not_mem hk), if_neg Bool.false_ne_true]

theorem run_binary_of_mem {input : Input} {c : Cursor}
    (hk : input.kind c.pos ∈ unaryOperators) :
    (inner.binary binaryLevels).run input c =
      (do inner.operand; inner.tails binaryLevels : ParseM Unit).run input
        (c.noteAll unaryOperators).next := by
  rw [binary_eq_tails, unary, bind_assoc, run_bind_of_ok (run_eatAny_of_mem hk (by decide)),
    if_pos rfl]

theorem run_binary_of_not_mem {input : Input} {c : Cursor}
    (hk : input.kind c.pos ∉ unaryOperators) :
    (inner.binary binaryLevels).run input c =
      (do inner.primary; let _ ← eatAny postOperators; inner.tails binaryLevels : ParseM Unit).run
        input (c.noteAll unaryOperators) := by
  rw [binary_eq_tails, unary, bind_assoc, run_bind_of_ok (run_eatAny_of_not_mem hk),
    if_neg Bool.false_ne_true]
  simp only [bind_assoc, pure_bind]

/-- There are no operators in front of a doomed assignment sign. -/
theorem run_tails_doomed {input : Input} {c : Cursor} (hc : c.Doomed input) :
    ∀ levels, (∀ operators ∈ levels, .assign ∉ operators) →
      (inner.tails levels).run input c = .ok () c
  | [], _ => rfl
  | operators :: tighter, h => by
    rw [tails, run_bind_of_ok (run_tails_doomed hc tighter fun o ho => h o (.tail _ ho))]
    rw [run_bind_of_ok (run_many_of_none (ParseM.Stays.eatAnyThen (h operators (.head _)) hc)),
      run_pure]

/-- What an attempt to read an assignment looks at in front of an operator. -/
def headStarts : List Kind := literals ++ [.identifier, .lparen]

/-- No primary starts with an operator. -/
theorem run_assignment_of_mem {input : Input} {c : Cursor}
    (hk : input.kind c.pos ∈ unaryOperators)
    (hnew : input.remembers = true → c.memory[c.pos]? = none) :
    inner.assignment.run input c = .error .mismatch (c.noteAll headStarts) := by
  have hne : ∀ k ∈ headStarts, input.kind c.pos ≠ k := by
    have hdisjoint : ∀ k ∈ headStarts, k ∉ unaryOperators := by decide
    exact fun k hkm he => hdisjoint k hkm (he ▸ hk)
  have hhead : inner.head.run input c = .error .mismatch (c.noteAll headStarts) := by
    have hlit : input.kind c.pos ∉ literals := fun hm => hne _ (List.mem_append_left _ hm) rfl
    rw [head, run_bind_of_ok (run_checkAny _), decide_eq_false hlit, if_neg Bool.false_ne_true,
      run_bind_of_ok (run_check _), Cursor.noteAll_pos,
      decide_eq_false (hne .identifier (by decide)), if_neg Bool.false_ne_true,
      run_bind_of_ok (run_eat_of_ne (by simpa using hne .lparen (by decide))),
      if_neg Bool.false_ne_true, run_throw]
    rfl
  have hplain : inner.plainPrimary.run input c = .error .mismatch (c.noteAll headStarts) := by
    rw [plainPrimary, run_bind_of_ok run_position, run_bind_of_error hhead]
  rw [assignment]
  refine run_bind_of_error ?_
  rw [Sim.run_primary_new hnew, hplain]

end Nested

namespace Nested.Sim

variable {inner inner' : Nested} (h : inner.Sim inner') (F : Frame)

include h

theorem tails_forward (base : List CallSite) (levels : List (List Kind)) :
    (inner'.tails levels).Forward base :=
  (h.tails ⟨fun _ => none, ⊥, ⊥, base⟩ levels).1

theorem afterPrimary_forward (base : List CallSite) : inner'.afterPrimary.Forward base :=
  .bind (.eat _) fun _ => .ite (h.forward.init base) <|
    .bind (.eatAny _) fun _ => h.tails_forward base _

/-- With an operator in front, the attempt fails at once. -/
theorem expressionBody_of_mem {input : Input} {c c' : Cursor} (hT : F.Tracks input c c')
    (hk : input.kind c.pos ∈ unaryOperators)
    (hA : Agrees F.memory (inner'.decidedExpression.run input.remembering c')) :
    F.Answers input true (inner.expressionBody.run input c)
      (inner'.decidedExpression.run input.remembering c') := by
  have hk' : input.remembering.kind c'.pos ∈ unaryOperators := by rwa [← hT.pos]
  have hne : input.remembering.kind c'.pos ≠ .endOfInput := fun he => by
    rw [he] at hk'
    exact absurd hk' (by decide)
  rw [run_decidedExpression_of_mem _ hk'] at hA ⊢
  have htidy := (hT.tidy.noteAll unaryOperators).next (by rwa [Cursor.noteAll_pos])
  have hnone : F.memory c.pos = none := by
    rw [hA.find (.bind (h.forward.operand []) fun _ => h.tails_forward [] binaryLevels) rfl htidy
      (by simp [hT.pos])]
    simpa using hT.tidy.fresh c.pos hT.pos.ge
  rw [expressionBody, run_orElse_of_mismatch (run_assignment_of_mem inner hk (hT.not_known hnone))]
  rw [run_binary_of_mem inner (show input.kind ((c.noteAll headStarts).rewind c).pos ∈ _ from hk)]
  have hans := ((h.operand _).bind fun _ => h.tails _ binaryLevels).2 _ _ _
    (((hT.back headStarts).noteAll unaryOperators).next (by rwa [Cursor.noteAll_pos])) hA
  have hlooks := h.looks_operand.bind (h.forward.operand [])
    (fun _ => h.tails_forward [] binaryLevels) _ _ rfl htidy
  have hpast : ∀ d' : Cursor, (c'.noteAll unaryOperators).next.pos ≤ d'.frontier.pos →
      Frontier.all c.pos headStarts ≤ d'.frontier := fun d' hd' =>
    Frontier.le_of_pos_lt ((Frontier.pos_all_le _ _).trans_lt
      (by simpa [hT.pos, Nat.succ_le_iff] using hd'))
  exact hans.weaken.settle (List.prefix_refl _) (fun a d' hd' => hpast d' (hlooks.ok hd'))
    fun d' hd' => hpast d' (hlooks.error hd' rfl)

/-- The second attempt reads the first primary again. -/
theorem primary_again {input : Input} {c c' d d' : Cursor} (hT : F.Tracks input c c')
    (hd : Frame.Trails { F with ahead := F.ahead ⊔ .all c.pos unaryOperators, base := c.calls }
      input d d')
    (hle : (c'.noteAll unaryOperators).frontier ≤ d'.frontier)
    (hA : Agrees F.memory (inner'.primary.run input.remembering (c'.noteAll unaryOperators))) :
    Frame.Answers { F with spent := F.spent ⊔ d'.frontier, base := c.calls } input false
      (inner.primary.run input ((d.rewind c).noteAll unaryOperators))
      (inner'.primary.run input.remembering (c'.noteAll unaryOperators)) :=
  (h.primary _).2 _ _ _ (hT.again hd hle) hA

/-- If the first primary cannot be read, neither attempt can read it. -/
theorem expressionBody_of_error {input : Input} {c c' d' : Cursor} {e : Failure}
    (hT : F.Tracks input c c') (hk : input.kind c.pos ∉ unaryOperators)
    (hA : Agrees F.memory (inner'.primary.run input.remembering (c'.noteAll unaryOperators)))
    (hm' : inner'.primary.run input.remembering (c'.noteAll unaryOperators) = .error e d') :
    F.Answers input true (inner.expressionBody.run input c) (.error e d') := by
  have htidy := hT.tidy.noteAll unaryOperators
  have hle := ((h.forward.primary_ends [] rfl htidy).error hm').1.frontier
  have hfirst := (h.primary _).2 _ _ _ (hT.ahead_noteAll unaryOperators) hA
  rw [hm'] at hfirst
  obtain ⟨d, hd, hTd⟩ := hfirst.of_error
  have hd : inner.assignment.run input c = .error e d := run_bind_of_error hd
  by_cases he : e = .mismatch
  · subst he
    have hsecond := h.primary_again F hT (hTd rfl) hle hA
    rw [hm'] at hsecond
    obtain ⟨d₂, hd₂, hTd₂⟩ := hsecond.of_error
    rw [expressionBody, run_orElse_of_mismatch hd,
      run_binary_of_not_mem inner (show input.kind (d.rewind c).pos ∉ _ from hk),
      run_bind_of_error hd₂]
    exact .mismatch ((hTd₂ rfl).settle (sup_idem _) hT.base)
  · rw [expressionBody, run_orElse_of_fatal hd he]
    exact .fatal he

section

variable {input : Input} {c c' d' : Cursor} (hT : F.Tracks input c c')
  (hk : input.kind c.pos ∉ unaryOperators)
  (hA : Agrees F.memory (inner'.primary.run input.remembering (c'.noteAll unaryOperators)))
  (hm' : inner'.primary.run input.remembering (c'.noteAll unaryOperators) = .ok () d')

include hT hA hm'

/-- The first attempt gets past the first primary. -/
theorem first_primary : ∃ d, inner.primary.run input c = .ok () d ∧
    Frame.Tracks { F with base := c.calls } input d d' := by
  have hfirst := (h.primary _).2 _ _ _ (hT.ahead_noteAll unaryOperators) hA
  rw [hm'] at hfirst
  obtain ⟨d, hd, hTd⟩ := hfirst.of_ok
  obtain ⟨-, hlt, -, hf⟩ := (h.forward.primary_ends [] rfl (hT.tidy.noteAll _)).ok hm'
  have hp : (F.ahead ⊔ .all c.pos unaryOperators).pos < d'.frontier.pos := by
    rw [hf, Frontier.pos_behindPrimary, Frontier.pos_sup]
    rw [Cursor.noteAll_pos, ← hT.pos] at hlt
    exact (max_le hT.ahead (Frontier.pos_all_le _ _)).trans_lt hlt
  refine ⟨d, hd, hTd.toTrails.catchUp hp, hTd.pos, hTd.calls, ?_, hTd.tidy⟩
  exact le_sup_left.trans (Frontier.pos_sup _ _ ▸ hTd.ahead)

/-- The second attempt gets past it as well. -/
theorem second_primary {e e' : Cursor}
    (he : Frame.Trails { F with base := c.calls } input e e')
    (hle : d'.frontier ≤ e'.frontier) :
    ∃ d, inner.primary.run input ((e.rewind c).noteAll unaryOperators) = .ok () d ∧
      Frame.Tracks { F with spent := F.spent ⊔ e'.frontier, base := c.calls } input d d' := by
  have hl := ((h.forward.primary_ends [] rfl (hT.tidy.noteAll _)).ok hm').1.frontier
  have hle' := hl.trans hle
  have hnoted : Frontier.all c.pos unaryOperators ≤ e'.frontier := by
    refine le_trans ?_ hle'
    rw [Cursor.frontier_noteAll, hT.pos]
    exact le_sup_right
  have hsecond := h.primary_again F hT (he.fallBehind hnoted) hle' hA
  rw [hm'] at hsecond
  exact hsecond.of_ok

include hk

/-- An assignment is read at the first attempt, or not at all. -/
theorem expressionBody_of_assign (hd' : input.kind d'.pos = .assign)
    (hA' : Agrees F.memory (inner'.init.run input.remembering (d'.note .assign).next)) :
    F.Answers input true (inner.expressionBody.run input c)
      (inner'.init.run input.remembering (d'.note .assign).next) := by
  obtain ⟨d, hd, hTd⟩ := h.first_primary F hT hA hm'
  have hkd : input.kind d.pos = .assign := by rwa [hTd.pos]
  have hT₁ := (hTd.note .assign).next (by rw [Cursor.note_pos]; exact hd'.trans_ne (by decide))
  have hassign : inner.assignment.run input c = inner.init.run input (d.note .assign).next :=
    (run_bind_of_ok hd).trans (run_bind_of_ok (run_expect_of_eq hkd (by decide)))
  have hans := (h.init _).2 _ _ _ hT₁ hA'
  have hlead := h.forward.init [] _ _ rfl hT₁.tidy
  have hlooks := h.looks_init _ _ rfl hT₁.tidy
  rw [expressionBody]
  revert hassign hans
  generalize inner.init.run input (d.note .assign).next = r,
    hr' : inner'.init.run input.remembering (d'.note .assign).next = r'
  intro hassign hans
  cases hans with
  | ok hTe =>
    rw [run_orElse_of_ok hassign]
    exact .ok ⟨⟨hTe.frontier, hTe.memory, hT.base.trans hTe.base⟩, hTe.pos, hTe.calls, hTe.ahead,
      hTe.tidy⟩
  | doomed _ hc he =>
    rw [run_orElse_of_ok hassign]
    exact .doomed rfl hc ⟨he.frontier, he.memory, hT.base.trans he.base⟩
  | fatal he =>
    rw [run_orElse_of_fatal hassign he]
    exact .fatal he
  | @mismatch e e' he =>
    have hle : d'.frontier ≤ e'.frontier :=
      (d'.frontier_le_note .assign).trans (hlead.error hr').frontier
    obtain ⟨d₂, hd₂, hTd₂⟩ := h.second_primary F hT hA hm' he hle
    have hdoomed : d₂.Doomed input := by
      have hfar : d₂.pos < e'.frontier.pos := hTd₂.pos ▸ hlooks.error hr' rfl
      have hseen : e'.frontier ≤ d₂.frontier ⊔ F.ahead :=
        (le_sup_right.trans le_sup_left).trans hTd₂.frontier.ge
      exact ⟨hTd₂.pos ▸ hd', hfar.trans_le (Frontier.pos_mono
        (Frontier.le_of_le_sup hseen (hTd₂.ahead.trans_lt hfar)))⟩
    rw [run_orElse_of_mismatch hassign,
      run_binary_of_not_mem inner (show input.kind (e.rewind c).pos ∉ _ from hk),
      run_bind_of_ok hd₂, run_bind_of_ok (hdoomed.run_eatAny (by decide)),
      run_tails_doomed inner hdoomed _ (by decide)]
    exact .doomed rfl hdoomed (hTd₂.toTrails.settle (sup_eq_left.2 hle) hT.base)

/-- What is no assignment is read at the second attempt. -/
theorem expressionBody_of_no_assign (hd' : input.kind d'.pos ≠ .assign)
    (hA' : Agrees F.memory ((do let _ ← eatAny postOperators; inner'.tails binaryLevels :
      ParseM Unit).run input.remembering (d'.note .assign))) :
    F.Answers input true (inner.expressionBody.run input c)
      ((do let _ ← eatAny postOperators; inner'.tails binaryLevels : ParseM Unit).run
        input.remembering (d'.note .assign)) := by
  obtain ⟨d, hd, hTd⟩ := h.first_primary F hT hA hm'
  have hfail : inner.assignment.run input c = .error .mismatch (d.note .assign) :=
    (run_bind_of_ok hd).trans (run_bind_of_error (run_expect_of_ne (by rwa [hTd.pos])))
  have hle : d'.frontier ≤ (d'.note .assign).frontier :=
    d'.frontier_le_note .assign
  obtain ⟨d₂, hd₂, hTd₂⟩ := h.second_primary F hT hA hm' (hTd.note .assign).toTrails hle
  rw [expressionBody, run_orElse_of_mismatch hfail,
    run_binary_of_not_mem inner (show input.kind ((d.note .assign).rewind c).pos ∉ _ from hk),
    run_bind_of_ok hd₂]
  have hT₂ : F.Tracks input d₂ (d'.note .assign) :=
    ⟨hTd₂.toTrails.settle (sup_eq_left.2 hle) hT.base, hTd₂.pos, hTd₂.calls, hTd₂.ahead,
      hTd₂.tidy.note _⟩
  exact (((ParseM.Sim.eatAny _).bind fun _ => h.tails F _).2 _ _ _ hT₂ hA').weaken

end

/-- Without an operator in front, both attempts read the first primary. -/
theorem expressionBody_of_not_mem {input : Input} {c c' : Cursor} (hT : F.Tracks input c c')
    (hk : input.kind c.pos ∉ unaryOperators)
    (hA : Agrees F.memory (inner'.decidedExpression.run input.remembering c')) :
    F.Answers input true (inner.expressionBody.run input c)
      (inner'.decidedExpression.run input.remembering c') := by
  have hk' : input.remembering.kind c'.pos ∉ unaryOperators := by rwa [← hT.pos]
  rw [run_decidedExpression_of_not_mem _ hk'] at hA ⊢
  have hAp := hA.of_bind (h.forward.primary []) (fun _ => h.afterPrimary_forward []) rfl
    (hT.tidy.noteAll unaryOperators)
  cases hm' : inner'.primary.run input.remembering (c'.noteAll unaryOperators) with
  | error e d' =>
    rw [run_bind_of_error hm']
    exact h.expressionBody_of_error F hT hk hAp hm'
  | ok u d' =>
    rw [run_bind_of_ok hm', afterPrimary] at hA ⊢
    by_cases hd' : input.remembering.kind d'.pos = .assign
    · rw [run_bind_of_ok (run_eat_of_eq hd' (by decide)), if_pos rfl] at hA ⊢
      exact h.expressionBody_of_assign F hT hk hAp hm' hd' hA
    · rw [run_bind_of_ok (run_eat_of_ne hd'), if_neg Bool.false_ne_true] at hA ⊢
      exact h.expressionBody_of_no_assign F hT hk hAp hm' hd' hA

theorem decidedExpression_forward (base : List CallSite) :
    inner'.decidedExpression.Forward base :=
  .bind (.eatAny _) fun _ => .ite (.bind (h.forward.operand base) fun _ => h.tails_forward base _)
    (.bind (h.forward.primary base) fun _ => h.afterPrimary_forward base)

theorem expressionBody : ParseM.Sim true F inner.expressionBody inner'.decidedExpression := by
  refine ⟨h.decidedExpression_forward F.base, fun input c c' hT hA => ?_⟩
  by_cases hk : input.kind c.pos ∈ unaryOperators
  · exact h.expressionBody_of_mem F hT hk hA
  · exact h.expressionBody_of_not_mem F hT hk hA

end Nested.Sim

end Botscript.Parse
