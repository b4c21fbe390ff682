import Botscript.Proofs.Grammar.Operators

/-!
# Reading statements and programs

The productions of the predictive parser from statements to programs read the words of the grammar.
A statement is read without knowing whether an `else` follows; `Inner.statementBody` is about what
may follow it with an `else` and without.
-/

namespace Botscript.Grammar

open Computability Token Parse ParseM

variable {A : Aim} {input : Input} {c : Cursor} {d : Dialect} {inner : Nested} {X : Forms}
  {K K' N Y : Language Token}

/-- What may follow the condition of an `if`. -/
def afterIf (X : Forms) (K K' : Language Token) : Language Token :=
  body X * K + closedBody X * (tok .kwElse * (body X * K + closedBody X * K'))

/-- The statements that start with a mark of their own, and what may follow them. -/
def marked (X : Forms) (N W I : Language Token) : Language Token :=
  tok .lbrace * ((X .statement)∗ * (tok .rbrace * N)) + tok .semicolon * N
    + tok .kwVar * (sepBy (declarator X) * (tok .semicolon * N))
    + tok .kwReturn * (opt (X .expression) * (tok .semicolon * N))
    + oneOf [.kwBreak, .kwContinue] * (tok .semicolon * N)
    + tok .kwWhile * (condition X * W) + tok .kwIf * (condition X * I)

/-- The kinds that statements with a mark of their own start with. -/
def marks : List Kind :=
  [.lbrace, .semicolon, .kwVar, .kwReturn, .kwBreak, .kwContinue, .kwWhile, .kwIf]

theorem starts_marked (N W I : Language Token) : Starts (marked X N W I) marks := by
  unfold marked
  refine .add (.add (.add (.add (.add (.add ?_ ?_) ?_) ?_) ?_) ?_) ?_
  all_goals exact .mul (.oneOf (by decide)) _

theorem leftQuotient_marked (N W I : Language Token) (t : Token) :
    (marked X N W I).leftQuotient [t] = match t.kind with
      | .lbrace => (X .statement)∗ * (tok .rbrace * N)
      | .semicolon => N
      | .kwVar => sepBy (declarator X) * (tok .semicolon * N)
      | .kwReturn => opt (X .expression) * (tok .semicolon * N)
      | .kwBreak | .kwContinue => tok .semicolon * N
      | .kwWhile => condition X * W
      | .kwIf => condition X * I
      | _ => 0 := by
  simp only [marked, leftQuotient_add, leftQuotient_oneOf_mul_ite]
  cases t.kind <;>
    simp only [List.mem_cons, List.not_mem_nil, reduceCtorEq, or_false, or_true, if_true, if_false,
      add_zero, zero_add]

theorem statement_then (hd : d.nearestElse = true) (K K' : Language Token) :
    statement X * K + closed d X * K' =
      marked X (K + K') (body X * K + closedBody X * K') (afterIf X K K')
        + X .expression * (tok .semicolon * (K + K')) := by
  simp only [statement, closed, hd, if_true, simple, block, declaration, result, jump, evaluation,
    ruled, twoWay, marked, afterIf, add_mul, mul_add, mul_assoc]
  abel

/-- A statement that begins with a brace goes on as a block does. -/
theorem Regular.leftQuotient_statement_le (h : Regular d X) {t : Token} (ht : t.kind = .lbrace)
    (K : Language Token) :
    (X .statement * K).leftQuotient [t] ≤ (X .statement)∗ * (tok .rbrace * K) := by
  have hle : (X .statement).leftQuotient [t] ≤ (X .statement)∗ * tok .rbrace := fun v hv => by
    have hb := h.braces t v ht hv
    exact (cons_mem_oneOf_mul.1 hb).2
  rw [h.statement.leftQuotient_mul, ← mul_assoc]
  gcongr

theorem Regular.leftQuotient_closed_le (h : Regular d X) {t : Token} (ht : t.kind = .lbrace)
    (K : Language Token) :
    (X .closed * K).leftQuotient [t] ≤ (X .statement)∗ * (tok .rbrace * K) := by
  refine le_trans (fun v hv => ?_) (h.leftQuotient_statement_le ht K)
  exact mul_le_mul_left h.closed_le K hv

namespace Aim.Leaves

/-- What cannot begin here may as well be left. -/
theorem undrop {ks : List Kind} (h : A.Leaves input c Y) (hX : Starts N ks)
    (hn : ∀ k ∈ ks, k ∈ noted c) (hk : input.kind c.pos ∉ ks) : A.Leaves input c (Y + N) :=
  h.congr fun v hv => by
    refine ⟨.inl, fun hm => hm.resolve_right fun hm => ?_⟩
    obtain ⟨t, v, rfl, ht⟩ := hX v hm
    exact hk (hv t rfl (hn _ ht) ▸ ht)

end Aim.Leaves

namespace Inner

variable (h : Inner A input d inner X)

include h

theorem condition : Reads A input inner.condition (Grammar.condition X) [] := by
  refine .expectThen (by decide) (fun _ => .after (fun c => ⟨c.pos, rfl⟩) fun _ => ?_) fun hA => ?_
  · exact h.expression.reads.bind (fun _ => .after (fun c => ⟨_, rfl⟩) fun _ =>
      (Reads.expect (by decide)).before fun _ _ => ⟨_, rfl⟩) (by simp) fun K _ =>
        .tok_mul (by decide) K
  · simp [h.possible hA]

/-- Each kind that statements start with may stand where a statement may. -/
theorem begins_statement (hK : A.exact = true → Possible K) (hA : A.exact = true) :
    ∀ k ∈ statementStarts, Begins (X .statement * K) k := fun k hk =>
  (h.starts hA k hk).mul (hK hA)

theorem statements : Reads A input (many inner.nextStatement?) (X .statement)∗
    (.kwElse :: statementStarts) := by
  refine .many fun c K hav hK hc => ?_
  have hrest : A.exact = true → Possible ((X .statement)∗ * K) := fun hA => by simp [hK hA]
  rw [star_mul] at hc
  have hnoted : A.Leaves input (c.noteAll statementStarts) _ := hc.noteAll fun hA k hk => by
    exact (h.begins_statement hrest hA k hk).mono le_self_add
  refine ends_bind (ends_checkAny (ends_ite (fun hk => ?_) fun hk => ends_pure ⟨by simp, ?_⟩))
  · have hk := of_decide_eq_true hk
    have helse : Avoids ((X .statement)∗ * K) [.kwElse] :=
      .star_mul ((h.regular.statement.mul _).avoids (by decide)) (hav.mono (by decide))
    have hY : Elsewhere input statementStarts (c.noteAll statementStarts) K :=
      .inr ⟨by simpa using hk, hav.mono (List.subset_cons_self _ _)⟩
    refine ends_map ((h.statement _ _ 0 K helse .zero hrest hY ?_).mono (fun _ d hd => ?_)
      fun _ _ h' => h')
    · rwa [mul_zero, add_zero]
    · rw [Cursor.noteAll_pos, add_zero] at hd
      exact hd
  · have hk' : input.kind c.pos ∉ statementStarts := fun hm => hk (decide_eq_true hm)
    exact hnoted.drop (h.regular.statement.mul _)
      (fun k hk => (noted_noteAll hc.tidy _).2 (.inr hk)) (by simpa using hk')

/-- A block, whose opening brace is due. -/
theorem braced_ends (hK : A.exact = true → Possible K)
    (hc : A.Awaits input .lbrace ((X .statement)∗ * (tok .rbrace * K)) c) :
    inner.braced.Ends input c (fun _ c' => c.pos < c'.pos ∧ A.Leaves input c' K)
      (A.Rejects input) := by
  refine ends_bind (hc.ends_expect (by decide) fun hc₁ => ?_)
  refine ends_bind ((h.statements.awaits (by decide) (by decide) hK hc₁).mono
    (fun _ c₂ hc₂ => ?_) fun _ _ h' => h')
  have hle : c.pos + 1 ≤ c₂.pos := hc₂.1
  exact ends_bind (hc₂.2.ends_expect (by decide) fun hc₃ =>
    ends_pure ⟨by simp only [Cursor.next_pos, Cursor.note_pos]; omega, hc₃⟩)

/-- A body is read up to what may follow it, as a statement is. -/
theorem body_ends (hav : Avoids K [.kwElse]) (hK' : Starts K' [.kwElse])
    (hK : A.exact = true → Possible K)
    (hc : A.Leaves input c (Grammar.body X * K + closedBody X * K')) :
    inner.body.Ends input c (fun _ c' => c.pos < c'.pos ∧ A.Leaves input c' (K + K'))
      (A.Rejects input) := by
  have hp : A.exact = true → Possible (K + K') := fun hA => by simp [hK hA]
  have hsplit : Grammar.body X * K + closedBody X * K' =
      tok .lbrace * ((X .statement)∗ * (tok .rbrace * (K + K'))) +
        (X .statement * K + X .closed * K') := by
    simp only [Grammar.body, closedBody, block, add_mul, mul_add, mul_assoc]
    abel
  rw [hsplit] at hc
  have hnoted := hc.noted_oneOf fun hA => by simp [hK hA]
  refine ends_bind (ends_check (ends_ite (fun hk => ?_) fun hk => ?_))
  · have hk : input.kind c.pos = .lbrace := of_decide_eq_true hk
    refine h.braced_ends hp (hnoted.awaits_here (by decide) hk ?_ fun hA => by simp [hK hA])
    have hs := h.regular.leftQuotient_statement_le hk K
    have hc := h.regular.leftQuotient_closed_le hk K'
    rw [Cursor.noteAll_pos, leftQuotient_add, leftQuotient_oneOf_mul (List.mem_singleton.2 hk),
      leftQuotient_add]
    refine sup_eq_left.2 (add_le_iff.2 ⟨hs.trans ?_, hc.trans ?_⟩)
    · gcongr; exact le_sup_left
    · gcongr; exact le_sup_right
  · have hleft := hc.left (fun hA => by simp [hK hA]) fun hm =>
      hk (decide_eq_true (List.mem_singleton.1 hm))
    refine ends_bind ((h.statement _ _ _ 0 hav hK' hK .zero (by rwa [add_zero])).mono
      (fun _ d hd => ends_pure hd) fun _ _ h' => h')

theorem elseBody_ends (hav : Avoids K [.kwElse]) (hK' : Starts K' [.kwElse])
    (hK : A.exact = true → Possible K)
    (hc : A.Leaves input c
      (K + tok .kwElse * (Grammar.body X * K + closedBody X * K'))) :
    inner.elseBody.Ends input c (fun _ c' => c.pos ≤ c'.pos ∧ A.Leaves input c' (K + K'))
      (A.Rejects input) := by
  have hp : A.exact = true → Possible (Grammar.body X * K + closedBody X * K') := fun hA => by
    simp [Grammar.body, block, hK hA]
  rw [add_comm] at hc
  refine ends_bind (ends_eat (by decide) hc hav hp (fun _ h' => ?_)
    fun hk h' => ends_pure ⟨le_rfl, ?_⟩)
  · refine (h.body_ends hav hK' hK h').mono (fun _ d hd => ⟨?_, hd.2⟩) fun _ _ h' => h'
    have hlt : c.pos + 1 < d.pos := hd.1
    omega
  · refine h'.undrop hK' (fun k hk' => ?_) (by simpa using hk)
    rw [noted_note hc.tidy.frontier]
    exact Token.KindSet.mem_union.2 (.inr (Token.KindSet.mem_single.2 (List.mem_singleton.1 hk')))

theorem branch_ends (hav : Avoids K [.kwElse]) (hK' : Starts K' [.kwElse])
    (hK : A.exact = true → Possible K)
    (hc : A.Awaits input .kwIf (Grammar.condition X * afterIf X K K') c) :
    inner.branch.Ends input c (fun _ c' => c.pos < c'.pos ∧ A.Leaves input c' (K + K'))
      (A.Rejects input) := by
  have hp : A.exact = true → Possible (afterIf X K K') := fun hA => by
    simp [afterIf, Grammar.body, block, hK hA]
  have helse : Starts (tok .kwElse * (Grammar.body X * K + closedBody X * K')) [.kwElse] :=
    .mul (.tok (List.mem_singleton_self _)) _
  refine ends_bind (hc.ends_expect (by decide) fun hc₁ => ?_)
  refine ends_bind ((h.condition _ _ (fun _ _ _ => List.not_mem_nil) hp hc₁).mono
    (fun _ c₂ hc₂ => ?_) fun _ _ h' => h')
  refine ends_bind ((h.body_ends hav helse hK hc₂.2).mono (fun _ c₃ hc₃ => ?_) fun _ _ h' => h')
  refine ends_bind ((h.elseBody_ends hav hK' hK hc₃.2).mono (fun _ c₄ hc₄ => ends_pure ⟨?_, hc₄.2⟩)
    fun _ _ h' => h')
  have h₂ : c.pos + 1 ≤ c₂.pos := hc₂.1
  have h₃ := hc₃.1
  have h₄ := hc₄.1
  omega

theorem loop_ends (hav : Avoids K [.kwElse]) (hK' : Starts K' [.kwElse])
    (hK : A.exact = true → Possible K)
    (hc : A.Awaits input .kwWhile
      (Grammar.condition X * (Grammar.body X * K + closedBody X * K')) c) :
    inner.loop.Ends input c (fun _ c' => c.pos < c'.pos ∧ A.Leaves input c' (K + K'))
      (A.Rejects input) := by
  have hp : A.exact = true → Possible (Grammar.body X * K + closedBody X * K') := fun hA => by
    simp [Grammar.body, block, hK hA]
  refine ends_bind (hc.ends_expect (by decide) fun hc₁ => ?_)
  refine ends_bind ((h.condition _ _ (fun _ _ _ => List.not_mem_nil) hp hc₁).mono
    (fun _ c₂ hc₂ => ?_) fun _ _ h' => h')
  refine ends_bind ((h.body_ends hav hK' hK hc₂.2).mono (fun _ c₃ hc₃ => ends_pure ⟨?_, hc₃.2⟩)
    fun _ _ h' => h')
  have h₂ : c.pos + 1 ≤ c₂.pos := hc₂.1
  have h₃ := hc₃.1
  omega

theorem declaration_ends {start : Nat} (hN : A.exact = true → Possible N)
    (hk : input.kind c.pos = .kwVar)
    (hc : A.Leaves input c.next (sepBy (Grammar.declarator X) * (tok .semicolon * N))) :
    (inner.declaration start).Ends input c (fun _ c' => c.pos < c'.pos ∧ A.Leaves input c' N)
      (A.Rejects input) := by
  have hlist := Reads.sepByComma h.declarator (fun _ => by simp [Grammar.declarator]) (by decide)
  refine ends_bind (ends_advance (by simp [hk]) ?_)
  refine ends_bind ((hlist.awaits (by decide) (by decide) hN hc).mono (fun _ c₁ hc₁ => ?_)
    fun _ _ h' => h')
  have hle : c.pos + 1 ≤ c₁.pos := hc₁.1
  exact ends_bind (hc₁.2.ends_expect (by decide) fun hc₂ =>
    ends_of_ok rfl ⟨by simp only [Cursor.next_pos, Cursor.note_pos]; omega, hc₂⟩)

omit h in
theorem jump_ends {start : Nat} (hN : A.exact = true → Possible N)
    (hk : input.kind c.pos ∈ [Kind.kwBreak, .kwContinue])
    (hc : A.Leaves input c.next (tok .semicolon * N)) :
    (Nested.jump start).Ends input c (fun _ c' => c.pos < c'.pos ∧ A.Leaves input c' N)
      (A.Rejects input) := by
  have hne : input.kind c.pos ≠ .endOfInput := fun he => by
    rw [he] at hk
    exact absurd hk (by decide)
  refine ends_bind (ends_advance hne ?_)
  exact ends_bind ((hc.awaits (by decide) hN).ends_expect (by decide) fun hc₂ =>
    ends_of_ok rfl ⟨by simp only [Cursor.next_pos, Cursor.note_pos]; omega, hc₂⟩)

theorem result_ends {start : Nat} (hN : A.exact = true → Possible N)
    (hk : input.kind c.pos = .kwReturn)
    (hc : A.Leaves input c.next (opt (X .expression) * (tok .semicolon * N))) :
    (inner.result start).Ends input c (fun _ c' => c.pos < c'.pos ∧ A.Leaves input c' N)
      (A.Rejects input) := by
  have hvalue : Reads A input (upTo .semicolon inner.expression) _ [] :=
    .upTo (by decide) (fun K => (h.regular.expression.mul K).avoids (by decide))
      fun _ _ hp hc => h.expression.reads.awaits (by decide) (by decide) hp hc
  refine ends_bind (ends_advance (by simp [hk]) ?_)
  rw [← mul_assoc] at hc
  refine ends_bind ((hvalue _ _ (fun _ _ _ => List.not_mem_nil) hN hc).mono (fun _ c₁ hc₁ => ?_)
    fun _ _ h' => h')
  have hle : c.pos + 1 ≤ c₁.pos := hc₁.1
  exact ends_of_ok rfl ⟨by omega, hc₁.2⟩

theorem evaluation_ends {start : Nat} (hN : A.exact = true → Possible N)
    (hY : Elsewhere input expressionStarts c Y)
    (hc : A.Leaves input c (X .expression * (tok .semicolon * N) + Y)) :
    (inner.evaluation start).Ends input c (fun _ c' => c.pos < c'.pos ∧ A.Leaves input c' N)
      (A.Rejects input) := by
  refine ends_bind (ends_of_ok (run_modify _) ?_)
  have hc' : A.Leaves input c.forgetCalls (X .expression * (tok .semicolon * N) + Y) :=
    hc.of_same rfl rfl ⟨hc.tidy.bounded, hc.tidy.frontier, hc.tidy.fresh⟩
  refine ends_bind ((h.expression c.forgetCalls _ _ (.tok_mul (by decide) _)
    (fun hA => by simp [hN hA]) hY hc').mono (fun _ c₁ hc₁ => ?_) fun _ _ h' => h')
  have hle : c.pos ≤ c₁.pos := hc₁.1
  refine ends_bind (ends_of_ok run_position (ends_bind ((hc₁.2.awaits (by decide) hN).ends_expect
    (by decide) fun hc₂ => ends_bind (ends_of_ok (run_wholeCall? _ _) ?_))))
  cases Option.bind _ _ with
  | none => exact ends_of_ok rfl ⟨by simp only [Cursor.next_pos, Cursor.note_pos]; omega, hc₂⟩
  | some call => exact ends_pure ⟨by simp only [Cursor.next_pos, Cursor.note_pos]; omega, hc₂⟩

/-- A statement with a mark of its own goes on as the mark says. -/
theorem marked_ends (hav : Avoids K [.kwElse]) (hK' : Starts K' [.kwElse])
    (hK : A.exact = true → Possible K) (hY : Avoids Y marks) (hk : input.kind c.pos ∈ marks)
    (hc : A.Leaves input c (marked X (K + K') (Grammar.body X * K + closedBody X * K')
      (afterIf X K K') + Y)) :
    (inner.statementFrom c.pos (input.kind c.pos)).Ends input c
      (fun _ c' => c.pos < c'.pos ∧ A.Leaves input c' (K + K')) (A.Rejects input) := by
  have hp : A.exact = true → Possible (K + K') := fun hA => by simp [hK hA]
  have hne : input.kind c.pos ≠ .endOfInput := fun he => by
    rw [he] at hk
    exact absurd hk (by decide)
  -- What is left behind the mark.
  have hquot := leftQuotient_add (marked X (K + K') (Grammar.body X * K + closedBody X * K')
    (afterIf X K K')) Y [input.token c.pos]
  rw [hY.leftQuotient hk, add_zero, leftQuotient_marked, ← Input.kind] at hquot
  have hnext := hc.next hne
  rw [hquot] at hnext
  generalize hkind : input.kind c.pos = k at hk hquot hnext ⊢
  simp only [marks, List.mem_cons, List.not_mem_nil, or_false] at hk
  obtain rfl | rfl | rfl | rfl | rfl | rfl | rfl | rfl := hk
  case _ =>
    exact ends_bind ((h.braced_ends hp (hc.awaits_here (by decide) hkind hquot fun hA => by
      simp [hK hA])).mono (fun _ _ hd => ends_pure hd) fun _ _ h' => h')
  case _ => exact ends_bind (ends_advance hne (ends_pure ⟨Nat.lt_succ_self _, hnext⟩))
  case _ => exact h.declaration_ends hp hkind hnext
  case _ => exact h.result_ends hp hkind hnext
  case _ => exact jump_ends hp (by simp [hkind]) hnext
  case _ => exact jump_ends hp (by simp [hkind]) hnext
  case _ =>
    exact h.loop_ends hav hK' hK (hc.awaits_here (by decide) hkind hquot fun hA => by
      simp [Grammar.condition, Grammar.body, block, h.possible hA, hK hA])
  case _ =>
    exact h.branch_ends hav hK' hK (hc.awaits_here (by decide) hkind hquot fun hA => by
      simp [Grammar.condition, afterIf, Grammar.body, block, h.possible hA, hK hA])

omit h in
theorem statementFrom_of_not_mem {start : Nat} {k : Kind} (hk : k ∉ marks) :
    inner.statementFrom start k = inner.evaluation start := by
  cases k
  case lbrace | semicolon | kwIf | kwWhile | kwVar | kwBreak | kwContinue | kwReturn =>
    exact absurd (by decide) hk
  all_goals rfl

/-- The parser's statements are those of the grammar. -/
theorem statementBody (hf : Fits A input d) :
    ReadsStatement A input inner.statementBody (Grammar.statement X) (closed d X) :=
  fun c K K' Y hav hK' hK hY hc => by
    have hnoted : A.Leaves input (c.noteAll statementStarts) _ := hc.noteAll fun hA k hk => by
      refine (h.begins_statement hK hA k hk).mono ?_
      rw [add_assoc]
      exact (mul_le_mul_left (h.regular.grows .statement) K).trans le_self_add
    have hnotes : ∀ ks ⊆ statementStarts, ∀ k ∈ ks, k ∈ noted (c.noteAll statementStarts) :=
      fun _ hs _ hk => (noted_noteAll hc.tidy _).2 (.inr (hs hk))
    refine ends_bind (ends_checkAny (ends_ite (fun hk => ?_) fun hk => ends_throw ?_))
    · have hk : input.kind c.pos ∈ statementStarts := of_decide_eq_true hk
      rw [statement_then hf.nearest, add_assoc] at hnoted
      refine ends_bind (ends_of_ok run_position (ends_bind (ends_of_ok run_currentKind ?_)))
      rw [← Cursor.noteAll_pos c statementStarts] at hk
      by_cases hm : input.kind (c.noteAll statementStarts).pos ∈ marks
      · refine (h.marked_ends hav hK' hK (.add ?_ (hY.avoids.mono (by decide))) hm hnoted).mono
          (fun _ _ hd => ?_) fun _ _ h' => h'
        · exact (h.regular.expression.mul _).avoids (by decide)
        · rwa [Cursor.noteAll_pos] at hd
      · rw [statementFrom_of_not_mem hm]
        have hY' : Elsewhere input expressionStarts (c.noteAll statementStarts) Y := by
          rw [Cursor.noteAll_pos] at hm
          have hrest := hY.others expressionStarts hm (by decide) (by decide)
          rwa [Elsewhere, Cursor.noteAll_pos]
        refine (h.evaluation_ends (fun hA => by simp [hK hA]) hY' (hnoted.drop (starts_marked _ _ _)
          (hnotes _ (by decide)) hm)).mono (fun _ _ hd => ?_) fun _ _ h' => h'
        rwa [Cursor.noteAll_pos] at hd
    · have hk : input.kind c.pos ∉ statementStarts := fun hm => hk (decide_eq_true hm)
      have hstatement := h.regular.toHeaded.statement'
      have hclosed := hstatement.of_le (closed_le_statement (d := d) h.regular.closed_le)
      rw [hY.eq_zero hk] at hnoted
      exact (hnoted.drop ((hstatement.mul K).add (hclosed.mul K'))
        (hnotes _ (List.Subset.refl _)) (by simpa using hk)).mismatch
        (hnotes [.semicolon] (by decide) _ (List.mem_singleton_self _))

/-! ## Programs -/

theorem parameters_ends (hp : A.exact = true → Possible K)
    (hc : A.Leaves input c (opt (sepBy (Grammar.parameter X)) * (tok .rparen * K))) :
    inner.parameters.Ends input c (fun _ c' => c.pos ≤ c'.pos ∧ A.Awaits input .rparen K c')
      (A.Rejects input) := by
  have hparameter : Possible (Grammar.parameter X) := by
    simp [Grammar.parameter, Grammar.declarator]
  have hlist := Reads.sepByComma h.parameter (fun _ => hparameter) (by decide)
  refine ends_unlessAt (by decide) ?_ hp
    (fun e he => hlist.awaits (by decide) (by decide) hp he) hc
  simp only [sepBy, Grammar.parameter, Grammar.declarator, mul_assoc]
  exact .opt_mul (.tok_mul (by decide) _) (.tok_mul (by decide) _)

/-- A program is read up to the end of input. -/
theorem program_ends (hc : A.Leaves input c (Grammar.program X)) :
    inner.program.Ends input c
      (fun _ c' => A.Leaves input c' (tok .endOfInput) ∧ input.kind c'.pos = .endOfInput)
      (A.Rejects input) := by
  have hnil : ∀ K : Language Token, Avoids K [] := fun _ _ _ _ => List.not_mem_nil
  unfold Grammar.program at hc
  refine ends_bind ((hc.awaits (by decide) fun _ => by simp [block]).ends_expect (by decide)
    fun hc₁ => ?_)
  refine ends_bind ((hc₁.awaits (by decide) fun _ => by simp [block]).ends_expect (by decide)
    fun hc₂ => ?_)
  refine ends_bind ((hc₂.awaits (by decide) fun _ => by simp [block]).ends_expect (by decide)
    fun hc₃ => ?_)
  refine ends_bind ((h.parameters_ends (fun _ => by simp [block]) hc₃).mono (fun _ c₄ hc₄ => ?_)
    fun _ _ h' => h')
  refine ends_bind (hc₄.2.ends_expect (by decide) fun hc₅ => ?_)
  rw [block, mul_assoc, mul_assoc] at hc₅
  refine ends_bind ((h.braced_ends (fun _ => by simp) (hc₅.awaits (by decide) fun _ =>
    by simp)).mono (fun _ c₆ hc₆ => ?_) fun _ _ h' => h')
  obtain ⟨-, hc₆⟩ := hc₆
  rw [← mul_one (tok .endOfInput)] at hc₆
  refine ends_bind ?_
  by_cases hk : input.kind c₆.pos = .endOfInput
  · rw [← add_zero (tok .endOfInput * 1)] at hc₆
    have hnoted := hc₆.noted_oneOf fun _ => possible_one
    rw [add_zero, mul_one] at hnoted
    exact ends_of_ok (run_expect_end hk) (ends_pure ⟨hnoted, hk⟩)
  · exact ends_of_error (run_expect_of_ne hk)
      (hc₆.mismatch_oneOf (List.cons_ne_nil _ _) (fun _ => possible_one) (by simpa using hk))

end Inner

end Botscript.Grammar
