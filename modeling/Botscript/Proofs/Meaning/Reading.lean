import Botscript.Proofs.Meaning.Calls

/-!
# Reading what tokens denote

A step `Gives` an answer if it reads some tokens to their end and answers that. In front of tokens
that denote an item, the predictive parser gives this item (`givesAll_statement`). A statement must
not have an `else` behind it that it could take for its own (`Unclaimed`).
-/

namespace Botscript.Parse

open Computability Token Grammar ParseM

/-! ## Cursors in front of tokens -/

/-- A cursor in front of some tokens, which are all that are left. -/
structure Cursor.Before (input : Input) (w : List Token) (c : Cursor) : Prop
    extends c.Sound input where
  drop : input.tokens.toList.drop c.pos = w

/-- A step answers something, and some tokens are left. -/
def Gives {α : Type} (input : Input) (m : ParseM α) (c : Cursor) (a : α) (v : List Token) : Prop :=
  ∃ d, m.run input c = .ok a d ∧ d.Before input v

variable {α β : Type} {input : Input} {c d : Cursor} {t : Token} {u v w : List Token} {k : Kind}
  {m : ParseM α} {f : α → ParseM β} {a : α} {b : β}

namespace Cursor.Before

theorem token (h : c.Before input (t :: v)) : input.token c.pos = t :=
  Input.token_of_drop (w := []) h.drop

theorem kind (h : c.Before input (t :: v)) : input.kind c.pos = t.kind :=
  congrArg Token.kind h.token

theorem note (h : c.Before input w) (k : Kind) : (c.note k).Before input w :=
  ⟨h.toSound.note k, h.drop⟩

theorem noteAll (h : c.Before input w) (ks : List Kind) : (c.noteAll ks).Before input w :=
  ⟨h.toSound.noteAll ks, by rw [noteAll_pos]; exact h.drop⟩

theorem next (h : c.Before input (t :: v)) (he : t.kind ≠ .endOfInput) (hd : t.kind ≠ .dot) :
    c.next.Before input v := by
  refine ⟨h.toSound.next (h.kind ▸ he) (h.kind ▸ hd), ?_⟩
  exact Input.drop_of_drop (w := [t]) h.drop

/-- What was read lies between the cursors. -/
theorem pos_eq (h : c.Before input (u ++ v)) (hd : d.Before input v) :
    d.pos = c.pos + u.length := by
  have hlength := congrArg List.length h.drop
  have hlength' := congrArg List.length hd.drop
  rw [List.length_drop, Array.length_toList, List.length_append] at hlength
  rw [List.length_drop, Array.length_toList] at hlength'
  have hc := h.tidy.bounded
  have hd := hd.tidy.bounded
  omega

theorem span_eq (h : c.Before input (u ++ v)) (hd : d.Before input v) :
    input.span c.pos d.pos = u := by
  rw [h.pos_eq hd, Input.span_of_drop h.drop]

end Cursor.Before

/-! ## Steps -/

theorem gives_pure (h : c.Before input v) (a : α) : Gives input (pure a) c a v := ⟨c, rfl, h⟩

theorem Gives.bind (h : Gives input m c a v)
    (hf : ∀ d, d.Before input v → Gives input (f a) d b w) : Gives input (m >>= f) c b w := by
  obtain ⟨d, hrun, hd⟩ := h
  obtain ⟨e, hrun', he⟩ := hf d hd
  exact ⟨e, (run_bind_of_ok hrun).trans hrun', he⟩

theorem Gives.map (h : Gives input m c a v) (f : α → β) : Gives input (f <$> m) c (f a) v := by
  rw [map_eq_pure_bind]
  exact h.bind fun d hd => gives_pure hd _

/-- A step that does not move, in front of another. -/
theorem gives_bind_of_run (hm : m.run input c = .ok a d) (h : Gives input (f a) d b w) :
    Gives input (m >>= f) c b w := by
  obtain ⟨e, hrun, he⟩ := h
  exact ⟨e, (run_bind_of_ok hm).trans hrun, he⟩

theorem gives_advance (h : c.Before input (t :: v)) (he : t.kind ≠ .endOfInput)
    (hd : t.kind ≠ .dot) : Gives input advance c () v :=
  ⟨_, run_advance (h.kind ▸ he), h.next he hd⟩

theorem gives_check (h : c.Before input (t :: v)) (k : Kind) :
    Gives input (check k) c (decide (t.kind = k)) (t :: v) :=
  ⟨_, by rw [run_check, h.kind], h.note k⟩

theorem gives_checkAny (h : c.Before input (t :: v)) (ks : List Kind) :
    Gives input (checkAny ks) c (decide (t.kind ∈ ks)) (t :: v) :=
  ⟨_, by rw [run_checkAny, h.kind], h.noteAll ks⟩

theorem gives_eat (h : c.Before input (t :: v)) (hk : t.kind = k) (he : k ≠ .endOfInput)
    (hd : k ≠ .dot) : Gives input (eat k) c true v :=
  ⟨_, run_eat_of_eq (h.kind.trans hk) he, (h.note k).next (hk ▸ he) (hk ▸ hd)⟩

theorem gives_eat_of_ne (h : c.Before input (t :: v)) (hk : t.kind ≠ k) :
    Gives input (eat k) c false (t :: v) :=
  ⟨_, run_eat_of_ne (h.kind ▸ hk), h.note k⟩

theorem gives_expect (h : c.Before input (t :: v)) (hk : t.kind = k) (he : k ≠ .endOfInput)
    (hd : k ≠ .dot) : Gives input (expect k) c t v :=
  ⟨_, by rw [run_expect_of_eq (h.kind.trans hk) he, h.token], (h.note k).next (hk ▸ he) (hk ▸ hd)⟩

/-- A word that a step reads is read to its end. -/
theorem gives_of_reads {T : Twins input input Eq} {R : α → α → Prop} {L : Language Token}
    {ks : List Kind} (hm : ReadsAll input m L ks) (halike : T.Alike R m m) (hu : u ∈ L)
    (ht : t.kind ∉ ks) (h : c.Before input (u ++ t :: v)) : ∃ a, Gives input m c a (t :: v) := by
  obtain ⟨a, d, hrun, hpos, hd⟩ := exists_sound_run hm halike h.toSound hu h.drop ht
  exact ⟨a, d, hrun, hd, by rw [hpos, Input.drop_of_drop h.drop]⟩

theorem gives_textFrom (h : c.Before input (u ++ v)) (hd : d.Before input v) :
    Gives input (textFrom c.pos) d (spanText u) v :=
  ⟨d, by rw [← h.span_eq hd]; rfl, hd⟩

theorem gives_plainFrom (h : c.Before input (u ++ v)) (hd : d.Before input v) :
    Gives input (plainFrom c.pos) d (.plain (statementText u)) v :=
  ⟨d, by rw [← h.span_eq hd]; rfl, hd⟩

/-! ## Loops -/

/-- What holds behind the last of some words, and is kept in front of each, holds in front of all of
them. -/
theorem sequence_append {R : List Token → α → Prop} {as : List α} {P : List Token → Prop}
    (hP : ∀ u a v, R u a → P v → P (u ++ v)) (h : Sequence R w as) (hv : P v) : P (w ++ v) := by
  induction h with
  | nil => exact hv
  | cons ha _ ih =>
    rw [List.append_assoc]
    exact hP _ _ _ ha ih

theorem length_le_of_sequence {R : List Token → α → Prop} {as : List α}
    (hne : ∀ u a, R u a → u ≠ []) (h : Sequence R w as) : as.length ≤ w.length := by
  induction h with
  | nil => exact le_rfl
  | cons ha _ ih =>
    have hpos := List.length_pos_of_ne_nil (hne _ _ ha)
    rw [List.length_cons, List.length_append]
    omega

/-- A loop answers what some words denote, one after another. -/
theorem gives_many {step : ParseM (Option α)} {R : List Token → α → Prop} {as : List α}
    {P : List Token → Prop} (hne : ∀ u a, R u a → u ≠ [])
    (hP : ∀ u a v, R u a → P v → P (u ++ v))
    (hsome : ∀ u a v c, R u a → P v → c.Before input (u ++ v) → Gives input step c (some a) v)
    (hnone : ∀ c, c.Before input v → Gives input step c none v) (hseq : Sequence R w as)
    (hv : P v) (h : c.Before input (w ++ v)) : Gives input (many step) c as v := by
  have hbound : ∀ bound, as.length < bound → Gives input (manyUpTo step bound) c as v := by
    induction hseq generalizing c with
    | nil =>
      intro bound hbound
      obtain ⟨bound, rfl⟩ := Nat.exists_eq_succ_of_ne_zero (Nat.ne_of_gt hbound)
      exact (hnone c h).bind fun d hd => gives_pure hd _
    | cons ha hrest ih =>
      intro bound hbound
      obtain ⟨bound, rfl⟩ := Nat.exists_eq_succ_of_ne_zero (Nat.ne_zero_of_lt hbound)
      rw [List.append_assoc] at h
      refine (hsome _ _ _ c ha (sequence_append hP hrest hv) h).bind fun d hd => ?_
      exact (ih hd bound (Nat.lt_of_succ_lt_succ hbound)).bind fun e he => gives_pure he _
  obtain ⟨d, hrun, hd⟩ := hbound (input.tokens.size + 1) (by
    have hlength := congrArg List.length h.drop
    rw [List.length_drop, Array.length_toList, List.length_append] at hlength
    have hle := length_le_of_sequence hne hseq
    omega)
  exact ⟨d, (run_many step).trans hrun, hd⟩

/-! ## What items are like -/

/-- What holds of the statements of a program: they begin as statements do, a plain one has some
text, and a command is no procedure. -/
structure Orderly (M : Denotation) : Prop where
  starts : ∀ closed w item, M closed w item → ∃ t v, w = t :: v ∧ t.kind ∈ statementStarts
  fair : ∀ closed w item, M closed w item → item.Fair

section Orderly

variable {texts : List Token → String} {registry : Registry} {X : Forms} {inner : Denotation}

theorem starts_plainStatement (hX : Regular (dialect registry) X) :
    Starts (plainStatement (dialect registry) X) statementStarts := by
  refine .add (.add (.add ?_ ?_) ?_) ?_
  · exact .mul (.tok (by decide)) _
  · exact .mul (.tok (by decide)) _
  · exact .mul (.oneOf (by decide)) _
  · exact fun w hw => ((hX.expression.mul (tok .semicolon)).mono (by decide)) w hw.1

theorem orderly_denotes (hX : Regular (dialect registry) X) :
    Orderly (Denotes texts registry X inner) where
  starts closed w item h := by
    cases h with
    | empty ht => exact ⟨_, _, rfl, ht ▸ by decide⟩
    | plain hw => exact starts_plainStatement hX w hw
    | call hw hname => exact ⟨_, _, rfl, hname ▸ by decide⟩
    | block hb =>
      obtain ⟨hl, -, -⟩ := hb
      exact ⟨_, _, rfl, hl ▸ by decide⟩
    | loop hk => exact ⟨_, _, rfl, hk ▸ by decide⟩
    | oneWay hk => exact ⟨_, _, rfl, hk ▸ by decide⟩
    | twoWay hk => exact ⟨_, _, rfl, hk ▸ by decide⟩
  fair closed w item h := by
    cases h with
    | empty => trivial
    | plain =>
      intro he
      simpa using congrArg String.toList he
    | call | block | loop | oneWay | twoWay => exact fun _ he => by cases he

end Orderly

theorem orderly_meaning (texts : List Token → String) (registry : Registry) : ∀ levels,
    Orderly (Meaning texts registry levels)
  | 0 => ⟨fun _ _ _ h => h.elim, fun _ _ _ h => h.elim⟩
  | levels + 1 => orderly_denotes (regular_limited levels)

/-! ## Statements -/

/-- What is left behind a statement: some token, which is no `else` if the statement could take
one. -/
def Unclaimed (closed : Bool) (v : List Token) : Prop :=
  ∃ t u, v = t :: u ∧ (closed = false → t.kind ≠ .kwElse)

/-- In front of tokens that denote an item, a step gives this item. -/
def GivesAll (input : Input) (m : ParseM Item) (M : Denotation) : Prop :=
  ∀ closed w item v c, M closed w item → Unclaimed closed v → c.Before input (w ++ v) →
    Gives input m c item v

theorem unclaimed_cons (closed : Bool) (ht : t.kind ≠ .kwElse) : Unclaimed closed (t :: v) :=
  ⟨t, v, rfl, fun _ => ht⟩

theorem Orderly.unclaimed_append {M : Denotation} (hM : Orderly M) {closed : Bool} {item : Item}
    (h : M closed w item) (v : List Token) : Unclaimed false (w ++ v) := by
  obtain ⟨t, u, rfl, ht⟩ := hM.starts _ _ _ h
  exact unclaimed_cons false fun he => absurd (he ▸ ht) (by decide)

section Statements

variable {inner : Nested} {M : Denotation} {closed : Bool} {item : Item} {body : Block}
  (hM : Orderly M) (hgives : GivesAll input inner.statement M)

theorem gives_nextStatement_none (h : c.Before input (t :: v)) (ht : t.kind = .rbrace) :
    Gives input inner.nextStatement? c none (t :: v) := by
  refine (gives_checkAny h _).bind fun d hd => ?_
  rw [decide_eq_false (by rw [ht]; decide), if_neg Bool.false_ne_true]
  exact gives_pure hd _

include hM hgives

theorem gives_nextStatement (hitem : M false u item) (hv : Unclaimed false v)
    (h : c.Before input (u ++ v)) : Gives input inner.nextStatement? c (some item) v := by
  obtain ⟨t, u', rfl, ht⟩ := hM.starts _ _ _ hitem
  refine (gives_checkAny h _).bind fun d hd => ?_
  rw [decide_eq_true ht, if_pos rfl]
  exact (hgives _ _ _ _ d hitem hv hd).map some

theorem gives_braced (hbody : Braced M w body) (h : c.Before input (w ++ v)) :
    Gives input inner.braced c body v := by
  obtain ⟨hl, hseq, hr⟩ := hbody
  rename_i l r u items
  have hne : ∀ u item, M false u item → u ≠ [] := fun u item hitem => by
    obtain ⟨t, u, rfl, -⟩ := hM.starts _ _ _ hitem
    exact List.cons_ne_nil _ _
  have hfair : ∀ item ∈ items, item.Fair := by
    clear h
    induction hseq with
    | nil => exact fun _ hi => absurd hi List.not_mem_nil
    | cons hitem _ ih => exact List.forall_mem_cons.2 ⟨hM.fair _ _ _ hitem, ih⟩
  rw [List.cons_append, List.append_assoc] at h
  refine (gives_expect h hl (by decide) (by decide)).bind fun d hd => ?_
  refine (gives_many hne (fun _ _ v hitem _ => hM.unclaimed_append hitem v)
    (fun _ _ _ _ hitem hv hc => gives_nextStatement hM hgives hitem hv hc)
    (fun _ hc => gives_nextStatement_none hc hr) hseq
    (unclaimed_cons false (by rw [hr]; decide)) hd).bind fun e he => ?_
  refine (gives_expect he hr (by decide) (by decide)).bind fun e' he' => ?_
  rw [block_eq_gather hfair]
  exact gives_pure he' _

theorem gives_body (hbody : Body M closed w body) (hv : Unclaimed closed v)
    (h : c.Before input (w ++ v)) : Gives input inner.body c body v := by
  cases hbody with
  | braced hb =>
    obtain ⟨hl, hseq, hr⟩ := id hb
    refine (gives_check h _).bind fun d hd => ?_
    rw [decide_eq_true hl, if_pos rfl]
    exact gives_braced hM hgives hb hd
  | single ht hitem =>
    refine (gives_check h _).bind fun d hd => ?_
    rw [decide_eq_false ht, if_neg Bool.false_ne_true]
    refine (hgives _ _ _ _ d hitem hv hd).bind fun e he => ?_
    rw [block_eq_gather (List.forall_mem_singleton.2 (hM.fair _ _ _ hitem))]
    exact gives_pure he _

theorem gives_elseBody (ht : t.kind = .kwElse) (hbody : Body M closed w body)
    (hv : Unclaimed closed v) (h : c.Before input (t :: (w ++ v))) :
    Gives input inner.elseBody c body v := by
  refine (gives_eat h ht (by decide) (by decide)).bind fun d hd => ?_
  rw [if_pos rfl]
  exact gives_body hM hgives hbody hv hd

omit hM hgives in
theorem gives_elseBody_nil (hv : Unclaimed false v) (h : c.Before input v) :
    Gives input inner.elseBody c [] v := by
  obtain ⟨t, u, rfl, ht⟩ := hv
  refine (gives_eat_of_ne h (ht rfl)).bind fun d hd => ?_
  rw [if_neg Bool.false_ne_true]
  exact gives_pure hd _

end Statements

/-! ## Texts -/

section Texts

variable {levels : Nat} (he : Ended input.tokens.toList) (hr : input.remembers = true)

include he hr

theorem gives_expression (hu : u ∈ limited (dialect input.registry) levels .expression)
    (ht : t.kind ∉ behindExpression) (h : c.Before input (u ++ t :: v)) :
    Gives input (Nested.predictive levels).expression c () (t :: v) :=
  (gives_of_reads (fun _ hA => (inner_predictive hr hA levels).expression.reads)
    ((Twins.self he hr).inner_predictive levels).expression hu ht h).elim fun _ h => h

theorem gives_init (hu : u ∈ limited (dialect input.registry) levels .init)
    (ht : t.kind ∉ behindExpression) (h : c.Before input (u ++ t :: v)) :
    Gives input (Nested.predictive levels).init c () (t :: v) :=
  (gives_of_reads (fun _ hA => (inner_predictive hr hA levels).init)
    ((Twins.self he hr).inner_predictive levels).init hu ht h).elim fun _ h => h

theorem gives_condition {text : String}
    (hcond : Condition (limited (dialect input.registry) levels) w text)
    (h : c.Before input (w ++ v)) :
    Gives input (Nested.predictive levels).condition c text v := by
  obtain ⟨hl, hu, hright⟩ := hcond
  rw [List.cons_append, List.append_assoc] at h
  rw [← spanText_eq]
  refine (gives_expect h hl (by decide) (by decide)).bind fun d hd => ?_
  refine gives_bind_of_run run_position ?_
  refine (gives_expression he hr hu (by rw [hright]; decide) hd).bind fun e he' => ?_
  refine (gives_textFrom hd he').bind fun e' he' => ?_
  exact (gives_expect he' hright (by decide) (by decide)).bind fun _ h => gives_pure h _

theorem gives_declaration (ht : t.kind = .kwVar)
    (hw : w ∈ sepBy (declarator (limited (dialect input.registry) levels)) * tok .semicolon)
    (h : c.Before input (t :: w ++ v)) : Gives input ((Nested.predictive levels).declaration c.pos)
      c (.plain (statementText (t :: w))) v := by
  obtain ⟨u, hu, _, hlast, rfl⟩ := hw
  obtain ⟨s, rfl, hs⟩ := mem_tok.1 hlast
  have hreads : ReadsAll input (sepByComma (Nested.predictive levels).declarator) _
      (.comma :: behindExpression) := fun A hA =>
    .sepByComma (inner_predictive hr hA levels).declarator (fun hA' => by simp [hA] at hA')
      (by decide)
  have halike := ((Twins.self he hr).inner_predictive levels).declarator
  have hsplit := h
  rw [List.cons_append, List.append_assoc] at hsplit
  refine (gives_advance hsplit (by simp [ht]) (by simp [ht])).bind fun d hd => ?_
  obtain ⟨params, hparams⟩ := gives_of_reads hreads (Twins.Alike.sepByComma halike) hu
    (by rw [hs]; decide) hd
  refine hparams.bind fun e he => ?_
  exact (gives_expect he hs (by decide) (by decide)).bind fun _ h' => gives_plainFrom h h'

theorem gives_result (ht : t.kind = .kwReturn)
    (hw : w ∈ opt (limited (dialect input.registry) levels .expression) * tok .semicolon)
    (hv : v ≠ []) (h : c.Before input (t :: w ++ v)) :
    Gives input ((Nested.predictive levels).result c.pos) c
      (.plain (statementText (t :: w))) v := by
  obtain ⟨t', v, rfl⟩ := List.exists_cons_of_ne_nil hv
  have hreads : ReadsAll input (upTo .semicolon (Nested.predictive levels).expression)
      (opt (limited (dialect input.registry) levels .expression) * tok .semicolon) [] :=
    fun A hA => by
      have hi := inner_predictive hr hA levels
      exact .upTo (by decide) (fun K => (hi.regular.expression.mul K).avoids (by decide))
        fun _ _ hp hc => hi.expression.reads.awaits (by decide) (by decide) hp hc
  have halike := ((Twins.self he hr).inner_predictive levels).expression
  refine (gives_advance h (by simp [ht]) (by simp [ht])).bind fun d hd => ?_
  obtain ⟨stop, hstop⟩ := gives_of_reads hreads (.upTo (by decide) halike) hw List.not_mem_nil hd
  exact hstop.bind fun _ h' => gives_plainFrom h h'

omit he hr in
theorem gives_jump (ht : t.kind ∈ [Kind.kwBreak, .kwContinue]) (hw : w ∈ tok .semicolon)
    (h : c.Before input (t :: w ++ v)) :
    Gives input (Nested.jump c.pos) c (.plain (statementText (t :: w))) v := by
  obtain ⟨s, rfl, hs⟩ := mem_tok.1 hw
  have hne : ∀ k, k ∉ [Kind.kwBreak, .kwContinue] → t.kind ≠ k := fun k hk hk' => hk (hk' ▸ ht)
  refine (gives_advance h (hne _ (by decide)) (hne _ (by decide))).bind fun d hd => ?_
  exact (gives_expect hd hs (by decide) (by decide)).bind fun _ h' => gives_plainFrom h h'

theorem gives_evaluation (hw : w ∈ otherEvaluation (dialect input.registry)
      (limited (dialect input.registry) levels)) (hv : v ≠ []) (h : c.Before input (w ++ v)) :
    Gives input ((Nested.predictive levels).evaluation c.pos) c (.plain (statementText w)) v := by
  obtain ⟨t, v, rfl⟩ := List.exists_cons_of_ne_nil hv
  obtain ⟨d, hrun, hpos, hd⟩ := run_evaluation_plain he hr h.toSound hw h.drop
  exact ⟨d, hrun, hd, by rw [hpos, Input.drop_of_drop h.drop]⟩

/-- Declarations, jumps, and expressions that are no whole calls are kept as text. -/
theorem gives_plain (hw : t :: w ∈ plainStatement (dialect input.registry)
      (limited (dialect input.registry) levels)) (hv : v ≠ [])
    (h : c.Before input (t :: w ++ v)) :
    Gives input ((Nested.predictive levels).statementFrom c.pos t.kind) c
      (.plain (statementText (t :: w))) v := by
  obtain ((hw | hw) | hw) | hw := hw
  · obtain ⟨ht, hw⟩ := cons_mem_oneOf_mul.1 hw
    rw [List.mem_singleton.1 ht]
    exact gives_declaration he hr (List.mem_singleton.1 ht) hw h
  · obtain ⟨ht, hw⟩ := cons_mem_oneOf_mul.1 hw
    rw [List.mem_singleton.1 ht]
    exact gives_result he hr (List.mem_singleton.1 ht) hw hv h
  · obtain ⟨ht, hw⟩ := cons_mem_oneOf_mul.1 hw
    have hjump := gives_jump ht hw h
    obtain hk | hk := List.mem_pair.1 ht
    · rwa [hk]
    · rwa [hk]
  · have hstarts := (regular_limited (d := dialect input.registry) levels).expression.mul
      (tok .semicolon) _ hw.1
    obtain ⟨t', w', he', ht⟩ := hstarts
    obtain ⟨rfl, rfl⟩ := List.cons.inj he'
    rw [Inner.statementFrom_of_not_mem fun hm =>
      (by decide : ∀ k ∈ expressionStarts, k ∉ marks) _ ht hm]
    exact gives_evaluation he hr hw hv h

variable {source : String} (hsource : input.source = source.toList)

include hsource

theorem gives_call {name opening closing semicolon : Token} {args : List Token} {make : Factory}
    (hw : name :: opening :: (args ++ [closing, semicolon]) ∈
      evaluation (limited (dialect input.registry) levels))
    (hname : name.kind = .identifier) (hopening : opening.kind = .lparen)
    (hargs : args ∈ opt (sepBy (sentences (dialect input.registry) .expression)))
    (hclosing : closing.kind = .rparen) (hmake : input.registry name.image = some make)
    (hv : v ≠ [])
    (h : c.Before input (name :: opening :: (args ++ [closing, semicolon]) ++ v)) :
    Gives input ((Nested.predictive levels).evaluation c.pos) c
      (.command (.call (make (sourceText source args)))) v := by
  obtain ⟨t, v, rfl⟩ := List.exists_cons_of_ne_nil hv
  obtain ⟨d, hrun, hpos, hd⟩ := run_evaluation_call he hr h.toSound hsource hw hname hopening
    hargs hclosing hmake h.drop
  exact ⟨d, hrun, hd, by rw [hpos, Input.drop_of_drop h.drop]⟩

/-- A statement is read as it is denoted, if the statements inside are. -/
theorem gives_statementFrom {M : Denotation} {closed : Bool} {item : Item} (hM : Orderly M)
    (hgives : GivesAll input (Nested.predictive levels).statement M)
    (hitem : Denotes (sourceText source) input.registry
      (limited (dialect input.registry) levels) M closed (t :: w) item)
    (hv : Unclaimed closed v) (h : c.Before input (t :: w ++ v)) :
    Gives input ((Nested.predictive levels).statementFrom c.pos t.kind) c item v := by
  have hne : v ≠ [] := by
    obtain ⟨t', u, rfl, -⟩ := hv
    exact List.cons_ne_nil _ _
  cases hitem with
  | empty ht =>
    rw [ht]
    exact (gives_advance h (by simp [ht]) (by simp [ht])).bind fun d hd => gives_pure hd _
  | plain hw =>
    rw [← statementText_eq hw]
    exact gives_plain he hr hw hne h
  | call hw hname hopening hargs hclosing hmake =>
    rw [hname]
    exact gives_call he hr hsource hw hname hopening hargs hclosing hmake hne h
  | block hb =>
    have hbraced := gives_braced hM hgives hb h
    obtain ⟨hl, -, -⟩ := hb
    rw [hl]
    exact hbraced.bind fun d hd => gives_pure hd _
  | loop hk hcond hbody =>
    rw [hk]
    rw [List.cons_append, List.append_assoc] at h
    refine (gives_expect h hk (by decide) (by decide)).bind fun d hd => ?_
    refine (gives_condition he hr hcond hd).bind fun e he => ?_
    refine (gives_body hM hgives hbody hv he).bind fun e' he' => gives_pure he' _
  | oneWay hk hcond hbody =>
    rw [hk]
    rw [List.cons_append, List.append_assoc] at h
    refine (gives_expect h hk (by decide) (by decide)).bind fun d hd => ?_
    refine (gives_condition he hr hcond hd).bind fun e he => ?_
    refine (gives_body hM hgives hbody hv he).bind fun e' he' => ?_
    exact (gives_elseBody_nil hv he').bind fun e' he' => gives_pure he' _
  | twoWay hk hcond hthen ho helse =>
    rw [hk]
    rw [List.cons_append, List.append_assoc, List.append_assoc] at h
    refine (gives_expect h hk (by decide) (by decide)).bind fun d hd => ?_
    refine (gives_condition he hr hcond hd).bind fun e he => ?_
    refine (gives_body hM hgives hthen ⟨_, _, rfl, nofun⟩ he).bind fun e' he' => ?_
    exact (gives_elseBody hM hgives ho helse hv he').bind fun e' he' => gives_pure he' _

theorem givesAll_statementBody {M : Denotation} (hM : Orderly M)
    (hgives : GivesAll input (Nested.predictive levels).statement M) :
    GivesAll input (Nested.predictive levels).statementBody (Denotes (sourceText source)
      input.registry (limited (dialect input.registry) levels) M) := by
  intro closed w item v c hitem hv h
  obtain ⟨t, w, rfl, ht⟩ := (orderly_denotes (regular_limited levels)).starts _ _ _ hitem
  refine (gives_checkAny h _).bind fun d hd => ?_
  rw [decide_eq_true ht, if_pos rfl]
  refine gives_bind_of_run run_position (gives_bind_of_run run_currentKind ?_)
  rw [hd.kind]
  exact gives_statementFrom he hr hsource hM hgives hitem hv hd

/-- At each depth, the predictive parser gives the items that tokens denote. -/
theorem givesAll_statement : ∀ levels, GivesAll input (Nested.predictive levels).statement
    (Meaning (sourceText source) input.registry levels)
  | 0 => fun _ _ _ _ _ h => h.elim
  | levels + 1 => givesAll_statementBody he hr hsource (orderly_meaning _ _ levels)
      (givesAll_statement levels)

end Texts

end Botscript.Parse
