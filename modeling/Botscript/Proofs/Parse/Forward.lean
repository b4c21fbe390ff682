import Botscript.Proofs.Parse.Frontier
import Botscript.Proofs.Parse.Predictive
import Botscript.Proofs.Parse.Run

/-!
# Moving forward

The predictive parser never goes back. At a `Tidy` cursor no token from the current one on was
looked at by an attempt before, and `Forward` steps keep it tidy, so that the memory never knows
the primary that is about to be read (`run_primary`). The lemmas of `Nested.Forward` are one for
each production.
-/

namespace Botscript.Parse

open Token ParseM

/-! ## Tidy cursors -/

/-- No token from the current one on has been read as a primary, and none behind it was looked
at. -/
structure Cursor.Tidy (input : Input) (c : Cursor) : Prop where
  bounded : c.pos ≤ input.tokens.size
  frontier : c.frontier.pos ≤ c.pos
  fresh : ∀ s, c.pos ≤ s → c.memory[s]? = none

/-- A run has led from one state to another without going back; the calls in `base` are kept. -/
structure Cursor.Leads (base : List CallSite) (c c' : Cursor) : Prop where
  pos : c.pos ≤ c'.pos
  frontier : c.frontier ≤ c'.frontier
  memory : ∀ s, s < c.pos → c'.memory[s]? = c.memory[s]?
  calls : base <+: c.calls → base <+: c'.calls

namespace Cursor

variable {input : Input} {base : List CallSite} {c c₁ c₂ : Cursor}

@[refl] theorem Leads.refl (c : Cursor) : c.Leads base c :=
  ⟨le_rfl, le_rfl, fun _ _ => rfl, id⟩

theorem Leads.trans (h : c.Leads base c₁) (h' : c₁.Leads base c₂) : c.Leads base c₂ :=
  ⟨h.pos.trans h'.pos, h.frontier.trans h'.frontier,
    fun s hs => (h'.memory s (hs.trans_le h.pos)).trans (h.memory s hs), h'.calls ∘ h.calls⟩

theorem frontier_le_note (c : Cursor) (k : Kind) : c.frontier ≤ (c.note k).frontier := by
  rw [note, Frontier.note_eq_sup]
  exact le_sup_left

theorem leads_note (c : Cursor) (k : Kind) : c.Leads base (c.note k) :=
  ⟨le_rfl, c.frontier_le_note k, fun _ _ => rfl, id⟩

theorem frontier_le_noteAll (c : Cursor) (ks : List Kind) :
    c.frontier ≤ (c.noteAll ks).frontier := by
  induction ks generalizing c with
  | nil => rfl
  | cons k ks ih => exact (frontier_le_note c k).trans (ih _)

theorem leads_noteAll (c : Cursor) (ks : List Kind) : c.Leads base (c.noteAll ks) := by
  induction ks generalizing c with
  | nil => rfl
  | cons k ks ih => exact (leads_note c k).trans (ih _)

theorem frontier_noteAll (c : Cursor) (ks : List Kind) :
    (c.noteAll ks).frontier = c.frontier ⊔ .all c.pos ks := by
  induction ks generalizing c with
  | nil => exact (sup_bot_eq _).symm
  | cons k ks ih => rw [noteAll_cons, ih, note, Frontier.note_eq_sup, sup_assoc]; rfl

theorem leads_next (c : Cursor) : c.Leads base c.next :=
  ⟨Nat.le_succ _, le_rfl, fun _ _ => rfl, id⟩

theorem Leads.next (h : c.Leads base c₁) (hp : c₁.pos = c.pos) (hm : c₁.memory = c.memory) :
    c.next.Leads base c₁.next :=
  ⟨by simp [hp], h.frontier, fun s _ => by simp [hm], h.calls⟩

theorem Tidy.note (h : c.Tidy input) (k : Kind) : (c.note k).Tidy input :=
  ⟨h.bounded, by simpa [Cursor.note, Frontier.note_eq_sup] using h.frontier, h.fresh⟩

theorem Tidy.noteAll (h : c.Tidy input) (ks : List Kind) : (c.noteAll ks).Tidy input := by
  induction ks generalizing c with
  | nil => exact h
  | cons k ks ih => exact ih (h.note k)

/-- Behind the tokens there is only the end of input. -/
theorem kind_of_size_le {i : Nat} (h : input.tokens.size ≤ i) : input.kind i = .endOfInput := by
  unfold Input.kind Input.token
  rw [Array.getElem?_eq_none h]
  unfold Input.ending
  cases hl : input.tokens.back? with
  | none => rfl
  | some last =>
    dsimp only
    split_ifs with hk
    · exact hk
    · rfl

theorem lt_size_of_kind (h : input.kind c.pos ≠ .endOfInput) : c.pos < input.tokens.size :=
  Nat.lt_of_not_le fun hle => h (kind_of_size_le hle)

theorem Tidy.next (h : c.Tidy input) (hk : input.kind c.pos ≠ .endOfInput) :
    c.next.Tidy input :=
  ⟨lt_size_of_kind hk, h.frontier.trans (Nat.le_succ _),
    fun s hs => h.fresh s ((Nat.le_succ _).trans hs)⟩

theorem getElem?_remember (c before : Cursor) (s : Nat) :
    (c.remember before).memory[s]? = if s = before.pos
      then some ⟨c.pos, c.calls.drop before.calls.length⟩ else c.memory[s]? := by
  simp only [remember, Std.TreeMap.getElem?_insert, compare_eq_iff_eq, @eq_comm _ before.pos]

theorem Tidy.remember {before : Cursor} (h : c.Tidy input) (hlt : before.pos < c.pos) :
    (c.remember before).Tidy input :=
  ⟨h.bounded, h.frontier, fun s hs => by
    rw [getElem?_remember, if_neg (hlt.trans_le hs).ne']
    exact h.fresh s hs⟩

end Cursor

namespace ParseM

variable {α β : Type} {base : List CallSite} {input : Input} {c : Cursor}

/-- A step that moves forward only. -/
def Forward (base : List CallSite) (m : ParseM α) : Prop :=
  ∀ (input : Input) (c : Cursor), input.remembers = true → c.Tidy input →
    m.Ends input c (fun _ c' => c.Leads base c' ∧ c'.Tidy input) fun _ c' => c.Leads base c'

namespace Forward

theorem of_still {m : ParseM α} (h : ∀ input c, ∃ a, m.run input c = .ok a c) : m.Forward base :=
  fun input c _ ht => by
    obtain ⟨a, ha⟩ := h input c
    exact ends_of_ok ha ⟨.refl c, ht⟩

theorem pure (a : α) : (Pure.pure a : ParseM α).Forward base := of_still fun _ _ => ⟨a, rfl⟩

theorem throw (e : Failure) : (MonadExcept.throw e : ParseM α).Forward base :=
  fun _ c _ _ => ends_throw (.refl c)

theorem bind {m : ParseM α} {f : α → ParseM β} (hm : m.Forward base)
    (hf : ∀ a, (f a).Forward base) :
    (m >>= f).Forward base := fun input c hr ht => by
  refine ends_bind ((hm input c hr ht).mono (fun a c₁ h => ?_) fun _ _ h => h)
  exact (hf a input c₁ hr h.2).mono (fun _ _ h' => ⟨h.1.trans h'.1, h'.2⟩)
    fun _ _ h' => h.1.trans h'

theorem map {m : ParseM α} (f : α → β) (hm : m.Forward base) : (f <$> m).Forward base :=
  fun input c hr ht => ends_map (hm input c hr ht)

theorem ite {p : Prop} [Decidable p] {m m' : ParseM α} (hm : m.Forward base)
    (hm' : m'.Forward base) :
    (if p then m else m').Forward base := by split_ifs <;> assumption

theorem modifying {f : Cursor → Cursor} (hp : ∀ c, (f c).pos = c.pos)
    (hf : ∀ c, (f c).frontier = c.frontier) (hm : ∀ c, (f c).memory = c.memory)
    (hc : ∀ c, base <+: c.calls → base <+: (f c).calls) :
    (modify f : ParseM PUnit).Forward base := fun input c _ ht => by
  refine ends_of_ok (run_modify f) ⟨⟨(hp c).ge, (hf c).ge, fun s _ => by rw [hm], hc c⟩, ?_⟩
  exact ⟨(hp c).trans_le ht.bounded, by rw [hp, hf]; exact ht.frontier,
    fun s hs => by rw [hm]; exact ht.fresh s (by rwa [hp] at hs)⟩

theorem check (k : Kind) : (ParseM.check k).Forward base := fun _ c _ ht =>
  ends_of_ok (run_check k) ⟨c.leads_note k, ht.note k⟩

theorem checkAny (ks : List Kind) : (ParseM.checkAny ks).Forward base := fun _ c _ ht =>
  ends_of_ok (run_checkAny ks) ⟨c.leads_noteAll ks, ht.noteAll ks⟩

theorem advance : ParseM.advance.Forward base := fun input c _ ht => by
  by_cases hk : input.kind c.pos = .endOfInput
  · exact ends_of_ok (run_advance_of_end hk) ⟨.refl c, ht⟩
  · exact ends_of_ok (run_advance hk) ⟨c.leads_next, ht.next hk⟩

theorem eat (k : Kind) : (ParseM.eat k).Forward base :=
  .bind (.check k) fun _ => .ite (.bind .advance fun _ => .pure _) (.pure _)

theorem eatAny (ks : List Kind) : (ParseM.eatAny ks).Forward base :=
  .bind (.checkAny ks) fun _ => .ite (.bind .advance fun _ => .pure _) (.pure _)

theorem position : ParseM.position.Forward base := of_still fun _ c => ⟨c.pos, rfl⟩

theorem current : ParseM.current.Forward base := of_still fun input c => ⟨input.token c.pos, rfl⟩

theorem currentKind : ParseM.currentKind.Forward base :=
  of_still fun input c => ⟨input.kind c.pos, rfl⟩

theorem read : (MonadReader.read : ParseM Input).Forward base :=
  of_still fun input _ => ⟨input, rfl⟩

theorem expect (k : Kind) : (ParseM.expect k).Forward base :=
  .bind .current fun _ => .bind (.eat k) fun _ => .ite (.pure _) (.throw _)

theorem upTo (k : Kind) {step : ParseM Unit} (h : step.Forward base) :
    (ParseM.upTo k step).Forward base :=
  .bind (.bind (.check k) fun _ => .ite (.pure _) h) fun _ =>
    .bind .position fun _ => .bind (.expect k) fun _ => .pure _

theorem manyUpTo {step : ParseM (Option α)} (h : step.Forward base) :
    ∀ bound, (ParseM.manyUpTo step bound).Forward base
  | 0 => .pure _
  | bound + 1 => .bind h fun
    | none => .pure _
    | some _ => .bind (manyUpTo h bound) fun _ => .pure _

theorem many {step : ParseM (Option α)} (h : step.Forward base) : (ParseM.many step).Forward base :=
  .bind .read fun _ => manyUpTo h _

theorem eatThen (k : Kind) {item : ParseM α} (h : item.Forward base) :
    (do if ← ParseM.eat k then some <$> item else return none : ParseM (Option α)).Forward base :=
  .bind (.eat k) fun _ => .ite (.map _ h) (.pure _)

theorem sepByComma {item : ParseM α} (h : item.Forward base) :
    (ParseM.sepByComma item).Forward base :=
  .bind h fun _ => .bind (.many (.eatThen _ h)) fun _ => .pure _

end Forward

end ParseM

/-! ## Primaries -/

/-- The kinds behind a primary that go on with it. -/
def suffixStarts : List Kind := [.lbracket, .dot, .lparen]

/-- The frontier behind a primary that has just been read. -/
def Frontier.behindPrimary (pos : Nat) : Frontier := .all pos suffixStarts

@[simp] theorem Frontier.pos_behindPrimary (pos : Nat) : (behindPrimary pos).pos = pos := by
  simp [behindPrimary, suffixStarts, all]

theorem Cursor.frontier_noteAll_suffixStarts {c : Cursor} (h : c.frontier.pos < c.pos) :
    (c.noteAll suffixStarts).frontier = .behindPrimary c.pos := by
  rw [frontier_noteAll]
  refine sup_eq_right.2 (Frontier.le_of_pos_lt ?_)
  rwa [← Frontier.behindPrimary, Frontier.pos_behindPrimary]

/-- What a nested production inside expressions may do in a run of the predictive parser. -/
structure Nested.Forward (inner : Nested) : Prop where
  expression : ∀ base, inner.expression.Forward base
  init : ∀ base, inner.init.Forward base
  operand : ∀ base, inner.operand.Forward base

/-- Some tokens from the current one on have been taken, and nothing is known of the next one. -/
structure Cursor.Takes (base : List CallSite) (input : Input) (c c' : Cursor) : Prop where
  leads : c.next.Leads base c'
  tidy : c'.Tidy input
  unseen : c'.frontier.pos < c'.pos

theorem Cursor.Leads.takes {base : List CallSite} {input : Input} {c d : Cursor}
    (hd : c.next.Leads base d)
    (htd : d.Tidy input) (hk : input.kind d.pos ≠ .endOfInput) : c.Takes base input d.next :=
  ⟨hd.trans d.leads_next, htd.next hk, Nat.lt_succ_of_le htd.frontier⟩

theorem Cursor.Leads.takes_next {base : List CallSite} {input : Input} {c d : Cursor}
    (hd : c.Leads base d)
    (htd : d.Tidy input) (hp : d.pos = c.pos) (hm : d.memory = c.memory)
    (hk : input.kind c.pos ≠ .endOfInput) : c.Takes base input d.next :=
  ⟨hd.next hp hm, htd.next (by rwa [hp]), Nat.lt_succ_of_le htd.frontier⟩

/-- Something in brackets: the closing one is taken last. -/
theorem ParseM.ends_closed {α β : Type} {m : ParseM α} {f : α → Token → ParseM β} {k : Kind}
    {base : List CallSite} {input : Input} {c d : Cursor} {Q : β → Cursor → Prop}
    {E : Failure → Cursor → Prop} (hm : m.Forward base) (hr : input.remembers = true)
    (hk : k ≠ .endOfInput) (hd : c.Takes base input d)
    (hQ : ∀ a t d', c.Takes base input d' → (f a t).Ends input d' Q E)
    (hE : ∀ e d', c.next.Leads base d' → E e d') :
    (do let a ← m; let t ← expect k; f a t).Ends input d Q E := by
  refine ends_bind ((hm input d hr hd.tidy).mono (fun a d' h => ?_) fun _ d' h =>
    hE _ _ (hd.leads.trans h))
  have hcd := hd.leads.trans (h.1.trans (d'.leads_note k))
  exact ends_bind (ends_expect hk
    (fun he => hQ _ _ _ (hcd.takes (h.2.note k) (by rw [Cursor.note_pos, he]; exact hk)))
    fun _ => hE _ _ hcd)

theorem ParseM.ends_upTo {step : ParseM Unit} {k : Kind} {base : List CallSite} {input : Input}
    {c d : Cursor}
    (hm : step.Forward base) (hr : input.remembers = true) (hk : k ≠ .endOfInput)
    (hd : c.Takes base input d) :
    (upTo k step).Ends input d (fun _ c' => c.Takes base input c')
      fun _ c' => c.next.Leads base c' := by
  have hstep : (do unlessAt k step; position : ParseM Nat).Forward base :=
    .bind (.bind (.check k) fun _ => .ite (.pure _) hm) fun _ => .position
  have : upTo k step =
      (do let closing ← (do unlessAt k step; position); let _ ← expect k; return closing) := by
    simp only [upTo, bind_assoc]
  rw [this]
  exact ends_closed hstep hr hk hd (fun _ _ _ h => ends_pure h) fun _ _ h => h

namespace Nested.Forward

variable {inner : Nested} (h : inner.Forward) (base : List CallSite)

include h

theorem expressions : inner.expressions.Forward base :=
  .bind (.sepByComma (h.expression base)) fun _ => .pure _

/-- A head takes the current token at least. -/
theorem head_ends {input : Input} {c : Cursor} (hr : input.remembers = true) (ht : c.Tidy input) :
    inner.head.Ends input c (fun _ c' => c.Takes base input c')
      (fun _ c' => c.Leads base c' ∧ c'.memory[c.pos]? = c.memory[c.pos]?) := by
  have hl : c.Leads base _ := c.leads_noteAll literals
  have hl' := hl.trans (Cursor.leads_note _ .identifier)
  have hl'' := hl'.trans (Cursor.leads_note _ .lparen)
  have ht' := (ht.noteAll literals).note .identifier
  refine ends_bind (ends_checkAny (ends_ite (fun hk => ?_) fun _ => ?_))
  · have hk : input.kind c.pos ≠ .endOfInput := fun he => by simp [he, literals] at hk
    exact ends_advance (by simpa) (hl.takes_next (ht.noteAll _) (by simp) (by simp) hk)
  refine ends_bind (ends_check (ends_ite (fun hk => ?_) fun _ => ?_))
  · have hk : input.kind c.pos ≠ .endOfInput := fun he => by simp [he] at hk
    exact ends_advance (by simpa) (hl'.takes_next ht' (by simp) (by simp) hk)
  refine ends_bind (ends_eat (by decide) (fun hk => ends_ite (fun _ => ?_) (by simp)) fun _ =>
    ends_ite (by simp) fun _ => ends_throw ⟨hl'', by simp⟩)
  have hk : input.kind c.pos ≠ .endOfInput := fun he => by simp [he] at hk
  exact ends_closed (h.expression base) hr (by decide)
    (hl''.takes_next (ht'.note _) (by simp) (by simp) hk) (fun _ _ _ hd => ends_pure hd)
    fun _ d hd => ⟨c.leads_next.trans hd, hd.memory c.pos (Nat.lt_succ_self _)⟩

theorem arguments_ends {input : Input} {c d : Cursor} (hr : input.remembers = true)
    (hl : c.Leads base d) (ht : d.Tidy input) (hp : d.pos = c.pos) (hm : d.memory = c.memory)
    (hk : input.kind c.pos = .lparen) (start : Nat) :
    (inner.arguments start).Ends input d (fun _ c' => c.Takes base input c')
      fun _ c' => c.Leads base c' := by
  have hk' : input.kind c.pos ≠ .endOfInput := by simp [hk]
  refine ends_bind (ends_of_ok run_position (ends_bind (ends_advance (by rwa [hp]) ?_)))
  have hupTo := ends_upTo (k := .rparen) (h.expressions base) hr (by decide)
    (hl.takes_next ht hp hm hk')
  refine ends_bind (hupTo.mono (fun _ d' hd => ?_) fun _ d' hd => c.leads_next.trans hd)
  refine ends_bind (ends_of_ok run_read (ends_ite (fun _ => ?_) fun _ => ends_pure hd))
  refine ends_bind (ends_of_ok run_read (ends_bind (ends_of_ok run_read ?_)))
  cases input.registry (input.token start).image with
  | none => exact ends_throw (c.leads_next.trans hd.leads)
  | some _ =>
    exact ends_of_ok (run_modify _) ⟨hd.leads.trans ⟨le_rfl, le_rfl, fun _ _ => rfl,
      fun h => h.trans (List.prefix_append _ _)⟩,
      ⟨hd.tidy.bounded, hd.tidy.frontier, hd.tidy.fresh⟩, hd.unseen⟩

/-- A suffix takes the current token at least; if there is none, that was looked for. -/
theorem suffix?_ends {input : Input} {c : Cursor} (hr : input.remembers = true)
    (ht : c.Tidy input) (start : Nat) :
    (inner.suffix? start).Ends input c
      (fun o c' => match o with
        | none => c' = c.noteAll suffixStarts
        | some _ => c.Takes base input c')
      (fun _ c' => c.Leads base c') := by
  have hl : c.Leads base _ := c.leads_note .lbracket
  have hl' := hl.trans (Cursor.leads_note _ .dot)
  have hl'' := hl'.trans (Cursor.leads_note _ .lparen)
  have ht' := (ht.note .lbracket).note .dot
  refine ends_bind (ends_eat (by decide) (fun hk => ends_ite (fun _ => ?_) (by simp)) fun _ =>
    ends_ite (by simp) fun _ => ?_)
  · exact ends_closed (h.expression base) hr (by decide)
      (hl.takes_next (ht.note _) rfl rfl (by simp [hk])) (fun _ _ _ hd => ends_pure hd)
      fun _ d hd => c.leads_next.trans hd
  refine ends_bind (ends_eat (by decide) (fun hk => ends_ite (fun _ => ?_) (by simp)) fun _ =>
    ends_ite (by simp) fun _ => ?_)
  · have hd := hl'.takes_next ht' rfl rfl (by simpa using hk.trans_ne (by decide))
    refine ends_bind (ends_expect (by decide) (fun he => ends_pure ?_) fun _ =>
      c.leads_next.trans (hd.leads.trans (Cursor.leads_note _ _)))
    exact (hd.leads.trans (Cursor.leads_note _ _)).takes (hd.tidy.note _)
      (by rw [Cursor.note_pos, he]; decide)
  refine ends_bind (ends_check (ends_ite (fun hk => ?_) fun _ => ends_pure rfl))
  exact ends_map (h.arguments_ends base hr hl'' (ht'.note _) rfl rfl (of_decide_eq_true hk) start)

/-- A primary takes the current token at least, and its suffixes were looked for at its end. -/
theorem plainPrimary_ends {input : Input} {c : Cursor} (hr : input.remembers = true)
    (ht : c.Tidy input) :
    inner.plainPrimary.Ends input c
      (fun _ c' => c.next.Leads base c' ∧ c'.Tidy input ∧ c'.frontier = .behindPrimary c'.pos)
      (fun _ c' => c.Leads base c' ∧ c'.memory[c.pos]? = c.memory[c.pos]?) := by
  refine ends_bind (ends_of_ok run_position (ends_bind ((h.head_ends base hr ht).mono
    (fun _ c₁ h₁ => ?_) fun _ _ hd => hd)))
  refine ends_bind ((ends_many (I := fun _ d => c.Takes base input d)
    (fun _ d hd => hd.tidy.bounded) (fun _ d hd => ?_) h₁).mono (fun _ _ hd => ends_pure hd)
    fun _ _ hd => hd)
  refine (h.suffix?_ends base hr hd.tidy c.pos).mono (fun o d' hd' => ?_) fun _ d' hd' => ?_
  · cases o with
    | none =>
      subst hd'
      exact ⟨hd.leads.trans (d.leads_noteAll _), hd.tidy.noteAll _, by
        rw [Cursor.frontier_noteAll_suffixStarts hd.unseen, Cursor.noteAll_pos]⟩
    | some _ =>
      exact ⟨⟨hd.leads.trans (d.leads_next.trans hd'.leads), hd'.tidy, hd'.unseen⟩,
        Nat.lt_of_succ_le hd'.leads.pos⟩
  · exact ⟨c.leads_next.trans (hd.leads.trans hd'),
      (hd.leads.trans hd').memory c.pos (Nat.lt_succ_self _)⟩

omit h in
/-- With a tidy cursor nothing is known of the current token, so the primary is read. -/
theorem run_primary {input : Input} {c : Cursor} (hr : input.remembers = true)
    (ht : c.Tidy input) :
    inner.primary.run input c = match inner.plainPrimary.run input c with
      | .ok () c' => .ok () (c'.remember c)
      | failed => failed := by
  have hnone := ht.fresh c.pos le_rfl
  change (if input.remembers then _ else _) = _
  rw [if_pos hr]
  split
  · rename_i known hknown
    rw [hnone] at hknown
    cases hknown
  · rfl

/-- A primary takes the current token at least, and is remembered. -/
theorem primary_ends {input : Input} {c : Cursor} (hr : input.remembers = true)
    (ht : c.Tidy input) :
    inner.primary.Ends input c
      (fun _ c' => c.Leads base c' ∧ c.pos < c'.pos ∧ c'.Tidy input ∧
        c'.frontier = .behindPrimary c'.pos)
      (fun _ c' => c.Leads base c' ∧ c'.memory[c.pos]? = none) := by
  have hplain := h.plainPrimary_ends base hr ht
  unfold Ends at hplain ⊢
  rw [run_primary hr ht]
  cases hm : inner.plainPrimary.run input c with
  | error e c' =>
    rw [hm] at hplain
    exact ⟨hplain.1, hplain.2.trans (ht.fresh c.pos le_rfl)⟩
  | ok u c' =>
    rw [hm] at hplain
    obtain ⟨hl, ht', hf⟩ := hplain
    have hlt : c.pos < c'.pos := hl.pos
    refine ⟨⟨hlt.le, hl.frontier, fun s hs => ?_, hl.calls⟩, hlt, ht'.remember hlt, hf⟩
    rw [Cursor.getElem?_remember, if_neg hs.ne]
    exact hl.memory s (Nat.lt_succ_of_lt hs)

theorem primary : inner.primary.Forward base := fun _ _ hr ht =>
  (h.primary_ends base hr ht).mono (fun _ _ hd => ⟨hd.1, hd.2.2.1⟩) fun _ _ hd => hd.1

end Nested.Forward

end Botscript.Parse
