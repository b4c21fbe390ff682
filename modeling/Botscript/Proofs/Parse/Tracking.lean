import Botscript.Proofs.Parse.Forward

/-!
# Two runs in step

A run of the parser, which may remember primaries, go back and try again, is compared to a run of
the predictive parser. A `Frame` holds what stays fixed on the way. The two cursors are in step by
`Tracks`, and `Sim` says that two steps keep them so: they answer the same, or fail alike. Where the
parser gives up an assignment it may first answer in front of its sign (`Doomed`) while the
predictive one has failed; the lemmas of `Stays` show that it fails as well then, and that nothing
is looked at until it does.
-/

namespace Botscript.Parse

open Token ParseM

/-- The same input, read by a parser that remembers primaries. -/
abbrev Input.remembering (input : Input) : Input := { input with remembers := true }

/-- What stays fixed while two runs are compared. -/
structure Frame where
  /-- The primaries that the predictive run remembers in the end. -/
  memory : Nat → Option Primary
  /-- What only the predictive run has looked at so far. -/
  ahead : Frontier
  /-- What attempts that were given up have looked at. -/
  spent : Frontier
  /-- The calls that were there before. -/
  base : List CallSite

/-- The primaries that the predictive run remembers in the end are there already. -/
def Agrees {α : Type} (memory : Nat → Option Primary) : EStateM.Result Failure Cursor α → Prop
  | .ok _ c => ∀ s < c.pos, memory s = c.memory[s]?
  | .error _ c => ∀ s, memory s = c.memory[s]?

/-- A cursor in front of an assignment sign, behind the furthest token. -/
structure Cursor.Doomed (input : Input) (c : Cursor) : Prop where
  kind : input.kind c.pos = .assign
  behind : c.pos < c.frontier.pos

namespace Frame

/-- What holds of two runs also when both have failed. -/
structure Trails (F : Frame) (input : Input) (c c' : Cursor) : Prop where
  frontier : c.frontier ⊔ F.ahead = F.spent ⊔ c'.frontier
  memory : input.remembers = true → ∀ s known, c.memory[s]? = some known →
    F.memory s = some known ∧ .behindPrimary known.stop ≤ c.frontier
  base : F.base <+: c.calls

/-- Two runs in step. -/
structure Tracks (F : Frame) (input : Input) (c c' : Cursor) : Prop
    extends F.Trails input c c' where
  pos : c.pos = c'.pos
  calls : c.calls = c'.calls
  ahead : F.ahead.pos ≤ c.pos
  tidy : c'.Tidy input.remembering

/-- What stays fixed while the primary at a cursor is read: it is not remembered yet. -/
def whileReading (F : Frame) (c : Cursor) : Frame :=
  { F with memory := Function.update F.memory c.pos none, base := c.calls }

theorem whileReading_memory (F : Frame) (c : Cursor) : (F.whileReading c).memory c.pos = none :=
  Function.update_self ..

theorem whileReading_memory_of_ne (F : Frame) {c : Cursor} {s : Nat} (h : s ≠ c.pos) :
    (F.whileReading c).memory s = F.memory s :=
  Function.update_of_ne h ..

/-- How a run ends where the predictive run ends as given. If `doom` holds it may go on a little
in front of an assignment sign. -/
inductive Answers {α : Type} (F : Frame) (input : Input) (doom : Bool) :
    EStateM.Result Failure Cursor α → EStateM.Result Failure Cursor α → Prop
  | ok {a : α} {c c' : Cursor} (h : F.Tracks input c c') : Answers F input doom (.ok a c) (.ok a c')
  | mismatch {c c' : Cursor} (h : F.Trails input c c') :
    Answers F input doom (.error .mismatch c) (.error .mismatch c')
  | doomed {a : α} {c c' : Cursor} (hd : doom = true) (hc : c.Doomed input)
    (h : F.Trails input c c') : Answers F input doom (.ok a c) (.error .mismatch c')
  | fatal {e : Failure} {c c' : Cursor} (he : e ≠ .mismatch) :
    Answers F input doom (.error e c) (.error e c')

end Frame

namespace Frame

variable {F : Frame} {input : Input} {c c' : Cursor}

theorem Trails.note (h : F.Trails input c c') (k : Kind) (hp : c.pos = c'.pos) :
    F.Trails input (c.note k) (c'.note k) where
  frontier := by
    simp only [Cursor.note, Frontier.note_eq_sup]
    rw [sup_right_comm, h.frontier, hp, sup_assoc]
  memory hr s known hs :=
    ⟨(h.memory hr s known hs).1, (h.memory hr s known hs).2.trans (by
      rw [Cursor.note, Frontier.note_eq_sup]; exact le_sup_left)⟩
  base := h.base

theorem Tracks.note (h : F.Tracks input c c') (k : Kind) :
    F.Tracks input (c.note k) (c'.note k) :=
  ⟨h.toTrails.note k h.pos, h.pos, h.calls, h.ahead, h.tidy.note k⟩

theorem Tracks.noteAll (h : F.Tracks input c c') (ks : List Kind) :
    F.Tracks input (c.noteAll ks) (c'.noteAll ks) := by
  induction ks generalizing c c' with
  | nil => exact h
  | cons k ks ih => exact ih (h.note k)

theorem Tracks.next (h : F.Tracks input c c')
    (hk : input.remembering.kind c'.pos ≠ .endOfInput) : F.Tracks input c.next c'.next :=
  ⟨⟨h.frontier, h.memory, h.base⟩, by simp [h.pos], h.calls, h.ahead.trans (Nat.le_succ _),
    h.tidy.next hk⟩

theorem Answers.weaken {α : Type} {doom : Bool} {r r' : EStateM.Result Failure Cursor α}
    (h : F.Answers input false r r') : F.Answers input doom r r' := by
  cases h with
  | ok h => exact .ok h
  | mismatch h => exact .mismatch h
  | doomed hd => cases hd
  | fatal he => exact .fatal he

theorem Answers.of_ok {α : Type} {doom : Bool} {r : EStateM.Result Failure Cursor α} {a : α}
    (h : F.Answers input doom r (.ok a c')) : ∃ c, r = .ok a c ∧ F.Tracks input c c' := by
  cases h with
  | ok h => exact ⟨_, rfl, h⟩

theorem Answers.of_error {α : Type} {r : EStateM.Result Failure Cursor α} {e : Failure}
    (h : F.Answers input false r (.error e c')) :
    ∃ c, r = .error e c ∧ (e = .mismatch → F.Trails input c c') := by
  cases h with
  | mismatch h => exact ⟨_, rfl, fun _ => h⟩
  | fatal he => exact ⟨_, rfl, fun h => absurd h he⟩
  | doomed hd => cases hd

end Frame

namespace Agrees

variable {α β : Type} {memory : Nat → Option Primary} {base : List CallSite} {m : ParseM α}
  {input : Input} {c : Cursor}

/-- What a run that moves forward leaves alone is known from its end. -/
theorem find (hm : m.Forward base)
    (hr : input.remembers = true) (hc : c.Tidy input) (h : Agrees memory (m.run input c)) {s : Nat}
    (hs : s < c.pos) : memory s = c.memory[s]? := by
  have hends := hm input c hr hc
  cases hrun : m.run input c with
  | ok a d =>
    obtain ⟨hl, -⟩ := hends.ok hrun
    rw [hrun] at h
    rw [h s (hs.trans_le hl.pos), hl.memory s hs]
  | error e d =>
    rw [hrun] at h
    rw [h s, (hends.error hrun).memory s hs]

/-- What is remembered in the end is there after the first of two steps. -/
theorem of_bind {f : α → ParseM β} (hm : m.Forward base) (hf : ∀ a, (f a).Forward base)
    (hr : input.remembers = true) (hc : c.Tidy input)
    (h : Agrees memory ((m >>= f).run input c)) : Agrees memory (m.run input c) := by
  cases hrun : m.run input c with
  | error e d => rwa [run_bind_of_error hrun] at h
  | ok a d =>
    rw [run_bind_of_ok hrun] at h
    exact fun s hs => h.find (hf a) hr ((hm input c hr hc).ok hrun).2 hs

end Agrees

namespace Cursor.Doomed

variable {input : Input} {c : Cursor}

theorem note_eq (h : c.Doomed input) (k : Kind) : c.note k = c := by
  have hf : c.frontier.note c.pos k = c.frontier := by
    rw [Frontier.note, if_neg h.behind.not_gt, if_neg h.behind.ne']
  rw [note, hf]

theorem noteAll_eq (h : c.Doomed input) (ks : List Kind) : c.noteAll ks = c := by
  induction ks with
  | nil => rfl
  | cons k ks ih => rw [noteAll_cons, h.note_eq, ih]

theorem run_eat (h : c.Doomed input) {k : Kind} (hk : .assign ≠ k) :
    (eat k).run input c = .ok false c := by
  rw [run_eat_of_ne (by rwa [h.kind]), h.note_eq]

theorem run_eatAny (h : c.Doomed input) {ks : List Kind} (hk : .assign ∉ ks) :
    (eatAny ks).run input c = .ok false c := by
  rw [run_eatAny_of_not_mem (by rwa [h.kind]), h.noteAll_eq]

end Cursor.Doomed

namespace ParseM

variable {α β : Type}

/-! ## Steps in front of an assignment sign -/

/-- In front of a doomed assignment sign a step fails, or, if `doom` holds, may do nothing. -/
def Stays (doom : Bool) (m : ParseM α) : Prop :=
  ∀ (input : Input) (c : Cursor), c.Doomed input →
    m.run input c = .error .mismatch c ∨ doom = true ∧ ∃ a, m.run input c = .ok a c

namespace Stays

variable {doom : Bool}

theorem of_still {m : ParseM α} (h : ∀ input c, ∃ a, m.run input c = .ok a c) : m.Stays true :=
  fun input c _ => .inr ⟨rfl, h input c⟩

theorem pure (a : α) : (Pure.pure a : ParseM α).Stays true := of_still fun _ _ => ⟨a, rfl⟩

theorem bind {m : ParseM α} {f : α → ParseM β} (hm : m.Stays true) (hf : ∀ a, (f a).Stays doom) :
    (m >>= f).Stays doom := fun input c hc => by
  obtain he | ⟨-, a, ha⟩ := hm input c hc
  · exact .inl (run_bind_of_error he)
  · rw [run_bind_of_ok ha]; exact hf a input c hc

theorem fails {m : ParseM α} {f : α → ParseM β} (hm : m.Stays false) : (m >>= f).Stays doom :=
  fun input c hc => by
    obtain he | ⟨h, -⟩ := hm input c hc
    · exact .inl (run_bind_of_error he)
    · cases h

theorem expect {k : Kind} (hk : .assign ≠ k) : (ParseM.expect k).Stays false := fun input c hc => by
  rw [run_expect_of_ne (by rwa [hc.kind]), hc.note_eq]
  exact .inl rfl

/-- A loop whose step finds nothing in front of an assignment sign. -/
theorem manyUpTo {step : ParseM (Option α)}
    (h : ∀ input c, c.Doomed input → step.run input c = .ok none c) :
    ∀ bound, (ParseM.manyUpTo step bound).Stays true
  | 0 => .pure _
  | bound + 1 => fun input c hc => .inr ⟨rfl, [], by
    rw [ParseM.manyUpTo, run_bind_of_ok (h input c hc), run_pure]⟩

theorem many {step : ParseM (Option α)}
    (h : ∀ input c, c.Doomed input → step.run input c = .ok none c) :
    (ParseM.many step).Stays true :=
  .bind (.of_still fun _ _ => ⟨_, rfl⟩) fun _ => manyUpTo h _

theorem eatThen {item : ParseM α} {k : Kind} (hk : .assign ≠ k) {input : Input} {c : Cursor}
    (hc : c.Doomed input) :
    (do if ← eat k then some <$> item else return none : ParseM (Option α)).run input c =
      .ok none c := by
  rw [run_bind_of_ok (hc.run_eat hk)]; rfl

theorem eatAnyThen {item : ParseM α} {ks : List Kind} (hk : .assign ∉ ks) {input : Input}
    {c : Cursor} (hc : c.Doomed input) :
    (do if ← eatAny ks then some <$> item else return none : ParseM (Option α)).run input c =
      .ok none c := by
  rw [run_bind_of_ok (hc.run_eatAny hk)]; rfl

end Stays

/-! ## Steps that keep two runs in step -/

/-- The step `m` of the parser does what `m'` does in the predictive one. -/
def Sim (doom : Bool) (F : Frame) (m m' : ParseM α) : Prop :=
  m'.Forward F.base ∧ ∀ (input : Input) (c c' : Cursor), F.Tracks input c c' →
    Agrees F.memory (m'.run input.remembering c') →
      F.Answers input doom (m.run input c) (m'.run input.remembering c')

namespace Sim

variable {doom : Bool} {F : Frame}

theorem of_step {m : ParseM α} (hf : m.Forward F.base)
    (h : ∀ input c c', F.Tracks input c c' → ∃ a d d', m.run input c = .ok a d ∧
      m.run input.remembering c' = .ok a d' ∧ F.Tracks input d d') : Sim doom F m m :=
  ⟨hf, fun input c c' hT _ => by
    obtain ⟨a, d, d', hm, hm', hT'⟩ := h input c c' hT
    rw [hm, hm']
    exact .ok hT'⟩

theorem pure (a : α) : Sim doom F (Pure.pure a) (Pure.pure a) :=
  of_step (.pure a) fun _ c c' hT => ⟨a, c, c', rfl, rfl, hT⟩

theorem throw (e : Failure) :
    Sim doom F (MonadExcept.throw e : ParseM α) (MonadExcept.throw e) :=
  ⟨.throw e, fun _ _ _ hT _ => by
    cases e with
    | mismatch => exact .mismatch hT.toTrails
    | _ => exact .fatal (by simp)⟩

/-- One step after another; in front of a doomed assignment sign the second does nothing. -/
theorem bind_of {first : Bool} {m m' : ParseM α} {f f' : α → ParseM β} (hm : Sim first F m m')
    (hf : ∀ a, Sim doom F (f a) (f' a)) (hs : first = true → ∀ a, (f a).Stays doom) :
    Sim doom F (m >>= f) (m' >>= f') := by
  refine ⟨.bind hm.1 fun a => (hf a).1, fun input c c' hT hA => ?_⟩
  have hans := hm.2 input c c' hT (hA.of_bind hm.1 (fun a => (hf a).1) rfl hT.tidy)
  rw [run_bind] at hA ⊢
  rw [run_bind]
  revert hA hans
  generalize m.run input c = r, m'.run input.remembering c' = r'
  intro hA hans
  cases hans with
  | ok h => exact (hf _).2 input _ _ h hA
  | mismatch h => exact .mismatch h
  | fatal he => exact .fatal he
  | @doomed a d d' hfirst hc h =>
    obtain he | ⟨hd, b, hb⟩ := hs hfirst a input d hc
    · simp only [he]; exact .mismatch h
    · simp only [hb]; exact .doomed hd hc h

theorem bind {m m' : ParseM α} {f f' : α → ParseM β} (hm : Sim false F m m')
    (hf : ∀ a, Sim doom F (f a) (f' a)) : Sim doom F (m >>= f) (m' >>= f') :=
  hm.bind_of hf (by simp)

theorem bind_doomed {m m' : ParseM α} {f f' : α → ParseM β} (hm : Sim true F m m')
    (hf : ∀ a, Sim doom F (f a) (f' a)) (hs : ∀ a, (f a).Stays doom) :
    Sim doom F (m >>= f) (m' >>= f') :=
  hm.bind_of hf fun _ => hs

theorem ite {p : Prop} [Decidable p] {m₁ m₁' m₂ m₂' : ParseM α} (h : Sim doom F m₁ m₁')
    (h' : Sim doom F m₂ m₂') : Sim doom F (if p then m₁ else m₂) (if p then m₁' else m₂') := by
  split_ifs <;> assumption

theorem map {m m' : ParseM α} (f : α → β) (hm : Sim doom F m m') :
    Sim doom F (f <$> m) (f <$> m') := by
  rw [map_eq_pure_bind, map_eq_pure_bind]
  exact hm.bind_of (fun _ => pure _) fun h _ => h ▸ .pure _

/-! ### Looking at tokens -/

theorem check (k : Kind) : Sim doom F (ParseM.check k) (ParseM.check k) :=
  of_step (.check k) fun input c c' hT =>
    ⟨decide (input.kind c.pos = k), _, _, rfl, by rw [hT.pos]; rfl, hT.note k⟩

theorem checkAny (ks : List Kind) : Sim doom F (ParseM.checkAny ks) (ParseM.checkAny ks) :=
  of_step (.checkAny ks) fun input c c' hT =>
    ⟨_, _, _, run_checkAny ks, by rw [hT.pos]; exact run_checkAny ks, hT.noteAll ks⟩

theorem advance : Sim doom F ParseM.advance ParseM.advance :=
  of_step .advance fun input c c' hT => by
    by_cases hk : input.kind c.pos = .endOfInput
    · exact ⟨_, c, c', run_advance_of_end hk, run_advance_of_end (by rwa [← hT.pos]), hT⟩
    · have hk' : input.remembering.kind c'.pos ≠ .endOfInput := by rwa [← hT.pos]
      exact ⟨_, _, _, run_advance hk, run_advance hk', hT.next hk'⟩

theorem eat (k : Kind) : Sim doom F (ParseM.eat k) (ParseM.eat k) :=
  (check k).bind fun _ => .ite (advance.bind fun _ => .pure _) (.pure _)

theorem eatAny (ks : List Kind) : Sim doom F (ParseM.eatAny ks) (ParseM.eatAny ks) :=
  (checkAny ks).bind fun _ => .ite (advance.bind fun _ => .pure _) (.pure _)

theorem position : Sim doom F ParseM.position ParseM.position :=
  of_step .position fun _ c c' hT => ⟨_, c, c', rfl, by rw [hT.pos]; rfl, hT⟩

theorem current : Sim doom F ParseM.current ParseM.current :=
  of_step .current fun _ c c' hT => ⟨_, c, c', rfl, by rw [hT.pos]; rfl, hT⟩

theorem currentKind : Sim doom F ParseM.currentKind ParseM.currentKind :=
  of_step .currentKind fun _ c c' hT => ⟨_, c, c', rfl, by rw [hT.pos]; rfl, hT⟩

theorem expect (k : Kind) : Sim doom F (ParseM.expect k) (ParseM.expect k) :=
  current.bind fun _ => (eat k).bind fun _ => .ite (.pure _) (.throw _)

theorem failTooDeep : Sim doom F (ParseM.failTooDeep : ParseM α) ParseM.failTooDeep :=
  current.bind fun _ => .throw _

/-- Only whether primaries are remembered differs between the inputs. -/
theorem reading {f f' : Input → ParseM α} (h : ∀ input, Sim doom F (f input) (f' input))
    (hr : ∀ input, f' input.remembering = f' input) : Sim doom F (read >>= f) (read >>= f') :=
  ⟨.bind .read fun input => (h input).1, fun input c c' hT hA => by
    have := (h input).2 input c c' hT
    rw [run_bind_of_ok run_read, hr] at hA
    rw [run_bind_of_ok run_read, run_bind_of_ok run_read, hr]
    exact this hA⟩

/-! ### Loops -/

theorem upTo {k : Kind} (hk : .assign ≠ k) {step step' : ParseM Unit} (h : Sim doom F step step') :
    Sim false F (ParseM.upTo k step) (ParseM.upTo k step') :=
  bind_of ((check k).bind fun _ => .ite (.pure _) h)
    (fun _ => position.bind fun _ => (expect k).bind fun _ => .pure _)
    fun _ _ => .bind (.of_still fun _ _ => ⟨_, rfl⟩) fun _ => .fails (.expect hk)

theorem manyUpTo {step step' : ParseM (Option α)} (h : Sim doom F step step')
    (hs : doom = true → ∀ bound, (ParseM.manyUpTo step bound).Stays true) :
    ∀ bound, Sim doom F (ParseM.manyUpTo step bound) (ParseM.manyUpTo step' bound)
  | 0 => .pure _
  | bound + 1 => h.bind_of
    (fun
      | none => .pure _
      | some _ => (manyUpTo h hs bound).bind_of (fun _ => .pure _) fun hd _ => hd ▸ .pure _)
    fun hd => fun
      | none => hd ▸ .pure _
      | some _ => hd ▸ .bind (hs hd bound) fun _ => .pure _

theorem many {step step' : ParseM (Option α)} (h : Sim doom F step step')
    (hs : doom = true → ∀ input c, c.Doomed input → step.run input c = .ok none c) :
    Sim doom F (ParseM.many step) (ParseM.many step') :=
  reading (fun _ => manyUpTo h (fun hd => Stays.manyUpTo (hs hd)) _) fun _ => rfl

theorem eatThen (k : Kind) {item item' : ParseM α} (h : Sim doom F item item') :
    Sim doom F (do if ← ParseM.eat k then some <$> item else return none)
      (do if ← ParseM.eat k then some <$> item' else return none) :=
  (eat k).bind fun _ => .ite (.map _ h) (.pure _)

theorem sepByComma {item item' : ParseM α} (h : Sim doom F item item') :
    Sim doom F (ParseM.sepByComma item) (ParseM.sepByComma item') :=
  have hmany := many (eatThen .comma h) fun _ _ _ => Stays.eatThen (by decide)
  h.bind_of (fun _ => hmany.bind_of (fun _ => .pure _) fun hd _ => hd ▸ .pure _)
    fun hd _ => hd ▸ .bind (.many fun _ _ => Stays.eatThen (by decide)) fun _ => .pure _

/-! ### Texts and calls -/

theorem textFrom (start : Nat) : Sim doom F (Parse.textFrom start) (Parse.textFrom start) :=
  reading (fun _ => position.bind fun _ => .pure _) fun _ => rfl

theorem plainFrom (start : Nat) : Sim doom F (Parse.plainFrom start) (Parse.plainFrom start) :=
  reading (fun _ => position.bind fun _ => .pure _) fun _ => rfl

theorem callSite (site : CallSite) : Sim doom F (Parse.callSite site) (Parse.callSite site) := by
  refine reading (fun named => reading (fun input => ?_) fun _ => rfl) fun _ => rfl
  cases input.registry (named.token site.name).image with
  | none => exact .throw _
  | some _ =>
    exact of_step (.modifying (fun _ => rfl) (fun _ => rfl) (fun _ => rfl)
      fun _ h => h.trans (List.prefix_append _ _)) fun _ c c' hT =>
      ⟨_, _, _, rfl, rfl, ⟨hT.frontier, hT.memory, hT.base.trans (List.prefix_append _ _)⟩, hT.pos,
        congrArg (· ++ [site]) hT.calls, hT.ahead, hT.tidy.bounded, hT.tidy.frontier, hT.tidy.fresh⟩

theorem wholeCall? (start stop : Nat) :
    Sim doom F (Parse.wholeCall? start stop) (Parse.wholeCall? start stop) :=
  of_step (.of_still fun _ _ => ⟨_, run_wholeCall? start stop⟩) fun _ c c' hT =>
    ⟨_, c, c', run_wholeCall? start stop, by rw [run_wholeCall?, hT.calls]; rfl, hT⟩

theorem forgetCalls (hF : F.base = []) :
    Sim doom F (modify Cursor.forgetCalls) (modify Cursor.forgetCalls) :=
  of_step (.modifying (fun _ => rfl) (fun _ => rfl) (fun _ => rfl) fun _ _ => hF ▸ List.nil_prefix)
    fun _ _ _ hT => ⟨_, _, _, rfl, rfl, ⟨hT.frontier, hT.memory, hF ▸ List.nil_prefix⟩, hT.pos, rfl,
      hT.ahead, hT.tidy.bounded, hT.tidy.frontier, hT.tidy.fresh⟩

end Sim

end ParseM

end Botscript.Parse
