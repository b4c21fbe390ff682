import Botscript.Parse.Program

/-!
# Runs of steps

What each primitive step answers and where it leaves the cursor, as equations for `run`. `Ends`
states what holds when a step is done; `ends_bind` takes it apart along the steps of a production.
-/

namespace Botscript.Parse

namespace Cursor

@[simp] theorem note_pos (c : Cursor) (k : Token.Kind) : (c.note k).pos = c.pos := rfl
@[simp] theorem note_calls (c : Cursor) (k : Token.Kind) : (c.note k).calls = c.calls := rfl
@[simp] theorem note_memory (c : Cursor) (k : Token.Kind) : (c.note k).memory = c.memory := rfl
@[simp] theorem next_pos (c : Cursor) : c.next.pos = c.pos + 1 := rfl
@[simp] theorem next_calls (c : Cursor) : c.next.calls = c.calls := rfl
@[simp] theorem next_memory (c : Cursor) : c.next.memory = c.memory := rfl
@[simp] theorem next_frontier (c : Cursor) : c.next.frontier = c.frontier := rfl

@[simp] theorem noteAll_nil (c : Cursor) : c.noteAll [] = c := rfl

@[simp] theorem noteAll_cons (c : Cursor) (k : Token.Kind) (ks : List Token.Kind) :
    c.noteAll (k :: ks) = (c.note k).noteAll ks := rfl

@[simp] theorem noteAll_pos (c : Cursor) (ks : List Token.Kind) : (c.noteAll ks).pos = c.pos := by
  induction ks generalizing c with
  | nil => rfl
  | cons k ks ih => exact ih _

@[simp] theorem noteAll_calls (c : Cursor) (ks : List Token.Kind) :
    (c.noteAll ks).calls = c.calls := by
  induction ks generalizing c with
  | nil => rfl
  | cons k ks ih => exact ih _

@[simp] theorem noteAll_memory (c : Cursor) (ks : List Token.Kind) :
    (c.noteAll ks).memory = c.memory := by
  induction ks generalizing c with
  | nil => rfl
  | cons k ks ih => exact ih _

end Cursor

/-! ## Spans of tokens -/

namespace Input

variable {input : Input} {i j : Nat}

theorem span_eq_map (h : j ≤ input.tokens.size) :
    input.span i j = (List.range (j - i)).map fun n => input.token (i + n) := by
  have hlength : (input.span i j).length = j - i := by
    simp only [span, Array.length_toList, Array.size_extract]
    omega
  refine List.ext_getElem (by simpa using hlength) fun n hn _ => ?_
  have hlt : i + n < input.tokens.size := by omega
  simp [span, token, Array.getElem?_eq_getElem hlt]

theorem span_self (input : Input) (i : Nat) : input.span i i = [] := by simp [span]

theorem span_cons (hij : i < j) (hj : j ≤ input.tokens.size) :
    input.span i j = input.token i :: input.span (i + 1) j := by
  rw [span_eq_map hj, span_eq_map hj, ← Nat.succ_sub_succ j i,
    Nat.succ_sub (Nat.succ_le_of_lt hij), List.range_succ_eq_map, List.map_cons, List.map_map]
  refine congrArg (input.token i :: ·) (List.map_congr_left fun n _ => ?_)
  rw [Function.comp_apply, Nat.succ_eq_add_one, Nat.add_assoc, Nat.add_comm 1 n]

theorem span_concat (hij : i ≤ j) (hj : j < input.tokens.size) :
    input.span i (j + 1) = input.span i j ++ [input.token j] := by
  rw [span_eq_map hj, span_eq_map (Nat.le_of_lt hj), Nat.succ_sub hij, List.range_succ,
    List.map_append,
    List.map_singleton, Nat.add_sub_cancel' hij]

end Input

namespace ParseM

variable {α β : Type} {input : Input} {c : Cursor}

/-! ## Equations -/

@[simp] theorem run_pure (a : α) : (pure a : ParseM α).run input c = .ok a c := rfl

@[simp] theorem run_throw (e : Failure) : (throw e : ParseM α).run input c = .error e c := rfl

@[simp] theorem run_read : (read : ParseM Input).run input c = .ok input c := rfl

@[simp] theorem run_get : (get : ParseM Cursor).run input c = .ok c c := rfl

@[simp] theorem run_modify (f : Cursor → Cursor) :
    (modify f : ParseM PUnit).run input c = .ok ⟨⟩ (f c) := rfl

theorem run_bind (m : ParseM α) (f : α → ParseM β) :
    (m >>= f).run input c = match m.run input c with
      | .ok a c' => (f a).run input c'
      | .error e c' => .error e c' := by
  change EStateM.bind (m input) (fun a => f a input) c = _
  unfold EStateM.bind run
  cases m input c <;> rfl

theorem run_bind_of_ok {m : ParseM α} {f : α → ParseM β} {a : α} {c' : Cursor}
    (h : m.run input c = .ok a c') : (m >>= f).run input c = (f a).run input c' := by
  rw [run_bind, h]

theorem run_bind_of_error {m : ParseM α} {f : α → ParseM β} {e : Failure} {c' : Cursor}
    (h : m.run input c = .error e c') : (m >>= f).run input c = .error e c' := by
  rw [run_bind, h]

theorem run_map (f : α → β) (m : ParseM α) :
    (f <$> m).run input c = match m.run input c with
      | .ok a c' => .ok (f a) c'
      | .error e c' => .error e c' := by
  change EStateM.map f (m input) c = _
  unfold EStateM.map run
  cases m input c <;> rfl

@[simp] theorem run_position : position.run input c = .ok c.pos c := rfl

@[simp] theorem run_current : current.run input c = .ok (input.token c.pos) c := rfl

@[simp] theorem run_currentKind : currentKind.run input c = .ok (input.kind c.pos) c := rfl

theorem run_advance (h : input.kind c.pos ≠ .endOfInput) :
    advance.run input c = .ok ⟨⟩ c.next := by
  unfold advance
  rw [run_bind_of_ok run_currentKind, if_pos h, run_modify]

theorem run_advance_of_end (h : input.kind c.pos = .endOfInput) :
    advance.run input c = .ok ⟨⟩ c := by
  unfold advance
  rw [run_bind_of_ok run_currentKind, if_neg (fun hne => hne h), run_pure]

@[simp] theorem run_check (k : Token.Kind) :
    (check k).run input c = .ok (decide (input.kind c.pos = k)) (c.note k) := rfl

@[simp] theorem run_checkAny (ks : List Token.Kind) :
    (checkAny ks).run input c = .ok (decide (input.kind c.pos ∈ ks)) (c.noteAll ks) := by
  unfold checkAny
  rw [run_bind_of_ok (run_modify _), run_bind_of_ok run_currentKind, Cursor.noteAll_pos, run_pure]

theorem run_eat_of_eq {k : Token.Kind} (h : input.kind c.pos = k) (hk : k ≠ .endOfInput) :
    (eat k).run input c = .ok true (c.note k).next := by
  unfold eat
  rw [run_bind_of_ok (run_check k), decide_eq_true h, if_pos rfl,
    run_bind_of_ok (run_advance (by rwa [Cursor.note_pos, h])), run_pure]

theorem run_eat_of_ne {k : Token.Kind} (h : input.kind c.pos ≠ k) :
    (eat k).run input c = .ok false (c.note k) := by
  unfold eat
  rw [run_bind_of_ok (run_check k), decide_eq_false h, if_neg Bool.false_ne_true, run_pure]

theorem run_eatAny_of_mem {ks : List Token.Kind} (h : input.kind c.pos ∈ ks)
    (hk : .endOfInput ∉ ks) : (eatAny ks).run input c = .ok true (c.noteAll ks).next := by
  unfold eatAny
  rw [run_bind_of_ok (run_checkAny ks), decide_eq_true h, if_pos rfl,
    run_bind_of_ok (run_advance (by rw [Cursor.noteAll_pos]; exact fun he => hk (he ▸ h))),
    run_pure]

theorem run_eatAny_of_not_mem {ks : List Token.Kind} (h : input.kind c.pos ∉ ks) :
    (eatAny ks).run input c = .ok false (c.noteAll ks) := by
  unfold eatAny
  rw [run_bind_of_ok (run_checkAny ks), decide_eq_false h, if_neg Bool.false_ne_true, run_pure]

theorem eat_eq_eatAny (k : Token.Kind) : eat k = eatAny [k] := by
  unfold eat eatAny check checkAny
  simp [Cursor.noteAll]

theorem run_expect_of_eq {k : Token.Kind} (h : input.kind c.pos = k) (hk : k ≠ .endOfInput) :
    (expect k).run input c = .ok (input.token c.pos) (c.note k).next := by
  unfold expect
  rw [run_bind_of_ok run_current, run_bind_of_ok (run_eat_of_eq h hk), if_pos rfl, run_pure]

theorem run_expect_of_ne {k : Token.Kind} (h : input.kind c.pos ≠ k) :
    (expect k).run input c = .error .mismatch (c.note k) := by
  unfold expect
  rw [run_bind_of_ok run_current, run_bind_of_ok (run_eat_of_ne h), if_neg Bool.false_ne_true,
    run_throw]

theorem run_expect_eq_ok {k : Token.Kind} (hk : k ≠ .endOfInput) {t : Token} {d : Cursor} :
    (expect k).run input c = .ok t d ↔
      input.kind c.pos = k ∧ t = input.token c.pos ∧ d = (c.note k).next := by
  by_cases h : input.kind c.pos = k
  · rw [run_expect_of_eq h hk]
    simp [h, eq_comm]
  · rw [run_expect_of_ne h]
    simp [h]

/-- The end of input is expected without moving past it. -/
theorem run_expect_end (h : input.kind c.pos = .endOfInput) :
    (expect .endOfInput).run input c = .ok (input.token c.pos) (c.note .endOfInput) := by
  unfold expect eat
  rw [run_bind_of_ok run_current, run_bind, run_bind_of_ok (run_check _), decide_eq_true h,
    if_pos rfl, run_bind_of_ok (run_advance_of_end (by rwa [Cursor.note_pos])), run_pure]
  simp only [if_true, run_pure]

@[simp] theorem run_failTooDeep :
    (failTooDeep : ParseM α).run input c = .error (.tooDeep (input.token c.pos)) c := rfl

theorem run_orElse (first second : ParseM α) :
    (orElse first second).run input c = match first.run input c with
      | .error .mismatch c' => second.run input (c'.rewind c)
      | result => result := rfl

theorem run_orElse_of_ok {first second : ParseM α} {a : α} {c' : Cursor}
    (h : first.run input c = .ok a c') : (orElse first second).run input c = .ok a c' := by
  rw [run_orElse, h]

theorem run_orElse_of_mismatch {first second : ParseM α} {c' : Cursor}
    (h : first.run input c = .error .mismatch c') :
    (orElse first second).run input c = second.run input (c'.rewind c) := by
  rw [run_orElse, h]

theorem run_orElse_of_fatal {first second : ParseM α} {e : Failure} {c' : Cursor}
    (h : first.run input c = .error e c') (he : e ≠ .mismatch) :
    (orElse first second).run input c = .error e c' := by
  rw [run_orElse, h]
  cases e with
  | mismatch => exact absurd rfl he
  | unknownFunction => rfl
  | tooDeep => rfl

theorem run_wholeCall? (start stop : Nat) : (wholeCall? start stop).run input c =
    .ok ((c.calls.find? fun site => site.name = start ∧ site.closing + 1 = stop).bind fun site =>
      (input.registry (input.token site.name).image).map fun make =>
        make (input.between (site.opening + 1) site.closing)) c := by
  unfold wholeCall?
  rw [run_bind_of_ok run_read, run_bind_of_ok run_get]
  cases c.calls.find? _ <;> rfl

theorem run_map_eq_ok {f : α → β} {m : ParseM α} {d : Cursor} {b : β} :
    (f <$> m).run input c = .ok b d ↔ ∃ a, m.run input c = .ok a d ∧ f a = b := by
  rw [run_map]
  cases m.run input c with
  | ok a e =>
    constructor
    · intro h
      cases h
      exact ⟨a, rfl, rfl⟩
    · rintro ⟨_, h, rfl⟩
      cases h
      rfl
  | error e c' => simp

/-- Steps one after another are done if each of them is. -/
theorem exists_of_run_bind {m : ParseM α} {f : α → ParseM β} {d : Cursor} {b : β}
    (h : (m >>= f).run input c = .ok b d) :
    ∃ a e, m.run input c = .ok a e ∧ (f a).run input e = .ok b d := by
  rw [run_bind] at h
  cases hm : m.run input c with
  | ok a e =>
    rw [hm] at h
    exact ⟨a, e, rfl, h⟩
  | error e c' =>
    rw [hm] at h
    cases h

theorem run_many (step : ParseM (Option α)) :
    (many step).run input c = (manyUpTo step (input.tokens.size + 1)).run input c := rfl

theorem run_many_of_none {step : ParseM (Option α)} {c' : Cursor}
    (h : step.run input c = .ok none c') : (many step).run input c = .ok [] c' := by
  rw [run_many, manyUpTo, run_bind_of_ok h, run_pure]

/-! ## What holds at the end of a run -/

/-- The step started from `c` answers as in `Q`, or fails as in `E`. -/
def Ends (m : ParseM α) (input : Input) (c : Cursor) (Q : α → Cursor → Prop)
    (E : Failure → Cursor → Prop) : Prop :=
  match m.run input c with
  | .ok a c' => Q a c'
  | .error e c' => E e c'

variable {Q : α → Cursor → Prop} {E : Failure → Cursor → Prop}

theorem ends_iff {m : ParseM α} : m.Ends input c Q E ↔
    (∀ a c', m.run input c = .ok a c' → Q a c') ∧
      (∀ e c', m.run input c = .error e c' → E e c') := by
  unfold Ends
  cases h : m.run input c <;> simp

theorem Ends.ok {m : ParseM α} (h : m.Ends input c Q E) {a : α} {c' : Cursor}
    (hm : m.run input c = .ok a c') : Q a c' := (ends_iff.1 h).1 a c' hm

theorem Ends.error {m : ParseM α} (h : m.Ends input c Q E) {e : Failure} {c' : Cursor}
    (hm : m.run input c = .error e c') : E e c' := (ends_iff.1 h).2 e c' hm

theorem ends_of_ok {m : ParseM α} {a : α} {c' : Cursor} (hm : m.run input c = .ok a c')
    (h : Q a c') : m.Ends input c Q E := by
  unfold Ends; rwa [hm]

theorem ends_of_error {m : ParseM α} {e : Failure} {c' : Cursor}
    (hm : m.run input c = .error e c') (h : E e c') : m.Ends input c Q E := by
  unfold Ends; rwa [hm]

theorem Ends.mono {m : ParseM α} {Q' : α → Cursor → Prop} {E' : Failure → Cursor → Prop}
    (h : m.Ends input c Q E) (hQ : ∀ a c', Q a c' → Q' a c') (hE : ∀ e c', E e c' → E' e c') :
    m.Ends input c Q' E' :=
  ends_iff.2 ⟨fun a c' hm => hQ a c' (h.ok hm), fun e c' hm => hE e c' (h.error hm)⟩

theorem Ends.and {m : ParseM α} {Q' : α → Cursor → Prop} {E' : Failure → Cursor → Prop}
    (h : m.Ends input c Q E) (h' : m.Ends input c Q' E') :
    m.Ends input c (fun a c' => Q a c' ∧ Q' a c') (fun e c' => E e c' ∧ E' e c') :=
  ends_iff.2 ⟨fun _ _ hm => ⟨h.ok hm, h'.ok hm⟩, fun _ _ hm => ⟨h.error hm, h'.error hm⟩⟩

theorem ends_pure {a : α} (h : Q a c) : (pure a : ParseM α).Ends input c Q E := h

theorem ends_throw {e : Failure} (h : E e c) : (throw e : ParseM α).Ends input c Q E := h

theorem ends_bind {m : ParseM β} {f : β → ParseM α}
    (h : m.Ends input c (fun b c' => (f b).Ends input c' Q E) E) :
    (m >>= f).Ends input c Q E := by
  unfold Ends at h ⊢
  rw [run_bind]
  cases hm : m.run input c <;> simpa [hm] using h

theorem ends_map {m : ParseM β} {f : β → α} (h : m.Ends input c (fun b c' => Q (f b) c') E) :
    (f <$> m).Ends input c Q E := by
  unfold Ends at h ⊢
  rw [run_map]
  cases hm : m.run input c <;> simpa [hm] using h

theorem ends_ite {p : Prop} [Decidable p] {m m' : ParseM α} (h : p → m.Ends input c Q E)
    (h' : ¬p → m'.Ends input c Q E) : (if p then m else m').Ends input c Q E := by
  split
  · exact h ‹_›
  · exact h' ‹_›

theorem ends_check {Q : Bool → Cursor → Prop} {k : Token.Kind}
    (h : Q (decide (input.kind c.pos = k)) (c.note k)) : (check k).Ends input c Q E :=
  ends_of_ok (run_check k) h

theorem ends_checkAny {Q : Bool → Cursor → Prop} {ks : List Token.Kind}
    (h : Q (decide (input.kind c.pos ∈ ks)) (c.noteAll ks)) : (checkAny ks).Ends input c Q E :=
  ends_of_ok (run_checkAny ks) h

theorem ends_advance {Q : Unit → Cursor → Prop} (hk : input.kind c.pos ≠ .endOfInput)
    (h : Q () c.next) : advance.Ends input c Q E :=
  ends_of_ok (run_advance hk) h

theorem ends_eat {Q : Bool → Cursor → Prop} {k : Token.Kind} (hk : k ≠ .endOfInput)
    (h : input.kind c.pos = k → Q true (c.note k).next)
    (h' : input.kind c.pos ≠ k → Q false (c.note k)) : (eat k).Ends input c Q E := by
  by_cases he : input.kind c.pos = k
  · exact ends_of_ok (run_eat_of_eq he hk) (h he)
  · exact ends_of_ok (run_eat_of_ne he) (h' he)

theorem ends_eatAny {Q : Bool → Cursor → Prop} {ks : List Token.Kind} (hk : .endOfInput ∉ ks)
    (h : input.kind c.pos ∈ ks → Q true (c.noteAll ks).next)
    (h' : input.kind c.pos ∉ ks → Q false (c.noteAll ks)) : (eatAny ks).Ends input c Q E := by
  by_cases he : input.kind c.pos ∈ ks
  · exact ends_of_ok (run_eatAny_of_mem he hk) (h he)
  · exact ends_of_ok (run_eatAny_of_not_mem he) (h' he)

theorem ends_expect {Q : Token → Cursor → Prop} {k : Token.Kind} (hk : k ≠ .endOfInput)
    (h : input.kind c.pos = k → Q (input.token c.pos) (c.note k).next)
    (h' : input.kind c.pos ≠ k → E .mismatch (c.note k)) : (expect k).Ends input c Q E := by
  by_cases he : input.kind c.pos = k
  · exact ends_of_ok (run_expect_of_eq he hk) (h he)
  · exact ends_of_error (run_expect_of_ne he) (h' he)

/-! ## Loops -/

theorem ends_manyUpTo {step : ParseM (Option β)} {I : List β → Cursor → Prop}
    {Q : List β → Cursor → Prop} (hb : ∀ bs c, I bs c → c.pos ≤ input.tokens.size)
    (hstep : ∀ bs c, I bs c → step.Ends input c (fun b c' => match b with
      | none => Q bs c'
      | some b => I (bs ++ [b]) c' ∧ c.pos < c'.pos) E) (bound : Nat) :
    ∀ bs c, I bs c → input.tokens.size < c.pos + bound →
      (manyUpTo step bound).Ends input c (fun bs' c' => Q (bs ++ bs') c') E := by
  induction bound with
  | zero => intro bs c h hlt; have := hb bs c h; omega
  | succ bound ih =>
    intro bs c h hlt
    refine ends_bind ((hstep bs c h).mono (fun b c' hc' => ?_) fun _ _ he => he)
    cases b with
    | none => exact ends_pure (by simpa using hc')
    | some b =>
      refine ends_bind ((ih _ c' hc'.1 (by omega)).mono (fun bs' c'' hQ => ?_) fun _ _ he => he)
      exact ends_pure (by simpa using hQ)

/-- A loop whose step keeps `I` and moves on ends as its last step does. -/
theorem ends_many {step : ParseM (Option β)} {I : List β → Cursor → Prop}
    {Q : List β → Cursor → Prop} (hb : ∀ bs c, I bs c → c.pos ≤ input.tokens.size)
    (hstep : ∀ bs c, I bs c → step.Ends input c (fun b c' => match b with
      | none => Q bs c'
      | some b => I (bs ++ [b]) c' ∧ c.pos < c'.pos) E) (h : I [] c) :
    (many step).Ends input c Q E := by
  have := ends_manyUpTo hb hstep (input.tokens.size + 1) [] c h (by omega)
  simpa [Ends, run_many] using this

end ParseM

end Botscript.Parse
