import Botscript.Proofs.Grammar.Balance
import Botscript.Proofs.Grammar.Exact
import Botscript.Proofs.Parse.Forward
import Botscript.Proofs.Token.Cuts

/-!
# The course of a parse

A parse that is correct in the end could still have been astray on the way. `Course` is about the
way: it takes a production apart down to single acts and asks that each of them starts at a `Sane`
stage and reads nothing outside the tokens. A stage also counts the levels of nesting that have been
entered, so the productions are taken open, and the rule for nested ones is where the count goes up
and down. What is derived holds of the run with the levels that are left (`Course.ends`).
-/

namespace Botscript.Parse

open Token ParseM

/-! ## Indices within bounds -/

namespace Input

variable {input : Input} {i : Nat}

/-- The index of the end of input, or the number of tokens if they have none. -/
def limit (input : Input) : Nat := input.tokens.findIdx (·.kind = .endOfInput)

theorem limit_le_size : input.limit ≤ input.tokens.size := Array.findIdx_le_size

theorem kind_ne_of_lt_limit (h : i < input.limit) : input.kind i ≠ .endOfInput := by
  have hi : i < input.tokens.size := h.trans_le limit_le_size
  have hne := Array.not_of_lt_findIdx h
  simpa [kind, token, hi] using hne

theorem kind_limit : input.kind input.limit = .endOfInput := by
  by_cases h : input.limit < input.tokens.size
  · have hend : input.tokens[input.limit].kind = .endOfInput :=
      of_decide_eq_true (Array.findIdx_getElem (w := h))
    rw [kind, token, Array.getElem?_eq_getElem h]
    exact hend
  · exact Cursor.kind_of_size_le (Nat.le_of_not_lt h)

theorem limit_le (h : input.kind i = .endOfInput) : input.limit ≤ i :=
  Nat.le_of_not_lt fun hlt => kind_ne_of_lt_limit hlt h

theorem lt_limit (hi : i ≤ input.limit) (h : input.kind i ≠ .endOfInput) : i < input.limit :=
  hi.lt_of_ne fun he => h (he ▸ kind_limit)

end Input

/-- A call lies before an index: an identifier, and straight behind it the parentheses, with matched
parentheses only between them. -/
structure CallSite.Lies (input : Input) (pos : Nat) (site : CallSite) : Prop where
  name : input.kind site.name = .identifier
  adjacent : site.opening = site.name + 1
  opening : input.kind site.opening = .lparen
  nonempty : site.opening < site.closing
  closing : input.kind site.closing = .rparen
  before : site.closing < pos
  matching : input.span (site.opening + 1) site.closing ∈ Grammar.balanced

/-- The arguments of a call are none, or the first and the last of their tokens exist and cut a part
out of the source. -/
def CallSite.Sliced (input : Input) (site : CallSite) : Prop :=
  site.opening + 1 = site.closing ∨
    site.opening + 1 < input.tokens.size ∧ site.closing - 1 < input.tokens.size ∧
      Cuts input.source (input.token (site.opening + 1)).start
        (input.token (site.closing - 1)).stop

/-- A primary lies behind the index it starts at, and the calls in it before the one it ends at. -/
structure Primary.Lies (input : Input) (start : Nat) (known : Primary) : Prop where
  nonempty : start < known.stop
  within : known.stop ≤ input.limit
  matching : input.span start known.stop ∈ Grammar.balanced
  calls : ∀ site ∈ known.calls, site.Lies input known.stop

theorem CallSite.Lies.mono {input : Input} {pos pos' : Nat} {site : CallSite}
    (h : site.Lies input pos) (hle : pos ≤ pos') : site.Lies input pos' :=
  { h with before := h.before.trans_le hle }

theorem CallSite.Lies.name_lt {input : Input} {pos : Nat} {site : CallSite}
    (h : site.Lies input pos) : site.name < pos := by
  have hadjacent := h.adjacent
  have hnonempty := h.nonempty
  have hbefore := h.before
  omega

/-! ## Stages -/

/-- How far a run has come: the levels of nesting it is in, and the cursor. -/
structure Stage where
  depth : Nat
  cursor : Cursor

namespace Stage

/-- One level further in. -/
def enter (s : Stage) : Stage := { s with depth := s.depth + 1 }

/-- One level further out. -/
def leave (s : Stage) : Stage := { s with depth := s.depth - 1 }

/-- The stage after a first attempt has failed that started at `before`. -/
def rewind (s before : Stage) : Stage := { s with cursor := s.cursor.rewind before.cursor }

/-- The stage at the end of a primary that was read before. -/
def skip (s : Stage) (known : Primary) : Stage := { s with cursor := s.cursor.skip known }

/-- Remembers the primary that was read since the stage `before`. -/
def remember (s before : Stage) : Stage := { s with cursor := s.cursor.remember before.cursor }

/-- No level too many, no token behind the end of input, and all calls that are kept or remembered
lie where they should. -/
structure Sane (input : Input) (s : Stage) : Prop where
  depth : s.depth ≤ maxNesting
  pos : s.cursor.pos ≤ input.limit
  calls : ∀ site ∈ s.cursor.calls, site.Lies input s.cursor.pos
  memory : ∀ start (known : Primary), s.cursor.memory[start]? = some known →
    known.Lies input start

variable {input : Input} {s s' : Stage} {c : Cursor}

theorem Sane.pos_le_size (h : s.Sane input) : s.cursor.pos ≤ input.tokens.size :=
  h.pos.trans Input.limit_le_size

theorem Sane.of_same (h : s.Sane input) (hp : c.pos = s.cursor.pos)
    (hc : ∀ site ∈ c.calls, site ∈ s.cursor.calls) (hm : c.memory = s.cursor.memory) :
    (⟨s.depth, c⟩ : Stage).Sane input where
  depth := h.depth
  pos := hp.trans_le h.pos
  calls site hsite := hp ▸ h.calls site (hc site hsite)
  memory := hm ▸ h.memory

theorem Sane.note (h : s.Sane input) (kind : Kind) :
    (⟨s.depth, s.cursor.note kind⟩ : Stage).Sane input :=
  h.of_same rfl (fun _ => id) rfl

theorem Sane.noteAll (h : s.Sane input) (kinds : List Kind) :
    (⟨s.depth, s.cursor.noteAll kinds⟩ : Stage).Sane input :=
  h.of_same (by simp) (by simp) (by simp)

theorem Sane.next (h : s.Sane input) (hk : input.kind s.cursor.pos ≠ .endOfInput) :
    (⟨s.depth, s.cursor.next⟩ : Stage).Sane input where
  depth := h.depth
  pos := Input.lt_limit h.pos hk
  calls site hsite := (h.calls site hsite).mono (Nat.le_succ _)
  memory := h.memory

theorem Sane.skip (h : s.Sane input) {known : Primary}
    (hk : s.cursor.memory[s.cursor.pos]? = some known) : (s.skip known).Sane input where
  depth := h.depth
  pos := (h.memory _ _ hk).within
  calls site hsite := by
    rcases List.mem_append.1 hsite with hold | hnew
    · exact (h.calls site hold).mono (h.memory _ _ hk).nonempty.le
    · exact (h.memory _ _ hk).calls site hnew
  memory := h.memory

theorem Sane.remember (h : s'.Sane input) (hlt : s.cursor.pos < s'.cursor.pos)
    (hspan : input.span s.cursor.pos s'.cursor.pos ∈ Grammar.balanced) :
    (s'.remember s).Sane input where
  depth := h.depth
  pos := h.pos
  calls := h.calls
  memory start known hknown := by
    rw [Stage.remember, Cursor.getElem?_remember] at hknown
    split at hknown
    next hstart =>
      cases hknown
      exact ⟨hstart ▸ hlt, h.pos, hstart ▸ hspan,
        fun site hsite => h.calls site (List.mem_of_mem_drop hsite)⟩
    next => exact h.memory start known hknown

/-- After an attempt that kept the calls from before it, these are the calls again. -/
theorem Sane.rewind (h : s.Sane input) (h' : s'.Sane input)
    (hcalls : s.cursor.calls <+: s'.cursor.calls) : (s'.rewind s).Sane input where
  depth := h'.depth
  pos := h.pos
  calls site hsite := h.calls site (by rwa [List.prefix_iff_eq_take.1 hcalls])
  memory := h'.memory

theorem sane_initial (input : Input) : (⟨0, .initial⟩ : Stage).Sane input where
  depth := Nat.zero_le _
  pos := Nat.zero_le _
  calls _ hsite := absurd hsite List.not_mem_nil
  memory start known h := by simp [Cursor.initial] at h

end Stage

/-! ## Acts -/

/-- What a parse does to its tokens, one act at a time. -/
inductive Act : Type → Type
  | check (kind : Kind) : Act Bool
  | checkAny (kinds : List Kind) : Act Bool
  | advance : Act Unit
  | expect (kind : Kind) : Act Token
  | expectEnd : Act Unit
  | position : Act Nat
  | currentKind : Act Kind
  | kindAt (i : Nat) : Act Kind
  | forgetCalls : Act Unit
  | callSite (site : CallSite) : Act Unit
  | textFrom (start : Nat) : Act String
  | plainFrom (start : Nat) : Act Item
  | wholeCall? (start stop : Nat) : Act (Option Call)

namespace Act

/-- The step that an act is. -/
def step {α : Type} : Act α → ParseM α
  | check kind => ParseM.check kind
  | checkAny kinds => ParseM.checkAny kinds
  | advance => ParseM.advance
  | expect kind => ParseM.expect kind
  | expectEnd => do let _ ← ParseM.expect .endOfInput
  | position => ParseM.position
  | currentKind => ParseM.currentKind
  | kindAt i => return (← read).kind i
  | forgetCalls => modify Cursor.forgetCalls
  | callSite site => Parse.callSite site
  | textFrom start => Parse.textFrom start
  | plainFrom start => Parse.plainFrom start
  | wholeCall? start stop => Parse.wholeCall? start stop

/-- What an act asks of the cursor: a call that is noted lies before it, and what is taken as text
is a slice of the tokens and of the source. -/
def InRange {α : Type} (input : Input) (c : Cursor) : Act α → Prop
  | expect kind => kind ≠ .endOfInput
  | callSite site => site.Lies input c.pos
  | textFrom start | plainFrom start => start ≤ c.pos ∧ c.pos ≤ input.tokens.size
  | wholeCall? start stop =>
    ∀ site ∈ c.calls, site.name = start → site.closing + 1 = stop → site.Sliced input
  | _ => True

variable {α : Type} {input : Input} {s : Stage}

theorem run_callSite {c : Cursor} (site : CallSite) : (Parse.callSite site).run input c =
    match input.registry (input.token site.name).image with
    | some _ => .ok () (c.addCall site)
    | none => .error (.unknownFunction (input.token site.name)) c := by
  unfold Parse.callSite
  rw [run_bind_of_ok run_read, run_bind_of_ok run_read]
  cases input.registry (input.token site.name).image <;> rfl

theorem ends_callSite {c : Cursor} {site : CallSite} {Q : Unit → Cursor → Prop}
    {E : Failure → Cursor → Prop} (h : Q () (c.addCall site))
    (h' : E (.unknownFunction (input.token site.name)) c) :
    (Parse.callSite site).Ends input c Q E := by
  unfold Ends
  rw [run_callSite]
  cases input.registry (input.token site.name).image with
  | none => exact h'
  | some _ => exact h

/-- An act leads from a sane stage to a sane one. -/
theorem ends_sane (act : Act α) (hs : s.Sane input) (hr : act.InRange input s.cursor) :
    act.step.Ends input s.cursor (fun _ c => (⟨s.depth, c⟩ : Stage).Sane input)
      fun _ c => (⟨s.depth, c⟩ : Stage).Sane input := by
  cases act with
  | check kind => exact ends_check (hs.note kind)
  | checkAny kinds => exact ends_checkAny (hs.noteAll kinds)
  | advance =>
    by_cases hk : input.kind s.cursor.pos = .endOfInput
    · exact ends_of_ok (run_advance_of_end hk) hs
    · exact ends_advance hk (hs.next hk)
  | expect kind =>
    refine ends_expect hr (fun he => ?_) fun _ => hs.note kind
    exact (hs.note kind).next (by rw [Cursor.note_pos, he]; exact hr)
  | expectEnd =>
    refine ends_map ?_
    by_cases hk : input.kind s.cursor.pos = .endOfInput
    · exact ends_of_ok (run_expect_end hk) (hs.note _)
    · exact ends_of_error (run_expect_of_ne hk) (hs.note _)
  | position => exact ends_of_ok run_position hs
  | currentKind => exact ends_of_ok run_currentKind hs
  | kindAt i => exact ends_of_ok rfl hs
  | forgetCalls =>
    exact ends_of_ok (run_modify _) (hs.of_same rfl (fun _ h => absurd h List.not_mem_nil) rfl)
  | callSite site =>
    refine ends_callSite { hs with calls := ?_ } hs
    intro other hother
    rcases List.mem_append.1 hother with hold | hnew
    · exact hs.calls other hold
    · exact List.mem_singleton.1 hnew ▸ hr
  | textFrom start => exact ends_of_ok rfl hs
  | plainFrom start => exact ends_of_ok rfl hs
  | wholeCall? start stop => exact ends_of_ok (run_wholeCall? start stop) hs

end Act

/-! ## Remembered primaries -/

section

variable {input : Input} {c : Cursor} {primary : ParseM Unit}

theorem run_remembering_of_known (hr : input.remembers = true) {known : Primary}
    (h : c.memory[c.pos]? = some known) :
    (remembering primary).run input c = .ok () (c.skip known) := by
  unfold remembering run
  simp only [hr, if_true, h]

theorem run_remembering_of_unknown (hr : input.remembers = true) (h : c.memory[c.pos]? = none) :
    (remembering primary).run input c = match primary.run input c with
      | .ok () c' => .ok () (c'.remember c)
      | failed => failed := by
  change (if input.remembers then _ else _) = _
  rw [if_pos hr]
  split
  next known hknown =>
    rw [h] at hknown
    cases hknown
  next => rfl

end

/-! ## Nested productions -/

/-- The productions that count as a level of nesting. -/
inductive Part : Type → Type
  | statement : Part Item
  | expression : Part Unit
  | init : Part Unit
  | operand : Part Unit

namespace Part

variable {α : Type}

/-- The production where it is nested in another. -/
def get (inner : Nested) : Part α → ParseM α
  | statement => inner.statement
  | expression => inner.expression
  | init => inner.init
  | operand => inner.operand

/-- The production one level further in. -/
def body (inner : Nested) : Part α → ParseM α
  | statement => inner.statementBody
  | expression => inner.expressionBody
  | init => inner.initBody
  | operand => inner.operandBody

/-- Above the last level a nested production is what it is one level further in. -/
theorem get_of_lt (part : Part α) {depth : Nat} (h : depth < maxNesting) :
    part.get (.ofLevels (maxNesting - depth)) =
      part.body (.ofLevels (maxNesting - (depth + 1))) := by
  have hleft : maxNesting - depth = maxNesting - (depth + 1) + 1 := by omega
  rw [hleft]
  cases part <;> rfl

/-- On the last level no production is nested. -/
theorem get_of_eq (part : Part α) {depth : Nat} (h : depth = maxNesting) :
    part.get (.ofLevels (maxNesting - depth)) = failTooDeep := by
  rw [h, Nat.sub_self]
  cases part <;> rfl

end Part

/-! ## Courses -/

/-- What one more round of a loop comes to: it is the last, or the invariant holds again further on.
-/
def Round {β : Type} (I Q : List β → Stage → Prop) (bs : List β) (s : Stage) :
    Option β → Stage → Prop
  | none, s' => Q bs s'
  | some b, s' => I (bs ++ [b]) s' ∧ s.cursor.pos < s'.cursor.pos

/-- Started at the stage, an open production acts in range and at sane stages only, as long as it
runs; done, it answers as in `Q`, and failed, it is as in `E`. -/
inductive Course (input : Input) : {α : Type} → (Nested → ParseM α) → Stage →
    (α → Stage → Prop) → (Failure → Stage → Prop) → Prop
  | pure {α : Type} {Q : α → Stage → Prop} {E : Failure → Stage → Prop} {s : Stage} {a : α}
    (hs : s.Sane input) (h : Q a s) : Course input (fun _ => pure a) s Q E
  | mismatch {α : Type} {Q : α → Stage → Prop} {E : Failure → Stage → Prop} {s : Stage}
    (hs : s.Sane input) (h : E .mismatch s) : Course input (fun _ => throw .mismatch) s Q E
  | act {α : Type} {Q : α → Stage → Prop} {E : Failure → Stage → Prop} {s : Stage} {a : Act α}
    (hs : s.Sane input) (hr : a.InRange input s.cursor)
    (h : a.step.Ends input s.cursor (fun b c => Q b ⟨s.depth, c⟩) fun e c => E e ⟨s.depth, c⟩) :
    Course input (fun _ => a.step) s Q E
  | bind {α β : Type} {Q : α → Stage → Prop} {E : Failure → Stage → Prop} {s : Stage}
    {P : Nested → ParseM β} {F : β → Nested → ParseM α} {R : β → Stage → Prop}
    (h : Course input P s R E)
    (hnext : ∀ b s', s'.Sane input → R b s' → Course input (F b) s' Q E) :
    Course input (fun inner => P inner >>= fun b => F b inner) s Q E
  -- `D` is about the first attempt alone: the second starts anew, but with what was remembered
  | orElse {α : Type} {Q : α → Stage → Prop} {E D : Failure → Stage → Prop} {s : Stage}
    {first second : Nested → ParseM α} (h : Course input first s Q D)
    (hfatal : ∀ e s', e ≠ .mismatch → D e s' → E e s')
    (hnext : ∀ s', s'.Sane input → D .mismatch s' → Course input second (s'.rewind s) Q E) :
    Course input (fun inner => orElse (first inner) (second inner)) s Q E
  | known {Q : Unit → Stage → Prop} {E : Failure → Stage → Prop} {s : Stage}
    {P : Nested → ParseM Unit} {known : Primary} (hr : input.remembers = true) (hs : s.Sane input)
    (hknown : s.cursor.memory[s.cursor.pos]? = some known) (h : Q () (s.skip known)) :
    Course input (fun inner => remembering (P inner)) s Q E
  | unknown {Q : Unit → Stage → Prop} {E : Failure → Stage → Prop} {s : Stage}
    {P : Nested → ParseM Unit} (hr : input.remembers = true)
    (hunknown : s.cursor.memory[s.cursor.pos]? = none)
    (h : Course input P s (fun _ s' => (s'.remember s).Sane input ∧ Q () (s'.remember s)) E) :
    Course input (fun inner => remembering (P inner)) s Q E
  -- each round but the last moves on, so the loop ends before the tokens do
  | many {β : Type} {Q : List β → Stage → Prop} {E : Failure → Stage → Prop} {s : Stage}
    {P : Nested → ParseM (Option β)} (I : List β → Stage → Prop) (hs : s.Sane input) (h : I [] s)
    (hround : ∀ bs s', s'.Sane input → I bs s' → Course input P s' (Round I Q bs s') E) :
    Course input (fun inner => many (P inner)) s Q E
  -- the body acts one level further in, and answers when it is back out again
  | nested {α : Type} {Q : α → Stage → Prop} {E : Failure → Stage → Prop} {s : Stage}
    {part : Part α} (hs : s.Sane input) (hlt : s.depth < maxNesting)
    (h : Course input (fun inner => part.body inner) s.enter (fun a s' => Q a s'.leave)
      fun e s' => E e s'.leave) : Course input (fun inner => part.get inner) s Q E
  | tooDeep {α : Type} {Q : α → Stage → Prop} {E : Failure → Stage → Prop} {s : Stage}
    {part : Part α} (hs : s.Sane input) (heq : s.depth = maxNesting)
    (h : E (.tooDeep (input.token s.cursor.pos)) s) :
    Course input (fun inner => part.get inner) s Q E

namespace Course

variable {input : Input} {α β : Type} {P : Nested → ParseM α} {s : Stage}
  {Q Q' : α → Stage → Prop} {E E' : Failure → Stage → Prop}

theorem mono (h : Course input P s Q E) (hQ : ∀ a s', Q a s' → Q' a s')
    (hE : ∀ e s', E e s' → E' e s') : Course input P s Q' E' := by
  induction h generalizing E' with
  | pure hs h => exact .pure hs (hQ _ _ h)
  | mismatch hs h => exact .mismatch hs (hE _ _ h)
  | act hs hr h => exact .act hs hr (h.mono (fun _ _ => hQ _ _) fun _ _ => hE _ _)
  | bind _ _ ih ihnext =>
    exact .bind (ih (fun _ _ => id) hE) fun b s' hs' hb => ihnext b s' hs' hb hQ hE
  | orElse _ hfatal _ ih ihnext =>
    exact .orElse (ih hQ fun _ _ => id) (fun e s' he h => hE _ _ (hfatal e s' he h))
      fun s' hs' h => ihnext s' hs' h hQ hE
  | known hr hs hknown h => exact .known hr hs hknown (hQ _ _ h)
  | unknown hr hunknown _ ih =>
    exact .unknown hr hunknown (ih (fun _ _ h => ⟨h.1, hQ _ _ h.2⟩) hE)
  | many I hs h _ ih =>
    refine .many I hs h fun bs s' hs' hI => ih bs s' hs' hI (fun b s'' hb => ?_) hE
    cases b with
    | none => exact hQ _ _ hb
    | some b => exact hb
  | nested hs hlt _ ih => exact .nested hs hlt (ih (fun _ _ => hQ _ _) fun _ _ => hE _ _)
  | tooDeep hs heq h => exact .tooDeep hs heq (hE _ _ h)

/-- A production ends on the level it started at, whether it is done or has failed. -/
theorem depth (h : Course input P s Q E) :
    Course input P s (fun a s' => s'.depth = s.depth ∧ Q a s')
      fun e s' => s'.depth = s.depth ∧ E e s' := by
  induction h with
  | pure hs h => exact .pure hs ⟨rfl, h⟩
  | mismatch hs h => exact .mismatch hs ⟨rfl, h⟩
  | act hs hr h => exact .act hs hr (h.mono (fun _ _ h => ⟨rfl, h⟩) fun _ _ h => ⟨rfl, h⟩)
  | bind _ _ ih ihnext =>
    exact .bind ih fun b s' hs' hb => (ihnext b s' hs' hb.2).mono
      (fun _ _ h => ⟨h.1.trans hb.1, h.2⟩) fun _ _ h => ⟨h.1.trans hb.1, h.2⟩
  | orElse _ hfatal _ ih ihnext =>
    exact .orElse ih (fun e s' he h => ⟨h.1, hfatal e s' he h.2⟩)
      fun s' hs' h => (ihnext s' hs' h.2).mono
        (fun _ _ h' => ⟨h'.1.trans h.1, h'.2⟩) fun _ _ h' => ⟨h'.1.trans h.1, h'.2⟩
  | known hr hs hknown h => exact .known hr hs hknown ⟨rfl, h⟩
  | unknown hr hunknown _ ih =>
    exact .unknown hr hunknown (ih.mono (fun _ _ h => ⟨h.2.1, h.1, h.2.2⟩) fun _ _ => id)
  | @many _ _ _ s _ I hs h _ ih =>
    refine .many (fun bs s' => s'.depth = s.depth ∧ I bs s') hs ⟨rfl, h⟩ fun bs s' hs' hI => ?_
    refine (ih bs s' hs' hI.2).mono (fun b s'' hb => ?_) fun e s'' he => ⟨he.1.trans hI.1, he.2⟩
    cases b with
    | none => exact ⟨hb.1.trans hI.1, hb.2⟩
    | some b => exact ⟨⟨hb.1.trans hI.1, hb.2.1⟩, hb.2.2⟩
  | nested hs hlt _ ih =>
    exact .nested hs hlt (ih.mono (fun _ _ h => ⟨congrArg (· - 1) h.1, h.2⟩)
      fun _ _ h => ⟨congrArg (· - 1) h.1, h.2⟩)
  | tooDeep hs heq h => exact .tooDeep hs heq ⟨rfl, h⟩

/-- The run with the levels that are left ends as its course says: at a sane stage on the level it
started at. -/
theorem ends (h : Course input P s Q E) :
    (P (.ofLevels (maxNesting - s.depth))).Ends input s.cursor
      (fun a c => (⟨s.depth, c⟩ : Stage).Sane input ∧ Q a ⟨s.depth, c⟩)
      fun e c => (⟨s.depth, c⟩ : Stage).Sane input ∧ E e ⟨s.depth, c⟩ := by
  induction h with
  | pure hs h => exact ends_pure ⟨hs, h⟩
  | mismatch hs h => exact ends_throw ⟨hs, h⟩
  | act hs hr h => exact (Act.ends_sane _ hs hr).and h
  | bind _ _ ih ihnext =>
    exact ends_bind (ih.mono (fun b c hb => ihnext b ⟨_, c⟩ hb.1 hb.2) fun _ _ => id)
  | @orElse _ _ _ _ s first second _ hfatal _ ih ihnext =>
    unfold Ends at ih ⊢
    rw [run_orElse]
    -- only a mismatch leads to the second attempt; other failures end both
    cases hrun : (first (.ofLevels (maxNesting - s.depth))).run input s.cursor with
    | ok a c => simpa only [hrun] using ih
    | error e c =>
      rw [hrun] at ih
      cases e with
      | mismatch => exact ihnext ⟨s.depth, c⟩ ih.1 ih.2
      | unknownFunction | tooDeep => exact ⟨ih.1, hfatal _ _ (by simp) ih.2⟩
  | known hr hs hknown h =>
    exact ends_of_ok (run_remembering_of_known hr hknown) ⟨hs.skip hknown, h⟩
  | @unknown _ _ s P hr hunknown _ ih =>
    unfold Ends at ih ⊢
    rw [run_remembering_of_unknown hr hunknown]
    cases hrun : (P (.ofLevels (maxNesting - s.depth))).run input s.cursor with
    | ok a c =>
      rw [hrun] at ih
      exact ih.2
    | error e c => simpa only [hrun] using ih
  | @many _ _ _ s _ I hs h _ ih =>
    refine ends_many (I := fun bs c => (⟨s.depth, c⟩ : Stage).Sane input ∧ I bs ⟨s.depth, c⟩)
      (fun bs c hI => hI.1.pos_le_size) (fun bs c hI => ?_) ⟨hs, h⟩
    refine (ih bs ⟨s.depth, c⟩ hI.1 hI.2).mono (fun b c' hb => ?_) fun _ _ => id
    cases b with
    | none => exact hb
    | some b => exact ⟨⟨hb.1, hb.2.1⟩, hb.2.2⟩
  | @nested _ _ _ s part hs hlt _ ih =>
    dsimp only
    rw [Part.get_of_lt part hlt]
    exact ih.mono (fun a c ha => ⟨{ ha.1 with depth := hs.depth }, ha.2⟩)
      fun e c he => ⟨{ he.1 with depth := hs.depth }, he.2⟩
  | tooDeep hs heq h =>
    dsimp only
    rw [Part.get_of_eq _ heq]
    exact ends_of_error run_failTooDeep ⟨hs, h⟩

end Course

end Botscript.Parse
