import Botscript.Proofs.Parse.Course

/-!
# Going on

A production that goes on has a course from every sane stage: it never ends in front of the token
it started at, keeps the calls it found, and closes each parenthesis that it opens. `Goes` says so
with the number of tokens that are taken at least, and is closed under the combinators. A token that
is no parenthesis is taken by itself (`Goes.IsMark`), parentheses only as a group (`Goes.parens`).
-/

namespace Botscript.Parse

open Token ParseM

/-! ## Stages that follow each other -/

namespace Stage

/-- The calls in `base` are still there. -/
def Keeps (base : List CallSite) (s s' : Stage) : Prop :=
  base <+: s.cursor.calls → base <+: s'.cursor.calls

/-- Some tokens were taken, a number of them at least, that are matched in their parentheses, and
the calls in `base` are still there. -/
structure Onward (input : Input) (base : List CallSite) (least : Nat) (s s' : Stage) : Prop where
  pos : s.cursor.pos + least ≤ s'.cursor.pos
  calls : s.Keeps base s'
  matching : input.span s.cursor.pos s'.cursor.pos ∈ Grammar.balanced

/-- Nothing was taken. -/
structure Stays (s s' : Stage) : Prop where
  pos : s'.cursor.pos = s.cursor.pos
  calls : s'.cursor.calls = s.cursor.calls

/-- One token was taken. -/
structure Passes (s s' : Stage) : Prop where
  pos : s'.cursor.pos = s.cursor.pos + 1
  calls : s'.cursor.calls = s.cursor.calls

variable {input : Input} {base : List CallSite} {m n : Nat} {s s₁ s₂ s₃ : Stage}

theorem Keeps.trans (h : s.Keeps base s₁) (h' : s₁.Keeps base s₂) : s.Keeps base s₂ := h' ∘ h

theorem Stays.keeps (h : s.Stays s₁) : s.Keeps base s₁ := fun hbase => by rwa [h.calls]

theorem Passes.keeps (h : s.Passes s₁) : s.Keeps base s₁ := fun hbase => by rwa [h.calls]

theorem stays_noteAll (s : Stage) (kinds : List Kind) :
    s.Stays ⟨s.depth, s.cursor.noteAll kinds⟩ :=
  ⟨s.cursor.noteAll_pos kinds, s.cursor.noteAll_calls kinds⟩

theorem Stays.onward (h : s.Stays s₁) : s.Onward input base 0 s₁ where
  pos := h.pos.ge
  calls := h.keeps
  matching := by
    rw [h.pos, Input.span_self]
    exact Grammar.hereditary_balanced.one ((Language.mem_one _).2 rfl)

theorem Onward.trans (h : s.Onward input base m s₁) (h' : s₁.Onward input base n s₂) :
    s.Onward input base (m + n) s₂ where
  pos := by
    have hfirst := h.pos
    have hsecond := h'.pos
    omega
  calls := h.calls.trans h'.calls
  matching := by
    rw [← Input.span_append (Nat.le_of_add_right_le h.pos) (Nat.le_of_add_right_le h'.pos)]
    exact Grammar.append_mem_balanced h.matching h'.matching

theorem Onward.weaken (h : s.Onward input base m s₁) (hle : n ≤ m) : s.Onward input base n s₁ :=
  { h with pos := (Nat.add_le_add_left hle _).trans h.pos }

/-- A token that is no parenthesis was taken. -/
theorem Passes.onward (h : s.Passes s₁) {kind : Kind} (hk : input.kind s.cursor.pos = kind)
    (hmark : kind ∉ [Kind.lparen, .rparen, .endOfInput]) : s.Onward input base 1 s₁ where
  pos := h.pos.ge
  calls := h.keeps
  matching := by
    have hlt : s.cursor.pos < input.tokens.size :=
      Cursor.lt_size_of_kind fun he => hmark (by simp [← hk, he])
    rw [h.pos, Input.span_concat le_rfl hlt, Input.span_self]
    exact Grammar.hereditary_balanced.mark kind hmark ⟨_, rfl, List.mem_singleton.2 hk⟩

/-- A group in parentheses was taken: the opening one, what is matched, and the closing one. -/
theorem Passes.parens (hopen : s.Passes s₁) (hlparen : input.kind s.cursor.pos = .lparen)
    (h : s₁.Onward input base n s₂) (hclose : s₂.Passes s₃)
    (hrparen : input.kind s₂.cursor.pos = .rparen) : s.Onward input base 1 s₃ where
  pos := by
    have hinner := h.pos
    rw [hopen.pos] at hinner
    rw [hclose.pos]
    omega
  calls := (hopen.keeps.trans h.calls).trans hclose.keeps
  matching := by
    have hinner := h.pos
    rw [hopen.pos] at hinner
    have hlt : s₂.cursor.pos < input.tokens.size :=
      Cursor.lt_size_of_kind (by simp [hrparen])
    have hspan := h.matching
    rw [hopen.pos] at hspan
    rw [hclose.pos, Input.span_cons (by omega) hlt, Input.span_concat (by omega) hlt]
    exact Grammar.parens_le_balanced ⟨_, ⟨_, rfl, List.mem_singleton.2 hlparen⟩, _,
      ⟨_, hspan, _, ⟨_, rfl, List.mem_singleton.2 hrparen⟩, rfl⟩, rfl⟩

end Stage

/-! ## Courses of steps -/

theorem ParseM.check_eq_checkAny (kind : Kind) : check kind = checkAny [kind] := by
  unfold check checkAny
  simp [Cursor.noteAll]

namespace Course

variable {input : Input} {α β : Type} {s : Stage} {P P' : Nested → ParseM α}
  {Q : α → Stage → Prop} {E : Failure → Stage → Prop}

theorem ite {p : Prop} [Decidable p] (h : p → Course input P s Q E)
    (h' : ¬p → Course input P' s Q E) :
    Course input (fun inner => if p then P inner else P' inner) s Q E := by
  by_cases hp : p
  · simpa only [if_pos hp] using h hp
  · simpa only [if_neg hp] using h' hp

/-- What follows starts on the same level of nesting. -/
theorem seq {P : Nested → ParseM β} {F : β → Nested → ParseM α} {R : β → Stage → Prop}
    (h : Course input P s R E)
    (hnext : ∀ b s', s'.depth = s.depth → s'.Sane input → R b s' → Course input (F b) s' Q E) :
    Course input (fun inner => P inner >>= fun b => F b inner) s Q E :=
  .bind (h.depth.mono (fun _ _ => id) fun _ _ he => he.2)
    fun b s' hs' hb => hnext b s' hb.1 hs' hb.2

/-- Where a production is done, the stage is sane. -/
theorem done (h : Course input P s Q E) :
    Course input P s (fun a s' => s'.Sane input ∧ Q a s') E := by
  have hdone : Course input (fun inner => P inner >>= Pure.pure) s
      (fun a s' => s'.Sane input ∧ Q a s') E := h.bind fun a s' hs' ha => .pure hs' ⟨hs', ha⟩
  simpa only [bind_pure] using hdone

theorem map {f : β → α} {P : Nested → ParseM β} (h : Course input P s (fun b => Q (f b)) E) :
    Course input (fun inner => f <$> P inner) s Q E := by
  simp only [map_eq_pure_bind]
  exact h.bind fun b s' hs' hb => .pure hs' hb

theorem checkAny {Q : Bool → Stage → Prop} {kinds : List Kind} (hs : s.Sane input)
    (h : ∀ s', s.Stays s' → Q (decide (input.kind s.cursor.pos ∈ kinds)) s') :
    Course input (fun _ => ParseM.checkAny kinds) s Q E :=
  .act (a := .checkAny kinds) hs trivial (ends_checkAny (h _ (s.stays_noteAll kinds)))

theorem advance {Q : Unit → Stage → Prop} (hs : s.Sane input)
    (hk : input.kind s.cursor.pos ≠ .endOfInput) (h : ∀ s', s.Passes s' → Q () s') :
    Course input (fun _ => ParseM.advance) s Q E :=
  .act (a := .advance) hs trivial (ends_advance hk (h _ ⟨rfl, rfl⟩))

/-- An act that only looks leaves the stage as it is. -/
theorem look {F : β → Nested → ParseM α} {a : Act β} {b : β} (hs : s.Sane input)
    (hr : a.InRange input s.cursor) (hrun : a.step.run input s.cursor = .ok b s.cursor)
    (h : Course input (F b) s Q E) :
    Course input (fun inner => a.step >>= fun b => F b inner) s Q E := by
  refine .bind (R := fun b' s' => b' = b ∧ s' = s) (.act hs hr (ends_of_ok hrun ⟨rfl, rfl⟩)) ?_
  rintro _ _ - ⟨rfl, rfl⟩
  exact h

theorem expect {Q : Token → Stage → Prop} {kind : Kind} (hk : kind ≠ .endOfInput)
    (hs : s.Sane input)
    (h : input.kind s.cursor.pos = kind → ∀ s', s.Passes s' → Q (input.token s.cursor.pos) s')
    (h' : ∀ s', s.Stays s' → E .mismatch s') :
    Course input (fun _ => ParseM.expect kind) s Q E :=
  .act (a := .expect kind) hs hk
    (ends_expect hk (fun he => h he _ ⟨rfl, rfl⟩) fun _ => h' _ ⟨rfl, rfl⟩)

theorem eatAny {Q : Bool → Stage → Prop} {kinds : List Kind} (hk : .endOfInput ∉ kinds)
    (hs : s.Sane input)
    (h : input.kind s.cursor.pos ∈ kinds → ∀ s', s.Passes s' → Q true s')
    (h' : input.kind s.cursor.pos ∉ kinds → ∀ s', s.Stays s' → Q false s') :
    Course input (fun _ => ParseM.eatAny kinds) s Q E := by
  refine .bind (R := fun b s' => b = decide (input.kind s.cursor.pos ∈ kinds) ∧ s.Stays s')
    (checkAny hs fun s' hs' => ⟨rfl, hs'⟩) ?_
  rintro _ s₁ hs₁ ⟨rfl, hstay⟩
  refine ite (fun hmem => ?_) fun hmem => .pure hs₁ (h' (by simpa using hmem) _ hstay)
  have hmem : input.kind s.cursor.pos ∈ kinds := of_decide_eq_true hmem
  refine .bind (R := fun _ s' => s.Passes s') (advance hs₁ ?_ fun s' hs' => ?_)
    fun _ s' hs' hpass => .pure hs' (h hmem s' hpass)
  · rw [hstay.pos]
    exact fun he => hk (he ▸ hmem)
  · exact ⟨hs'.pos.trans (congrArg (· + 1) hstay.pos), hs'.calls.trans hstay.calls⟩

end Course

/-! ## Productions that go on -/

section

variable {α β : Type}

/-- From a stage the production goes on, by a number of tokens at least for each answer. -/
def GoesOn (input : Input) (base : List CallSite) (least : α → Nat) (P : Nested → ParseM α)
    (s : Stage) : Prop :=
  Course input P s (fun a s' => s.Onward input base (least a) s') fun _ s' => s.Keeps base s'

/-- The production goes on from every sane stage on a level of nesting, from some token on. -/
def Goes (input : Input) (depth : Nat) (base : List CallSite) (floor : Nat) (least : α → Nat)
    (P : Nested → ParseM α) : Prop :=
  ∀ s : Stage, s.depth = depth → floor ≤ s.cursor.pos → s.Sane input →
    GoesOn input base least P s

variable {input : Input} {depth floor : Nat} {base : List CallSite} {s : Stage}
  {P P' : Nested → ParseM α} {m : Nat}

/-- What goes on behind some tokens goes on from in front of them. -/
theorem GoesOn.behind {least k : α → Nat} {s' : Stage} (h : GoesOn input base k P s')
    (hs : s.Onward input base m s') (hle : ∀ a, least a ≤ m + k a) :
    Course input P s' (fun a s'' => s.Onward input base (least a) s'')
      fun _ s'' => s.Keeps base s'' :=
  h.mono (fun a _ ha => (hs.trans ha).weaken (hle a)) fun _ _ he => hs.calls.trans he

theorem GoesOn.bind {R : Nested → ParseM β} {F : β → Nested → ParseM α} {least : α → Nat}
    {j : β → Nat} {k : β → α → Nat} (hR : GoesOn input base j R s)
    (hF : ∀ b, Goes input s.depth base floor (k b) (F b)) (hfloor : floor ≤ s.cursor.pos)
    (hle : ∀ b a, least a ≤ j b + k b a) :
    GoesOn input base least (fun inner => R inner >>= fun b => F b inner) s := by
  refine Course.seq hR fun b s' hdepth hs' hb => ?_
  exact (hF b s' hdepth (hfloor.trans (Nat.le_of_add_right_le hb.pos)) hs').behind hb (hle b)

/-- Whether there was one more. -/
def gain (o : Option α) : Nat := o.elim 0 fun _ => 1

theorem gain_le_one : ∀ o : Option α, gain o ≤ 1
  | none => Nat.zero_le 1
  | some _ => le_rfl

namespace Goes

variable {least : α → Nat}

theorem weaken {most : α → Nat} (h : Goes input depth base floor most P)
    (hle : ∀ a, least a ≤ most a) : Goes input depth base floor least P :=
  fun s hdepth hfloor hs => (h s hdepth hfloor hs).mono (fun a _ ha => ha.weaken (hle a))
    fun _ _ => id

theorem raise {low : Nat} (h : Goes input depth base low least P) (hle : low ≤ floor) :
    Goes input depth base floor least P :=
  fun s hdepth hfloor hs => h s hdepth (hle.trans hfloor) hs

theorem pure_of {a : α} (h : least a = 0) :
    Goes input depth base floor least fun _ => Pure.pure a :=
  fun s _ _ hs => .pure hs (h ▸ Stage.Stays.onward (s := s) ⟨rfl, rfl⟩)

theorem pure (a : α) : Goes input depth base floor (fun _ => 0) fun _ => Pure.pure a := pure_of rfl

theorem throw_mismatch : Goes input depth base floor least fun _ => throw .mismatch :=
  fun _ _ _ hs => .mismatch hs id

theorem bind_of_le {R : Nested → ParseM β} {F : β → Nested → ParseM α} {j : β → Nat}
    {k : β → α → Nat} (hR : Goes input depth base floor j R)
    (hF : ∀ b, Goes input depth base floor (k b) (F b)) (hle : ∀ b a, least a ≤ j b + k b a) :
    Goes input depth base floor least fun inner => R inner >>= fun b => F b inner := by
  rintro s rfl hfloor hs
  exact (hR s rfl hfloor hs).bind hF hfloor hle

theorem bind {R : Nested → ParseM β} {F : β → Nested → ParseM α} {j : β → Nat}
    {k : β → α → Nat} (hR : Goes input depth base floor j R)
    (hF : ∀ b, Goes input depth base floor (k b) (F b)) :
    Goes input depth base floor (fun _ => 0) fun inner => R inner >>= fun b => F b inner :=
  hR.bind_of_le hF fun _ _ => Nat.zero_le _

/-- The first production takes a token. -/
theorem bind_left {R : Nested → ParseM β} {F : β → Nested → ParseM α} {k : β → α → Nat}
    (hR : Goes input depth base floor (fun _ => 1) R)
    (hF : ∀ b, Goes input depth base floor (k b) (F b)) :
    Goes input depth base floor (fun _ => 1) fun inner => R inner >>= fun b => F b inner :=
  hR.bind_of_le hF fun _ _ => Nat.le_add_right _ _

/-- The second production takes a token. -/
theorem bind_right {R : Nested → ParseM β} {F : β → Nested → ParseM α} {j : β → Nat}
    (hR : Goes input depth base floor j R)
    (hF : ∀ b, Goes input depth base floor (fun _ => 1) (F b)) :
    Goes input depth base floor (fun _ => 1) fun inner => R inner >>= fun b => F b inner :=
  hR.bind_of_le hF fun _ _ => Nat.le_add_left _ _

theorem map {f : β → α} {R : Nested → ParseM β} {j : β → Nat}
    (hR : Goes input depth base floor j R) (hle : ∀ b, least (f b) ≤ j b) :
    Goes input depth base floor least fun inner => f <$> R inner :=
  fun s hdepth hfloor hs => .map ((hR s hdepth hfloor hs).mono
    (fun b _ hb => hb.weaken (hle b)) fun _ _ => id)

theorem position {F : Nat → Nested → ParseM α}
    (hF : ∀ start, floor ≤ start → Goes input depth base start least (F start)) :
    Goes input depth base floor least fun inner => ParseM.position >>= fun b => F b inner :=
  fun s hdepth hfloor hs => Course.look (a := .position) hs trivial run_position
    (hF _ hfloor s hdepth le_rfl hs)

/-! ### Tokens -/

theorem ifCheckAny_of {kinds : List Kind}
    (hP : ∀ s : Stage, s.depth = depth → floor ≤ s.cursor.pos → s.Sane input →
      input.kind s.cursor.pos ∈ kinds → GoesOn input base least P s)
    (hP' : Goes input depth base floor least P') :
    Goes input depth base floor least fun inner =>
      ParseM.checkAny kinds >>= fun b => if b = true then P inner else P' inner := by
  intro s hdepth hfloor hs
  refine Course.seq (R := fun b s' => b = decide (input.kind s.cursor.pos ∈ kinds) ∧ s.Stays s')
    (.checkAny hs fun s' hs' => ⟨rfl, hs'⟩) ?_
  rintro _ s₁ hdepth₁ hs₁ ⟨rfl, hstay⟩
  have hfloor₁ : floor ≤ s₁.cursor.pos := hfloor.trans_eq hstay.pos.symm
  refine Course.ite (fun hmem => ?_) fun _ => ?_
  · have hmem : input.kind s.cursor.pos ∈ kinds := of_decide_eq_true hmem
    rw [← hstay.pos] at hmem
    exact (hP s₁ (hdepth₁.trans hdepth) hfloor₁ hs₁ hmem).behind hstay.onward
      fun _ => Nat.le_add_left _ _
  · exact (hP' s₁ (hdepth₁.trans hdepth) hfloor₁ hs₁).behind hstay.onward
      fun _ => Nat.le_add_left _ _

theorem ifCheck_of {kind : Kind}
    (hP : ∀ s : Stage, s.depth = depth → floor ≤ s.cursor.pos → s.Sane input →
      input.kind s.cursor.pos = kind → GoesOn input base least P s)
    (hP' : Goes input depth base floor least P') :
    Goes input depth base floor least fun inner =>
      ParseM.check kind >>= fun b => if b = true then P inner else P' inner := by
  simp only [check_eq_checkAny]
  exact ifCheckAny_of
    (fun s hdepth hfloor hs hk => hP s hdepth hfloor hs (List.mem_singleton.1 hk)) hP'

theorem ifCheckAny {kinds : List Kind} (hP : Goes input depth base floor least P)
    (hP' : Goes input depth base floor least P') :
    Goes input depth base floor least fun inner =>
      ParseM.checkAny kinds >>= fun b => if b = true then P inner else P' inner :=
  ifCheckAny_of (fun s hdepth hfloor hs _ => hP s hdepth hfloor hs) hP'

theorem ifCheck {kind : Kind} (hP : Goes input depth base floor least P)
    (hP' : Goes input depth base floor least P') :
    Goes input depth base floor least fun inner =>
      ParseM.check kind >>= fun b => if b = true then P inner else P' inner :=
  ifCheck_of (fun s hdepth hfloor hs _ => hP s hdepth hfloor hs) hP'

/-- The kinds of tokens that are taken without regard to parentheses. -/
abbrev IsMark (kind : Kind) : Prop := kind ∉ [Kind.lparen, .rparen, .endOfInput]

theorem eatAny {kinds : List Kind} (hmark : ∀ kind ∈ kinds, IsMark kind) :
    Goes input depth base floor Bool.toNat fun _ => ParseM.eatAny kinds :=
  fun s _ _ hs => Course.eatAny (fun he => hmark _ he (by simp)) hs
    (fun hk _ hpass => hpass.onward rfl (hmark _ hk)) fun _ _ hstay => hstay.onward

theorem eat {kind : Kind} (hmark : IsMark kind) :
    Goes input depth base floor Bool.toNat fun _ => ParseM.eat kind := by
  simp only [eat_eq_eatAny]
  exact eatAny fun k hk => List.mem_singleton.1 hk ▸ hmark

theorem ifEatAny {kinds : List Kind} {k : α → Nat} (hmark : ∀ kind ∈ kinds, IsMark kind)
    (hP : Goes input depth base floor k P) (hP' : Goes input depth base floor least P')
    (hle : ∀ a, least a ≤ 1 + k a) :
    Goes input depth base floor least fun inner =>
      ParseM.eatAny kinds >>= fun b => if b = true then P inner else P' inner := by
  refine (eatAny hmark).bind_of_le (k := fun b => if b = true then k else least) ?_ ?_
  · rintro (_ | _)
    · exact hP'
    · exact hP
  · rintro (_ | _) a
    · exact Nat.le_add_left _ _
    · exact hle a

theorem ifEat {kind : Kind} {k : α → Nat} (hmark : IsMark kind)
    (hP : Goes input depth base floor k P) (hP' : Goes input depth base floor least P')
    (hle : ∀ a, least a ≤ 1 + k a) :
    Goes input depth base floor least fun inner =>
      ParseM.eat kind >>= fun b => if b = true then P inner else P' inner := by
  simp only [eat_eq_eatAny]
  exact ifEatAny (fun k hk => List.mem_singleton.1 hk ▸ hmark) hP hP' hle

theorem expect {kind : Kind} (hmark : IsMark kind) :
    Goes input depth base floor (fun _ => 1) fun _ => ParseM.expect kind :=
  fun _ _ _ hs => Course.expect (fun he => hmark (he ▸ by simp)) hs
    (fun hk _ hpass => hpass.onward hk hmark) fun _ hstay => hstay.keeps

/-- The current token is known to be no parenthesis. -/
theorem advance {kind : Kind} (hmark : IsMark kind) (hs : s.Sane input)
    (hk : input.kind s.cursor.pos = kind) :
    GoesOn input base (fun _ => 1) (fun _ => ParseM.advance) s :=
  Course.advance hs (fun he => hmark (by simp [← hk, he])) fun _ hpass => hpass.onward hk hmark

/-! ### Texts -/

theorem of_still {β : Type} {a : Act β}
    (hr : ∀ s : Stage, floor ≤ s.cursor.pos → s.Sane input → a.InRange input s.cursor)
    (hrun : ∀ c, ∃ b, a.step.run input c = .ok b c) :
    Goes input depth base floor (fun _ => 0) fun _ => a.step := by
  intro s _ hfloor hs
  obtain ⟨b, hb⟩ := hrun s.cursor
  exact .act hs (hr s hfloor hs) (ends_of_ok hb (Stage.Stays.onward (s := s) ⟨rfl, rfl⟩))

theorem textFrom (start : Nat) :
    Goes input depth base start (fun _ => 0) fun _ => Parse.textFrom start :=
  of_still (a := .textFrom start) (fun _ hfloor hs => ⟨hfloor, hs.pos_le_size⟩) fun _ => ⟨_, rfl⟩

theorem plainFrom (start : Nat) :
    Goes input depth base start (fun _ => 0) fun _ => Parse.plainFrom start :=
  of_still (a := .plainFrom start) (fun _ hfloor hs => ⟨hfloor, hs.pos_le_size⟩) fun _ => ⟨_, rfl⟩

/-! ### Loops -/

theorem many {R : Nested → ParseM (Option α)} (h : Goes input depth base floor gain R) :
    Goes input depth base floor (fun _ => 0) fun inner => ParseM.many (R inner) := by
  intro s hdepth hfloor hs
  -- each round starts on the same level again, which a round by itself does not say
  refine .many (fun _ s' => s'.depth = depth ∧ s.Onward input base 0 s') hs
    ⟨hdepth, Stage.Stays.onward (s := s) ⟨rfl, rfl⟩⟩ fun bs s' hs' hI => ?_
  have hfloor' : floor ≤ s'.cursor.pos := hfloor.trans hI.2.pos
  refine (Course.depth (h s' hI.1 hfloor' hs')).mono (fun b s'' hb => ?_)
    fun _ s'' he => hI.2.calls.trans he.2
  have honward := (hI.2.trans hb.2).weaken (Nat.zero_le _)
  cases b with
  | none => exact honward
  | some b => exact ⟨⟨hb.1.trans hI.1, honward⟩, hb.2.pos⟩

theorem thenSome {kinds : List Kind} (hmark : ∀ kind ∈ kinds, IsMark kind) {k : α → Nat}
    (hP : Goes input depth base floor k P) :
    Goes input depth base floor gain fun inner =>
      (do if ← ParseM.eatAny kinds then some <$> P inner else return none) :=
  ifEatAny (k := fun _ => 0) hmark (hP.map fun _ => Nat.zero_le _) (pure_of rfl) gain_le_one

theorem sepByComma (hP : Goes input depth base floor (fun _ => 1) P) :
    Goes input depth base floor (fun _ => 1) fun inner => ParseM.sepByComma (P inner) := by
  simp only [ParseM.sepByComma, manyAfterComma, eat_eq_eatAny]
  exact hP.bind_left fun _ => (many (thenSome (by decide) hP)).bind fun _ => pure _

theorem unlessAt {kind : Kind} {R : Nested → ParseM Unit} {k : Unit → Nat}
    (hR : Goes input depth base floor k R) :
    Goes input depth base floor (fun _ => 0) fun inner => ParseM.unlessAt kind (R inner) :=
  ifCheck (pure ()) (hR.weaken fun _ => Nat.zero_le _)

theorem upTo {kind : Kind} {R : Nested → ParseM Unit} {k : Unit → Nat} (hmark : IsMark kind)
    (hR : Goes input depth base floor k R) :
    Goes input depth base floor (fun _ => 1) fun inner => ParseM.upTo kind (R inner) :=
  bind_right (unlessAt hR) fun _ => position fun _ _ => bind_left (expect hmark) fun _ => pure _

/-! ### Parentheses -/

/-- Behind an opening parenthesis something goes on up to a closing one. -/
theorem closed {R : Nested → ParseM β} {F : β → Token → Nested → ParseM α} {k : β → Nat}
    {Q : α → Stage → Prop} {E : Failure → Stage → Prop} {s₁ : Stage} (hopen : s.Passes s₁)
    (hlparen : input.kind s.cursor.pos = .lparen) (hR : GoesOn input base k R s₁)
    (hF : ∀ b t s₃, s₃.depth = s₁.depth → s₃.Sane input → s.Onward input base 1 s₃ →
      Course input (F b t) s₃ Q E)
    (hE : ∀ e s', s.Keeps base s' → E e s') :
    Course input (fun inner => R inner >>= fun b => ParseM.expect .rparen >>= fun t => F b t inner)
      s₁ Q E := by
  refine Course.seq (.mono hR (fun _ _ => id) fun e s' he => hE e s' (hopen.keeps.trans he))
    fun b s₂ hdepth₂ hs₂ hb => ?_
  refine Course.seq (R := fun _ s₃ => s.Onward input base 1 s₃) (.expect (by decide) hs₂ ?_ ?_)
    fun t s₃ hdepth₃ => hF b t s₃ (hdepth₃.trans hdepth₂)
  · exact fun hrparen s₃ hclose => hopen.parens hlparen hb hclose hrparen
  · exact fun s' hstay => hE _ s' ((hopen.keeps.trans hb.calls).trans hstay.keeps)

theorem parens {R : Nested → ParseM β} {F : β → Nested → ParseM α} {j : β → Nat}
    {k : β → α → Nat} (hR : Goes input depth base 0 j R)
    (hF : ∀ b, Goes input depth base floor (k b) (F b)) :
    Goes input depth base floor (fun _ => 1) fun inner =>
      (do
        let _ ← ParseM.expect .lparen
        let b ← R inner
        let _ ← ParseM.expect .rparen
        F b inner) := by
  rintro s rfl hfloor hs
  refine Course.seq (R := fun _ s' => input.kind s.cursor.pos = .lparen ∧ s.Passes s')
    (.expect (by decide) hs (fun hk _ hpass => ⟨hk, hpass⟩) fun _ hstay => hstay.keeps)
    fun _ s₁ hdepth₁ hs₁ hopen => ?_
  refine closed hopen.2 hopen.1 (hR s₁ hdepth₁ (Nat.zero_le _) hs₁)
    (fun b _ s₃ hdepth₃ hs₃ honward => ?_) fun _ _ he => he
  exact (hF b s₃ (hdepth₃.trans hdepth₁) (hfloor.trans (Nat.le_of_add_right_le honward.pos))
    hs₃).behind honward fun _ => Nat.le_add_right _ _

/-- What is read up to a closing parenthesis is matched, and the parenthesis is behind it. -/
theorem upTo_rparen {R : Nested → ParseM Unit} {k : Unit → Nat}
    (hR : Goes input depth base floor k R) (hdepth : s.depth = depth)
    (hfloor : floor ≤ s.cursor.pos) (hs : s.Sane input) :
    Course input (fun inner => ParseM.upTo .rparen (R inner)) s
      (fun closing s' => ∃ s₁ : Stage, s.Onward input base 0 s₁ ∧ s₁.Passes s' ∧
        input.kind s₁.cursor.pos = .rparen ∧ closing = s₁.cursor.pos)
      fun _ s' => s.Keeps base s' := by
  refine Course.bind (unlessAt hR s hdepth hfloor hs) fun _ s₁ hs₁ honward => ?_
  refine Course.look (a := .position) hs₁ trivial run_position ?_
  refine Course.bind (R := fun _ s' => input.kind s₁.cursor.pos = .rparen ∧ s₁.Passes s')
    (.expect (by decide) hs₁ (fun hrparen _ hpass => ⟨hrparen, hpass⟩)
      fun _ hstay => honward.calls.trans hstay.keeps) fun _ s' hs' hclose => ?_
  exact .pure hs' ⟨s₁, honward, hclose.2, hclose.1, rfl⟩

end Goes

end

end Botscript.Parse
