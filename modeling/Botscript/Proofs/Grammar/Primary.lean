import Botscript.Proofs.Grammar.Reads
import Botscript.Proofs.Parse.Predictive

/-!
# Reading primaries

A primary of the predictive parser reads the words of `primary` (`Inner.primary`). Behind a name
that may not be called no arguments may stand; `behind` is what may follow at each place inside a
primary.
-/

namespace Botscript.Grammar

open Computability Token Parse ParseM

/-- The kinds that go on with an operand. -/
def behindOperand : List Kind := suffixStarts ++ postOperators

/-- The kinds that go on with an expression. -/
def behindExpression : List Kind := behindOperand ++ binaryLevels.flatten ++ [.assign]

/-- The dialect is the one that the parser checks for; if an aim is exact, all names may be
called. -/
structure Fits (A : Aim) (input : Input) (d : Dialect) : Prop where
  remembers : input.remembers = true
  nearest : d.nearestElse = true
  known : ∀ t : Token, (input.registry t.image).isSome → d.known t
  unknown : A.exact = false → ∀ t : Token, input.registry t.image = none → ¬d.known t
  free : A.exact = true → ∀ t, d.known t

/-- A statement is read up to what may follow it. What may follow if an `else` cannot belong to it
is `K`, and `K'` begins with an `else`. -/
def ReadsStatement (A : Aim) (input : Input) {α : Type} (m : ParseM α) (L L' : Language Token) :
    Prop :=
  ∀ c K K' Y, Avoids K [.kwElse] → Starts K' [.kwElse] → (A.exact = true → Possible K) →
    Elsewhere input statementStarts c Y → A.Leaves input c (L * K + L' * K' + Y) →
      m.Ends input c (fun _ c' => c.pos < c'.pos ∧ A.Leaves input c' (K + K')) (A.Rejects input)

/-- The nested productions read the nested forms. -/
structure Inner (A : Aim) (input : Input) (d : Dialect) (inner : Nested) (X : Forms) : Prop where
  regular : Regular d X
  possible : A.exact = true → ∀ f, Possible (X f)
  starts : A.exact = true → ∀ k ∈ statementStarts, Begins (X .statement) k
  statement : ReadsStatement A input inner.statement (X .statement) (X .closed)
  expression : ReadsAmong A input inner.expression expressionStarts (X .expression)
    behindExpression
  init : Reads A input inner.init (X .init) behindExpression
  operand : Reads A input inner.operand (X .operand) behindOperand

variable {A : Aim} {input : Input} {c : Cursor} {d : Dialect} {inner : Nested} {X : Forms}
  {K R Y : Language Token}

/-- What the state of a run beside its place does not matter for. -/
theorem Aim.Leaves.of_same {c' : Cursor} (h : A.Leaves input c R) (hp : c'.pos = c.pos)
    (hf : c'.frontier = c.frontier) (ht : c'.Tidy input) : A.Leaves input c' R := by
  have hn : noted c' = noted c := by unfold noted; rw [hp, hf]
  refine ⟨ht, hp ▸ h.passed, fun v hv => ?_, fun hA k hk => ?_⟩
  · rw [hp]
    exact h.rest v fun t ht hn' => hp ▸ hv t ht (hn ▸ hn')
  · rw [hp]
    exact h.viable hA k (hn ▸ hk)

/-! ## What follows inside a primary -/

/-- What may follow the arguments that stand at a place inside a primary. -/
def behindArguments (input : Input) (d : Dialect) (X : Forms) (start pos : Nat) :
    Language Token :=
  open Classical in
  if pos = start + 1 ∧ input.kind start = .identifier ∧ ¬d.known (input.token start) then 0
  else (suffix X)∗

/-- What may follow at a place inside a primary. -/
def behind (input : Input) (d : Dialect) (X : Forms) (start pos : Nat) : Language Token :=
  1 + indexing X * (suffix X)∗ + member * (suffix X)∗
    + arguments X * behindArguments input d X start pos

theorem behind_eq_star {start pos : Nat}
    (h : ¬(pos = start + 1 ∧ input.kind start = .identifier ∧ ¬d.known (input.token start))) :
    behind input d X start pos = (suffix X)∗ := by
  unfold behind behindArguments
  rw [if_neg h]
  conv_rhs => rw [← Language.one_add_self_mul_kstar_eq_kstar, suffix]
  rw [add_mul, add_mul, add_assoc, add_assoc, add_assoc]
  rfl

theorem leftQuotient_primary (t : Token) :
    (primary d X).leftQuotient [t] =
      ((atom X).leftQuotient [t] * (suffix X)∗) ⊓ d.calls.leftQuotient [t] := by
  rw [← starts_atom.leftQuotient_mul]
  rfl

/-- Only names start calls. -/
theorem leftQuotient_calls {t : Token} (h : t.kind ≠ .identifier) :
    d.calls.leftQuotient [t] = ⊤ := by
  refine eq_top_iff.2 fun v _ name opening w he hn => ?_
  cases he
  exact absurd hn h

theorem leftQuotient_primary_literal {t : Token} (h : t.kind ∈ literals) :
    (primary d X).leftQuotient [t] = (suffix X)∗ := by
  have hne : t.kind ≠ .identifier := fun he => by rw [he] at h; exact absurd h (by decide)
  have hnames : Avoids (tok .identifier + tok .lparen * (X .expression * tok .rparen)) literals :=
    (Starts.add (.tok (by decide)) (.mul (.tok (by decide)) _) :
      Starts _ [.identifier, .lparen]).avoids (by decide)
  rw [leftQuotient_primary, leftQuotient_calls hne, inf_top_eq, atom, ← literals_eq, add_assoc,
    leftQuotient_add, leftQuotient_oneOf h, hnames.leftQuotient h, add_zero, one_mul]

theorem leftQuotient_primary_paren {t : Token} (h : t.kind = .lparen) :
    (primary d X).leftQuotient [t] = X .expression * (tok .rparen * (suffix X)∗) := by
  have hatoms : Avoids (oneOf literals + tok .identifier) [.lparen] :=
    (Starts.add (.oneOf (List.subset_append_left _ _)) (.tok (by decide)) :
      Starts _ (literals ++ [.identifier])).avoids (by decide)
  have hm : t.kind ∈ [Kind.lparen] := by simp [h]
  rw [leftQuotient_primary, leftQuotient_calls (by simp [h]), inf_top_eq, atom, ← literals_eq,
    leftQuotient_add, hatoms.leftQuotient hm, zero_add, leftQuotient_oneOf_mul hm, mul_assoc]

theorem leftQuotient_primary_name {start : Nat} (h : input.kind start = .identifier) :
    (primary d X).leftQuotient [input.token start] = behind input d X start (start + 1) := by
  have hm : (input.token start).kind ∈ [Kind.identifier] := List.mem_singleton.2 h
  have hothers : Avoids (oneOf literals) [.identifier] :=
    (Starts.oneOf (List.Subset.refl _)).avoids (by decide)
  have hparen : Avoids (tok .lparen * (X .expression * tok .rparen)) [.identifier] :=
    .tok_mul (by decide) _
  rw [leftQuotient_primary, atom, ← literals_eq, leftQuotient_add, leftQuotient_add,
    hothers.leftQuotient hm, leftQuotient_oneOf hm, hparen.leftQuotient hm, zero_add, add_zero,
    one_mul]
  by_cases hk : d.known (input.token start)
  · rw [behind_eq_star fun hn => hn.2.2 hk, inf_eq_left]
    intro v _ name opening w he _ _
    cases he
    exact hk
  · have hrest : Avoids (1 + indexing X * (suffix X)∗ + member * (suffix X)∗) [.lparen] := by
      simp only [indexing, member, mul_assoc]
      exact .add (.add .one (.tok_mul (by decide) _)) (.tok_mul (by decide) _)
    have hstar : (suffix X)∗ = 1 + indexing X * (suffix X)∗ + member * (suffix X)∗
        + arguments X * (suffix X)∗ := by
      conv_lhs => rw [← Language.one_add_self_mul_kstar_eq_kstar, suffix]
      rw [add_mul, add_mul, ← add_assoc, ← add_assoc]
      rfl
    rw [behind, behindArguments, if_pos ⟨rfl, h, hk⟩, mul_zero, add_zero]
    ext v
    constructor
    · rintro ⟨hv, hcalls⟩
      rw [hstar] at hv
      refine hv.resolve_right fun hargs => hk ?_
      rw [arguments, mul_assoc] at hargs
      obtain ⟨opening, w, rfl, ho, -⟩ := mem_oneOf_mul.1 hargs
      exact hcalls _ _ _ rfl h (List.mem_singleton.1 ho)
    · intro hv
      refine ⟨by rw [hstar]; exact .inl hv, fun name opening w he _ ho => ?_⟩
      cases he
      exact absurd (List.mem_singleton.2 ho) (hrest _ _ hv)

/-! ## Reading a head -/

variable (h : Inner A input d inner X)

include h

/-- A head leaves what is behind it in a primary. -/
theorem Inner.head_ends (hK : A.exact = true → Possible K)
    (hY : Elsewhere input (literals ++ [.identifier, .lparen]) c Y)
    (hc : A.Leaves input c (primary d X * K + Y)) :
    inner.head.Ends input c
      (fun _ c' => c.pos < c'.pos ∧ A.Leaves input c' (behind input d X c.pos c'.pos * K))
      (A.Rejects input) := by
  have hviable : ∀ k ∈ literals ++ [.identifier, .lparen], A.exact = true →
      Begins (primary d X * K + Y) k := fun k hk hA =>
    ((begins_primary (h.possible hA .expression) hk).mul (hK hA)).mono le_self_add
  have hlit : A.Leaves input (c.noteAll literals) _ := hc.noteAll fun hA k hk =>
    hviable k (List.mem_append_left _ hk) hA
  have hname := hlit.note (hviable .identifier (by decide))
  have hparen := hname.note (hviable .lparen (by decide))
  have hquot : ∀ t : Token, t.kind ∈ literals ++ [.identifier, .lparen] →
      (primary d X * K + Y).leftQuotient [t] = (primary d X).leftQuotient [t] * K := fun t ht => by
    rw [leftQuotient_add, hY.avoids.leftQuotient ht, add_zero, starts_primary.leftQuotient_mul]
  refine ends_bind (ends_checkAny (ends_ite (fun hk => ?_) fun hk => ?_))
  · have hk : input.kind c.pos ∈ literals := of_decide_eq_true hk
    have hne : input.kind c.pos ≠ .endOfInput := fun he => by
      rw [he] at hk; exact absurd hk (by decide)
    refine ends_advance (by rwa [Cursor.noteAll_pos]) ⟨by simp, ?_⟩
    have := hlit.next (by rwa [Cursor.noteAll_pos])
    rw [Cursor.noteAll_pos, hquot _ (List.mem_append_left _ hk),
      leftQuotient_primary_literal hk] at this
    rwa [behind_eq_star fun hn => by rw [hn.2.1] at hk; exact absurd hk (by decide)]
  have hlit' : input.kind c.pos ∉ literals := fun hm => hk (decide_eq_true hm)
  refine ends_bind (ends_check (ends_ite (fun hk => ?_) fun hk => ?_))
  · have hk : input.kind c.pos = .identifier := by simpa using hk
    have hne : input.kind (c.noteAll literals).pos ≠ .endOfInput := by simp [hk]
    refine ends_advance hne ⟨by simp, ?_⟩
    have := hname.next hne
    rwa [Cursor.note_pos, Cursor.noteAll_pos, hquot _ (by rw [← Input.kind, hk]; decide),
      leftQuotient_primary_name hk] at this
  have hname' : input.kind c.pos ≠ .identifier := by simpa using hk
  refine ends_bind (ParseM.ends_eat (by decide) (fun hk => ends_ite (fun _ => ?_) (by simp))
    fun hk => ends_ite (by simp) fun _ => ends_throw ?_)
  · have hk : input.kind c.pos = .lparen := by simpa using hk
    have := hparen.next (by simp [hk])
    rw [Cursor.note_pos, Cursor.note_pos, Cursor.noteAll_pos,
      hquot _ (by rw [← Input.kind, hk]; decide), leftQuotient_primary_paren hk, mul_assoc,
      mul_assoc] at this
    have hreads := Reads.thenExpect (k := .rparen) (by decide) (by decide) h.expression.reads
      (f := fun _ _ => Pure.pure ()) fun _ _ _ => ⟨(), rfl⟩
    rw [← mul_assoc] at this
    refine (hreads _ _ (fun _ _ _ => List.not_mem_nil) (fun hA => by simp [hK hA]) this).mono
      (fun _ c' hc' => ⟨?_, ?_⟩) fun _ _ hc' => hc'
    · simpa [Nat.succ_le_iff] using hc'.1
    · rw [behind_eq_star fun hn => by rw [hk] at hn; exact absurd hn.2.1 (by decide)]
      exact hc'.2
  · have hk : input.kind c.pos ≠ .lparen := by simpa using hk
    have hnone : input.kind c.pos ∉ literals ++ [.identifier, .lparen] := by
      simpa using ⟨hlit', hname', hk⟩
    rw [hY.eq_zero hnone] at hparen
    have hnoted : ∀ k ∈ literals ++ [.identifier, .lparen],
        k ∈ noted (((c.noteAll literals).note .identifier).note .lparen) := fun k hk =>
      (noted_noteAll hlit.tidy [.identifier, .lparen]).2 <|
        (List.mem_append.1 hk).imp_left fun hk => (noted_noteAll hc.tidy literals).2 (.inr hk)
    exact (hparen.drop (starts_primary.mul K) hnoted (by simpa using hnone)).mismatch
      (hnoted .lparen (by decide))

/-! ## Reading suffixes -/

/-- Arguments leave what is behind them in a primary, if their function may be called. -/
theorem Inner.arguments_ends (hf : Fits A input d) {start : Nat}
    (hK : A.exact = true → Possible K) (hk : input.kind c.pos = .lparen)
    (hc : A.Leaves input c.next (opt (sepBy (X .expression)) * (tok .rparen *
      (behindArguments input d X start c.pos * K)))) :
    (inner.arguments start).Ends input c
      (fun _ c' => c.pos < c'.pos ∧ A.Leaves input c' ((suffix X)∗ * K)) (A.Rejects input) := by
  have hexprs : Reads A input inner.expressions (sepBy (X .expression))
      (.comma :: behindExpression) :=
    (Reads.sepByComma h.expression.reads (fun hA => h.possible hA _) (by decide)).before
      fun _ _ => ⟨_, rfl⟩
  have hupTo := Reads.upTo (k := .rparen) (by decide)
    (fun K => ((h.regular.expression.sepBy).mul K).avoids (by decide))
    fun _ _ hp hc => hexprs.awaits (by decide) (by decide) hp hc
  have hstar (hn : ¬(c.pos = start + 1 ∧ input.kind start = .identifier ∧
      ¬d.known (input.token start))) : behindArguments input d X start c.pos = (suffix X)∗ :=
    if_neg hn
  have hp : A.exact = true → Possible (behindArguments input d X start c.pos * K) := fun hA => by
    rw [hstar fun hn => hn.2.2 (hf.free hA _)]
    simp [hK hA]
  refine ends_bind (ends_of_ok run_position (ends_bind (ends_advance (by simp [hk]) ?_)))
  rw [← mul_assoc] at hc
  refine ends_bind ((hupTo _ _ (fun _ _ _ => List.not_mem_nil) hp hc).mono (fun _ c₁ hc₁ => ?_)
    fun _ _ hc₁ => hc₁)
  obtain ⟨hlt, hc₁⟩ := hc₁
  refine ends_bind (ends_of_ok run_read (ends_ite (fun hcall => ?_) fun hcall => ?_))
  · refine ends_bind (ends_of_ok run_read (ends_bind (ends_of_ok run_read ?_)))
    cases hr : input.registry (input.token start).image with
    | none =>
      refine ends_throw ⟨hc₁.passed, fun he => (by cases he), fun hA => ?_,
        fun _ he => (by cases he)⟩
      have hn := hf.unknown hA _ hr
      rw [behindArguments, if_pos ⟨hcall.1, hcall.2, hn⟩, zero_mul] at hc₁
      exact hc₁.lost
    | some _ =>
      have hn := hf.known (input.token start) (by simp [hr])
      rw [hstar fun h => h.2.2 hn] at hc₁
      exact ends_of_ok (run_modify _) ⟨hlt, hc₁.of_same rfl rfl
        ⟨hc₁.tidy.bounded, hc₁.tidy.frontier, hc₁.tidy.fresh⟩⟩
  · rw [hstar fun h => hcall ⟨h.1, h.2.1⟩] at hc₁
    exact ends_pure ⟨hlt, hc₁⟩

/-- A suffix leaves what is behind it in a primary; if there is none, it leaves what may follow the
primary. -/
theorem Inner.suffix?_ends (hf : Fits A input d) {start : Nat}
    (hK : A.exact = true → Possible K) (hav : Avoids K suffixStarts)
    (hc : A.Leaves input c (behind input d X start c.pos * K)) :
    (inner.suffix? start).Ends input c
      (fun o c' => match o with
        | none => c.pos ≤ c'.pos ∧ A.Leaves input c' K
        | some _ => c.pos < c'.pos ∧ A.Leaves input c' ((suffix X)∗ * K)) (A.Rejects input) := by
  have hsplit : behind input d X start c.pos * K =
      tok .lbracket * (X .expression * (tok .rbracket * ((suffix X)∗ * K))) +
        (tok .dot * (tok .identifier * ((suffix X)∗ * K)) +
          (tok .lparen * (opt (sepBy (X .expression)) * (tok .rparen *
            (behindArguments input d X start c.pos * K))) + K)) := by
    simp only [behind, indexing, member, arguments, add_mul, one_mul, mul_assoc]
    ac_rfl
  have hrest : A.exact = true → Possible ((suffix X)∗ * K) := fun hA => by simp [hK hA]
  rw [hsplit] at hc
  refine ends_bind (ends_eat (by decide) hc
    (.add (.tok_mul (by decide) _) (.add (.tok_mul (by decide) _) (hav.mono (by decide))))
    (fun hA => by simp [h.possible hA, hK hA]) (fun _ hc₁ => ?_) fun _ hc₁ => ?_)
  · refine ends_bind ((h.expression.reads _ _ (.tok_mul (by decide) _)
      (fun hA => by simp [hK hA]) hc₁).mono (fun _ c₂ hc₂ => ?_) fun _ _ hc₂ => hc₂)
    have hle : c.pos + 1 ≤ c₂.pos := hc₂.1
    exact ends_bind ((hc₂.2.awaits (by decide) hrest).ends_expect (by decide) fun hc₃ =>
      ends_pure ⟨by simp only [Cursor.next_pos, Cursor.note_pos]; omega, hc₃⟩)
  refine ends_bind (ends_eat (by decide) hc₁ (.add (.tok_mul (by decide) _) (hav.mono (by decide)))
    (fun hA => by simp [hK hA]) (fun _ hc₂ => ?_) fun _ hc₂ => ?_)
  · exact ends_bind ((hc₂.awaits (by decide) hrest).ends_expect (by decide) fun hc₃ =>
      ends_pure ⟨by simp only [Cursor.next_pos, Cursor.note_pos]; omega, hc₃⟩)
  have hviable : A.exact = true → Possible (opt (sepBy (X .expression)) * (tok .rparen *
      (behindArguments input d X start c.pos * K))) := fun hA => by
    have hstar : behindArguments input d X start c.pos = (suffix X)∗ :=
      if_neg fun hn => hn.2.2 (hf.free hA _)
    simp [hstar, hK hA]
  refine ends_bind (ends_check (ends_ite (fun hk => ?_) fun hk => ends_pure ⟨le_rfl, ?_⟩))
  · have hk : input.kind c.pos = .lparen := of_decide_eq_true hk
    have htaken := hc₂.taken (hav.mono (by decide)) hviable (by decide)
      (List.mem_singleton.2 hk)
    have hk' : input.kind (((c.note .lbracket).note .dot).note .lparen).pos = .lparen := hk
    exact ends_map (h.arguments_ends hf hK hk' htaken)
  · exact hc₂.left hviable fun hm => hk (decide_eq_true (List.mem_singleton.1 hm))

/-! ## Reading a primary -/

theorem Inner.plainPrimary_ends (hf : Fits A input d) (hav : Avoids K suffixStarts)
    (hK : A.exact = true → Possible K)
    (hY : Elsewhere input (literals ++ [.identifier, .lparen]) c Y)
    (hc : A.Leaves input c (primary d X * K + Y)) :
    inner.plainPrimary.Ends input c (fun _ c' => c.pos < c'.pos ∧ A.Leaves input c' K)
      (A.Rejects input) := by
  have hrest : ∀ pos, c.pos + 1 < pos → behind input d X c.pos pos = (suffix X)∗ := fun pos hp =>
    behind_eq_star fun hn => by omega
  refine ends_bind (ends_of_ok run_position (ends_bind ((h.head_ends hK hY hc).mono
    (fun _ c₁ hc₁ => ?_) fun _ _ hd => hd)))
  refine ends_bind ((ends_many
    (I := fun _ e => c.pos < e.pos ∧ A.Leaves input e (behind input d X c.pos e.pos * K))
    (fun _ e he => he.2.tidy.bounded) (fun _ e he => ?_) hc₁).mono
    (fun _ c₂ hc₂ => ends_pure hc₂) fun _ _ hd => hd)
  refine (h.suffix?_ends hf hK hav he.2).mono (fun o e' he' => ?_) fun _ _ hd => hd
  cases o with
  | none => exact ⟨he.1.trans_le he'.1, he'.2⟩
  | some _ => exact ⟨⟨he.1.trans he'.1, hrest e'.pos (by omega) ▸ he'.2⟩, he'.1⟩

/-- A primary reads the words of `primary`. -/
theorem Inner.primary (hf : Fits A input d) :
    ReadsAmong A input inner.primary (literals ++ [.identifier, .lparen]) (primary d X)
      suffixStarts := fun c K Y hav hK hY hc => by
  have hends := h.plainPrimary_ends hf hav hK hY hc
  unfold Ends at hends ⊢
  rw [Nested.Forward.run_primary hf.remembers hc.tidy]
  cases hm : inner.plainPrimary.run input c with
  | error e c' => rwa [hm] at hends
  | ok u c' =>
    rw [hm] at hends
    exact ⟨hends.1.le, hends.2.of_same rfl rfl (hends.2.tidy.remember hends.1)⟩

end Botscript.Grammar
