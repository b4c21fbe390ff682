import Botscript.Proofs.Grammar.Residual

/-!
# Steps that read words

`Reads m L ks` says that the step `m` reads a word of `L`, if what follows does not begin with one
of `ks`: what is left after it is what may follow, and if it fails there is nothing left. The lemmas
put steps together as the grammar puts languages together.
-/

namespace Botscript.Grammar

open Computability Token Parse ParseM

variable {α β : Type} {A : Aim} {input : Input} {c : Cursor} {K L M X Y : Language Token} {k : Kind}
  {ks ls : List Kind}

/-! ## Comparing the current token -/

theorem Aim.Leaves.noted_oneOf (h : A.Leaves input c (oneOf ks * X + Y))
    (hX : A.exact = true → Possible X) : A.Leaves input (c.noteAll ks) (oneOf ks * X + Y) :=
  h.noteAll fun hA _ hk => ((begins_oneOf hk).mul (hX hA)).mono le_self_add

/-- The current token is taken. -/
theorem Aim.Leaves.taken (h : A.Leaves input c (oneOf ks * X + Y)) (hY : Avoids Y ks)
    (hX : A.exact = true → Possible X) (he : .endOfInput ∉ ks) (hk : input.kind c.pos ∈ ks) :
    A.Leaves input (c.noteAll ks).next X := by
  have hk' : input.kind (c.noteAll ks).pos ∈ ks := by rwa [Cursor.noteAll_pos]
  have hn := (h.noted_oneOf hX).next fun h => he (h ▸ hk')
  rwa [leftQuotient_add, leftQuotient_oneOf_mul hk', hY.leftQuotient hk', add_zero] at hn

/-- The current token is left. -/
theorem Aim.Leaves.left (h : A.Leaves input c (oneOf ks * X + Y))
    (hX : A.exact = true → Possible X) (hk : input.kind c.pos ∉ ks) :
    A.Leaves input (c.noteAll ks) Y :=
  (h.noted_oneOf hX).drop (.mul (.oneOf (List.Subset.refl _)) _)
    (fun _ hk => (noted_noteAll h.tidy ks).2 (.inr hk)) (by rwa [Cursor.noteAll_pos])

theorem Aim.Leaves.mismatch_oneOf (h : A.Leaves input c (oneOf ks * X)) (hks : ks ≠ [])
    (hX : A.exact = true → Possible X) (hk : input.kind c.pos ∉ ks) :
    A.Rejects input .mismatch (c.noteAll ks) := by
  rw [← add_zero (oneOf ks * X)] at h
  obtain ⟨k, hks⟩ := List.exists_mem_of_ne_nil ks hks
  exact (h.left hX hk).mismatch ((noted_noteAll h.tidy ks).2 (.inr hks))

theorem ends_eatAny {Q : Bool → Cursor → Prop} {E : Failure → Cursor → Prop}
    (he : .endOfInput ∉ ks) (h : A.Leaves input c (oneOf ks * X + Y)) (hY : Avoids Y ks)
    (hX : A.exact = true → Possible X)
    (h₁ : input.kind c.pos ∈ ks → A.Leaves input (c.noteAll ks).next X →
      Q true (c.noteAll ks).next)
    (h₂ : input.kind c.pos ∉ ks → A.Leaves input (c.noteAll ks) Y → Q false (c.noteAll ks)) :
    (eatAny ks).Ends input c Q E :=
  ParseM.ends_eatAny he (fun hk => h₁ hk (h.taken hY hX he hk)) fun hk => h₂ hk (h.left hX hk)

theorem ends_eat {Q : Bool → Cursor → Prop} {E : Failure → Cursor → Prop}
    (he : k ≠ .endOfInput) (h : A.Leaves input c (tok k * X + Y)) (hY : Avoids Y [k])
    (hX : A.exact = true → Possible X)
    (h₁ : input.kind c.pos = k → A.Leaves input (c.note k).next X → Q true (c.note k).next)
    (h₂ : input.kind c.pos ≠ k → A.Leaves input (c.note k) Y → Q false (c.note k)) :
    (eat k).Ends input c Q E :=
  ParseM.ends_eat he
    (fun hk => h₁ hk (h.taken hY hX (by simpa using he.symm) (List.mem_singleton.2 hk)))
    fun hk => h₂ hk (h.left hX fun hm => hk (List.mem_singleton.1 hm))

/-- A token may come, with a word of a language behind it; otherwise nothing may. -/
def Aim.Awaits (A : Aim) (input : Input) (k : Kind) (X : Language Token) (c : Cursor) : Prop :=
  (input.kind c.pos = k → A.Leaves input (c.note k).next X) ∧
    (input.kind c.pos ≠ k → A.Rejects input .mismatch (c.note k))

theorem Aim.Leaves.awaits (h : A.Leaves input c (tok k * X)) (he : k ≠ .endOfInput)
    (hX : A.exact = true → Possible X) : A.Awaits input k X c := by
  refine ⟨fun hk => ?_, fun hk => h.mismatch_oneOf (List.cons_ne_nil _ _) hX (by simpa using hk)⟩
  rw [← add_zero (tok k * X)] at h
  exact h.taken .zero hX (by simpa using he.symm) (List.mem_singleton.2 hk)

/-- What is left behind a token that is known to come. -/
theorem Aim.Leaves.awaits_here (h : A.Leaves input c Y) (he : k ≠ .endOfInput)
    (hk : input.kind c.pos = k) (hY : Y.leftQuotient [input.token c.pos] = X)
    (hX : A.exact = true → Possible X) : A.Awaits input k X c := by
  refine ⟨fun _ => ?_, fun hne => absurd hk hne⟩
  have hn : A.Leaves input (c.note k) Y := h.note fun hA => by
    obtain ⟨v, hv⟩ := hX hA
    rw [← hY] at hv
    exact ⟨input.token c.pos, v, hk, hv⟩
  exact hY ▸ hn.next (by rwa [Cursor.note_pos, hk])

theorem Aim.Awaits.ends_expect {Q : Token → Cursor → Prop} (h : A.Awaits input k X c)
    (he : k ≠ .endOfInput)
    (hQ : A.Leaves input (c.note k).next X → Q (input.token c.pos) (c.note k).next) :
    (expect k).Ends input c Q (A.Rejects input) :=
  ParseM.ends_expect he (fun hk => hQ (h.1 hk)) h.2

/-! ## Reading a word -/

/-- The step reads a word of the language, if no word that may follow begins with one of the kinds
`behind`. Other words may stand at the cursor, too, if the current token is one of the kinds
`starts`, and they do not begin with these. -/
def ReadsAmong (A : Aim) (input : Input) (m : ParseM α) (starts : List Kind) (L : Language Token)
    (behind : List Kind) : Prop :=
  ∀ c K Y, Avoids K behind → (A.exact = true → Possible K) → Elsewhere input starts c Y →
    A.Leaves input c (L * K + Y) →
      m.Ends input c (fun _ c' => c.pos ≤ c'.pos ∧ A.Leaves input c' K) (A.Rejects input)

/-- The step reads a word of the language, if no word that may follow begins with one of the
kinds. -/
def Reads (A : Aim) (input : Input) (m : ParseM α) (L : Language Token) (behind : List Kind) :
    Prop :=
  ∀ c K, Avoids K behind → (A.exact = true → Possible K) → A.Leaves input c (L * K) →
    m.Ends input c (fun _ c' => c.pos ≤ c'.pos ∧ A.Leaves input c' K) (A.Rejects input)

theorem ReadsAmong.reads {m : ParseM α} (h : ReadsAmong A input m ls L ks) :
    Reads A input m L ks := fun c K hK hp hc => h c K 0 hK hp .zero (by rwa [add_zero])

theorem ReadsAmong.bind {m : ParseM α} {f : α → ParseM β} {starts : List Kind}
    (hm : ReadsAmong A input m starts L ks) (hf : ∀ a, Reads A input (f a) M ls)
    (hp : A.exact = true → Possible M) (hav : ∀ K, Avoids K ls → Avoids (M * K) ks) :
    ReadsAmong A input (m >>= f) starts (L * M) ls := fun c K Y hK hpK hY h => by
  rw [mul_assoc] at h
  refine ends_bind ((hm c (M * K) Y (hav K hK) (fun hA => possible_mul.2 ⟨hp hA, hpK hA⟩) hY
    h).mono (fun a c₁ h₁ => ?_) fun _ _ h₁ => h₁)
  exact (hf a c₁ K hK hpK h₁.2).mono (fun _ _ h₂ => ⟨h₁.1.trans h₂.1, h₂.2⟩) fun _ _ h₂ => h₂

namespace Reads

theorem mono {m : ParseM α} (h : Reads A input m L ks) (hs : ks ⊆ ls) : Reads A input m L ls :=
  fun c K hK hp hc => h c K (hK.mono hs) hp hc

theorem of_still {m : ParseM α} (hm : ∀ c, ∃ a, m.run input c = .ok a c) :
    Reads A input m 1 [] := fun c K _ _ h => by
  obtain ⟨a, ha⟩ := hm c
  rw [one_mul] at h
  exact ends_of_ok ha ⟨le_rfl, h⟩

theorem pure (a : α) : Reads A input (Pure.pure a) 1 [] := of_still fun _ => ⟨a, rfl⟩

theorem expect (he : k ≠ .endOfInput) : Reads A input (ParseM.expect k) (tok k) [] :=
  fun _ _ _ hp h => (h.awaits he hp).ends_expect he fun h' => ⟨Nat.le_succ _, h'⟩

/-- One step after another. -/
theorem bind {m : ParseM α} {f : α → ParseM β} (hm : Reads A input m L ks)
    (hf : ∀ a, Reads A input (f a) M ls) (hp : A.exact = true → Possible M)
    (hav : ∀ K, Avoids K ls → Avoids (M * K) ks) : Reads A input (m >>= f) (L * M) ls :=
  fun c K hK hpK h => by
    rw [mul_assoc] at h
    refine ends_bind ((hm c (M * K) (hav K hK) (fun hA => possible_mul.2 ⟨hp hA, hpK hA⟩) h).mono
      (fun a c₁ h₁ => ?_) fun _ _ h₁ => h₁)
    exact (hf a c₁ K hK hpK h₁.2).mono (fun _ _ h₂ => ⟨h₁.1.trans h₂.1, h₂.2⟩) fun _ _ h₂ => h₂

/-- A step that reads nothing in front of one that does. -/
theorem after {m : ParseM α} {f : α → ParseM β} (hm : ∀ c, ∃ a, m.run input c = .ok a c)
    (hf : ∀ a, Reads A input (f a) L ls) : Reads A input (m >>= f) L ls := fun c K hK hp h => by
  obtain ⟨a, ha⟩ := hm c
  exact ends_bind (ends_of_ok ha (hf a c K hK hp h))

/-- A step that reads nothing behind one that does. -/
theorem before {m : ParseM α} {f : α → ParseM β} (hm : Reads A input m L ls)
    (hf : ∀ a c, ∃ b, (f a).run input c = .ok b c) : Reads A input (m >>= f) L ls :=
  fun c K hK hp h => by
    refine ends_bind ((hm c K hK hp h).mono (fun a c₁ h₁ => ?_) fun _ _ h₁ => h₁)
    obtain ⟨b, hb⟩ := hf a c₁
    exact ends_of_ok hb h₁

/-- A token that must be there in front of a step. -/
theorem expectThen {f : Token → ParseM β} (he : k ≠ .endOfInput)
    (hf : ∀ t, Reads A input (f t) M ls) (hp : A.exact = true → Possible M) :
    Reads A input (ParseM.expect k >>= f) (tok k * M) ls :=
  (expect he).bind hf hp fun _ _ _ _ _ => List.not_mem_nil

/-- A token that must be there behind a step. -/
theorem thenExpect {m : ParseM α} {f : α → Token → ParseM β} (he : k ≠ .endOfInput)
    (hk : k ∉ ks) (hm : Reads A input m L ks) (hf : ∀ a t c, ∃ b, (f a t).run input c = .ok b c) :
    Reads A input (do let a ← m; let t ← ParseM.expect k; f a t) (L * tok k) [] :=
  hm.bind (fun _ => (expect he).before fun _ => hf _ _) (fun _ => by simp) fun K _ =>
    .tok_mul hk K

/-! ### Choices -/

/-- One of some tokens decides what is read. -/
theorem eatAnyElse {m₁ m₂ : ParseM α} (he : .endOfInput ∉ ks) (h₁ : Reads A input m₁ L ls)
    (h₂ : Reads A input m₂ M ls) (hp : A.exact = true → Possible L)
    (hav : ∀ K, Avoids K ls → Avoids (M * K) ks) :
    Reads A input (do if ← eatAny ks then m₁ else m₂) (oneOf ks * L + M) ls :=
  fun c K hK hpK h => by
    rw [add_mul, mul_assoc] at h
    refine ends_bind (ends_eatAny he h (hav K hK) (fun hA => possible_mul.2 ⟨hp hA, hpK hA⟩)
      (fun _ h' => ?_) fun _ h' => ?_)
    · refine (h₁ _ K hK hpK h').mono (fun _ _ hd => ⟨?_, hd.2⟩) fun _ _ hd => hd
      have hle := hd.1
      rw [Cursor.next_pos, Cursor.noteAll_pos] at hle
      exact (Nat.le_succ _).trans hle
    · refine (h₂ _ K hK hpK h').mono (fun _ _ hd => ⟨?_, hd.2⟩) fun _ _ hd => hd
      simpa using hd.1

theorem eatElse {m₁ m₂ : ParseM α} (he : k ≠ .endOfInput) (h₁ : Reads A input m₁ L ls)
    (h₂ : Reads A input m₂ M ls) (hp : A.exact = true → Possible L)
    (hav : ∀ K, Avoids K ls → Avoids (M * K) [k]) :
    Reads A input (do if ← eat k then m₁ else m₂) (tok k * L + M) ls := by
  rw [eat_eq_eatAny]
  exact eatAnyElse (by simpa using he.symm) h₁ h₂ hp hav

/-- One of some tokens, or nothing. -/
theorem eatAny (he : .endOfInput ∉ ks) : Reads A input (ParseM.eatAny ks) (opt (oneOf ks)) ks :=
  fun c K hK hp h => by
    rw [opt, add_mul, one_mul, add_comm] at h
    exact Grammar.ends_eatAny he h hK hp (fun _ h' => ⟨by simp, h'⟩) fun _ h' => ⟨by simp, h'⟩

/-! ### Loops -/

theorem many {step : ParseM (Option α)}
    (hstep : ∀ c K, Avoids K ls → (A.exact = true → Possible K) → A.Leaves input c (L∗ * K) →
      step.Ends input c (fun o c' => match o with
        | none => c.pos ≤ c'.pos ∧ A.Leaves input c' K
        | some _ => c.pos < c'.pos ∧ A.Leaves input c' (L∗ * K)) (A.Rejects input)) :
    Reads A input (ParseM.many step) L∗ ls := fun c K hK hp h => by
  refine ends_many (I := fun _ d => c.pos ≤ d.pos ∧ A.Leaves input d (L∗ * K))
    (fun _ d hd => hd.2.tidy.bounded) (fun _ d hd => ?_) ⟨le_rfl, h⟩
  refine (hstep d K hK hp hd.2).mono (fun o d' hd' => ?_) fun _ _ hd' => hd'
  cases o with
  | none => exact ⟨hd.1.trans hd'.1, hd'.2⟩
  | some a => exact ⟨⟨hd.1.trans hd'.1.le, hd'.2⟩, hd'.1⟩

/-- Items, each behind one of some tokens. -/
theorem manyBehind {item : ParseM α} (he : .endOfInput ∉ ks) (h : Reads A input item M ls)
    (hp : A.exact = true → Possible M) (hd : ∀ k ∈ ks, k ∉ ls) :
    Reads A input (ParseM.many do if ← ParseM.eatAny ks then some <$> item else return none)
      (oneOf ks * M)∗ (ks ++ ls) := by
  refine many fun c K hK hpK hc => ?_
  have hKs : Avoids K ks := hK.mono (List.subset_append_left _ _)
  have hKl : Avoids ((oneOf ks * M)∗ * K) ls :=
    .star_mul (mul_assoc (oneOf ks) M _ ▸ .oneOf_mul hd _)
      (hK.mono (List.subset_append_right _ _))
  rw [star_mul, mul_assoc] at hc
  refine ends_bind (Grammar.ends_eatAny he hc hKs (fun hA => by simp [hp hA, hpK hA])
    (fun _ h' => ?_) fun _ h' => ends_pure ⟨by simp, h'⟩)
  refine ends_map ((h _ _ hKl (fun hA => by simp [hpK hA]) h').mono (fun _ d hd => ⟨?_, hd.2⟩)
    fun _ _ hd => hd)
  have hle := hd.1
  rw [Cursor.next_pos, Cursor.noteAll_pos] at hle
  exact hle

theorem manyAfter {item : ParseM α} (he : k ≠ .endOfInput) (h : Reads A input item M ls)
    (hp : A.exact = true → Possible M) (hd : k ∉ ls) :
    Reads A input (ParseM.many do if ← ParseM.eat k then some <$> item else return none)
      (tok k * M)∗ (k :: ls) := by
  rw [eat_eq_eatAny]
  exact manyBehind (by simpa using he.symm) h hp (by simpa using hd)

/-- Items between commas. -/
theorem sepByComma {item : ParseM α} (h : Reads A input item M ls)
    (hp : A.exact = true → Possible M) (hd : .comma ∉ ls) :
    Reads A input (ParseM.sepByComma item) (sepBy M) (.comma :: ls) := by
  have hmany : Reads A input (manyAfterComma item) (tok .comma * M)∗ (.comma :: ls) :=
    manyAfter (by decide) h hp hd
  refine h.bind (fun _ => hmany.before fun _ _ => ⟨_, rfl⟩) (fun _ => by simp) fun K hK => ?_
  exact .star_mul (mul_assoc (tok .comma) M _ ▸ .tok_mul hd _) (hK.mono (List.subset_cons_self _ _))

/-! ### Closing tokens -/

end Reads

theorem Reads.awaits {m : ParseM α} (h : Reads A input m L ls) (he : k ≠ .endOfInput) (hk : k ∉ ls)
    (hp : A.exact = true → Possible K) (hc : A.Leaves input c (L * (tok k * K))) :
    m.Ends input c (fun _ c' => c.pos ≤ c'.pos ∧ A.Awaits input k K c') (A.Rejects input) :=
  (h c _ (.tok_mul hk K) (fun hA => by simp [hp hA]) hc).mono
    (fun _ _ h' => ⟨h'.1, h'.2.awaits he hp⟩) fun _ _ h' => h'

/-- What may be left out in front of a closing token. -/
theorem ends_unlessAt {step : ParseM α} {a : α} (he : k ≠ .endOfInput)
    (hL : Avoids (L * (tok k * K)) [k]) (hp : A.exact = true → Possible K)
    (hstep : ∀ d, A.Leaves input d (L * (tok k * K)) →
      step.Ends input d (fun _ d' => d.pos ≤ d'.pos ∧ A.Awaits input k K d') (A.Rejects input))
    (hc : A.Leaves input c (opt L * (tok k * K))) :
    (do if ← check k then return a else step).Ends input c
      (fun _ c' => c.pos ≤ c'.pos ∧ A.Awaits input k K c') (A.Rejects input) := by
  rw [opt, add_mul, one_mul] at hc
  refine ends_bind (ends_check (ends_ite (fun hk => ends_pure ⟨le_rfl, ?_⟩) fun hk => ?_))
  · have hk : input.kind c.pos = k := of_decide_eq_true hk
    exact ⟨fun _ => (hc.noted_oneOf hp).taken hL hp (by simpa using he.symm)
      (List.mem_singleton.2 hk), fun hne => absurd hk hne⟩
  · exact hstep _ (hc.left hp fun hm => hk (decide_eq_true (List.mem_singleton.1 hm)))

theorem Reads.upTo {step : ParseM Unit} (he : k ≠ .endOfInput) (hL : ∀ K, Avoids (L * K) [k])
    (hstep : ∀ c K, (A.exact = true → Possible K) → A.Leaves input c (L * (tok k * K)) →
      step.Ends input c (fun _ c' => c.pos ≤ c'.pos ∧ A.Awaits input k K c') (A.Rejects input)) :
    Reads A input (ParseM.upTo k step) (opt L * tok k) [] := fun c K _ hp hc => by
  rw [mul_assoc] at hc
  refine ends_bind ((ends_unlessAt he (hL _) hp (fun d hd => hstep d K hp hd) hc).mono
    (fun _ c₁ hc₁ => ?_) fun _ _ h' => h')
  refine ends_bind (ends_of_ok run_position (ends_bind (hc₁.2.ends_expect he fun h' => ?_)))
  exact ends_pure ⟨hc₁.1.trans (Nat.le_succ _), h'⟩

end Botscript.Grammar
