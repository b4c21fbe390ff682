import Botscript.Proofs.Grammar.Shape
import Botscript.Proofs.Parse.Forward

/-!
# What is left to read

An `Aim` is a language of token lists. At a cursor, the tokens read so far can be completed to words
of the aim; `Leaves` says by what. Only those completions count whose first token the parser has not
yet ruled out by comparing it to a kind (`Allows`). Each primitive step takes a derivative of what
is left. `Reads` states this for the steps that read the words of a language.
-/

namespace Botscript.Grammar

open Computability Token Parse ParseM

/-- The kinds that the current token has been compared to. -/
def noted (c : Cursor) : KindSet :=
  if c.frontier.pos = c.pos then c.frontier.kinds else .empty

/-- Tokens that could stand at the cursor, as far as the parser has looked. -/
def Allows (input : Input) (c : Cursor) (v : List Token) : Prop :=
  ∀ t ∈ v.head?, t.kind ∈ noted c → t.kind = input.kind c.pos

/-- A language that tokens are to be a word of. If it is `exact`, each comparison must be to a kind
that the token may have, but nothing is asked of failures other than a mismatch. -/
structure Aim where
  words : Language Token
  exact : Bool

/-- The words of a language complete the tokens read so far to words of the aim. -/
structure Aim.Leaves (A : Aim) (input : Input) (c : Cursor) (R : Language Token) : Prop where
  tidy : c.Tidy input
  passed : ∀ i < c.pos, input.kind i ≠ .endOfInput
  rest : ∀ v, Allows input c v → (input.span 0 c.pos ++ v ∈ A.words ↔ v ∈ R)
  viable : A.exact = true → ∀ k ∈ noted c, ∃ t v, t.kind = k ∧
    input.span 0 c.pos ++ t :: v ∈ A.words

/-- Nothing completes the tokens read so far, at least nothing that begins with the current
token. Where the levels are used up, something else may complete them. -/
structure Aim.Rejects (A : Aim) (input : Input) (e : Failure) (c : Cursor) : Prop where
  passed : ∀ i < c.pos, input.kind i ≠ .endOfInput
  stuck : e = .mismatch → A.Leaves input c 0 ∧ ∃ k, k ∈ noted c
  lost : A.exact = false → ∀ v, input.span 0 c.pos ++ input.token c.pos :: v ∉ A.words
  deep : ∀ t, e = .tooDeep t → t = input.token c.pos ∧
    (A.exact = true → ∃ v, input.span 0 c.pos ++ v ∈ A.words)

/-- Words that may stand at the cursor, but do not begin with the kind of the current token, which
is one of the given kinds. -/
def Elsewhere (input : Input) (ks : List Kind) (c : Cursor) (Y : Language Token) : Prop :=
  Y = 0 ∨ input.kind c.pos ∈ ks ∧ Avoids Y ks

variable {A : Aim} {input : Input} {c : Cursor} {R X Y : Language Token} {k : Kind}

theorem noted_note (h : c.frontier.pos ≤ c.pos) (k : Kind) :
    noted (c.note k) = (noted c).union (.single k) := by
  unfold noted Cursor.note Frontier.note
  rcases h.lt_or_eq with h | h
  · simp [h, h.ne]
  · simp [h]

theorem noted_noteAll (h : c.Tidy input) (ks : List Kind) :
    k ∈ noted (c.noteAll ks) ↔ k ∈ noted c ∨ k ∈ ks := by
  induction ks generalizing c with
  | nil => simp
  | cons l ks ih =>
    rw [Cursor.noteAll_cons, ih (h.note l), noted_note h.frontier]
    simp [or_assoc]

theorem noted_next (h : c.Tidy input) : noted c.next = .empty := by
  unfold noted
  rw [if_neg]
  exact (Nat.lt_succ_of_le h.frontier).ne

namespace Aim.Leaves

theorem congr (h : A.Leaves input c X) (hXY : ∀ v, Allows input c v → (v ∈ X ↔ v ∈ Y)) :
    A.Leaves input c Y :=
  ⟨h.tidy, h.passed, fun v hv => (h.rest v hv).trans (hXY v hv), h.viable⟩

theorem note (h : A.Leaves input c R)
    (hk : A.exact = true → Begins R k) : A.Leaves input (c.note k) R := by
  refine ⟨h.tidy.note k, h.passed, fun v hv => h.rest v fun t ht hn => hv t ht ?_,
    fun hA l hl => ?_⟩
  · rw [noted_note h.tidy.frontier]
    exact Token.KindSet.mem_union.2 (.inl hn)
  · rw [noted_note h.tidy.frontier, Token.KindSet.mem_union, Token.KindSet.mem_single] at hl
    by_cases hn : l ∈ noted c
    · exact h.viable hA l hn
    · obtain rfl := hl.resolve_left hn
      obtain ⟨t, v, ht, hv⟩ := hk hA
      refine ⟨t, v, ht, (h.rest _ fun u hu hu' => ?_).2 hv⟩
      cases hu
      exact absurd (ht ▸ hu') hn

theorem noteAll {ks : List Kind} (h : A.Leaves input c R)
    (hk : A.exact = true → ∀ k ∈ ks, Begins R k) :
    A.Leaves input (c.noteAll ks) R := by
  induction ks generalizing c with
  | nil => exact h
  | cons l ks ih =>
    exact ih (h.note fun hA => hk hA l (.head _)) fun hA k hk' => hk hA k (.tail _ hk')

theorem next (h : A.Leaves input c R) (hk : input.kind c.pos ≠ .endOfInput) :
    A.Leaves input c.next (R.leftQuotient [input.token c.pos]) := by
  refine ⟨h.tidy.next hk, fun i hi => ?_, fun v _ => ?_, fun _ k hk => ?_⟩
  · obtain hi | rfl := Nat.lt_succ_iff_lt_or_eq.1 hi
    · exact h.passed i hi
    · exact hk
  · have hv := h.rest (input.token c.pos :: v) fun t ht _ => by cases ht; rfl
    rwa [Cursor.next_pos, Input.span_concat (Nat.zero_le _) (Cursor.lt_size_of_kind hk),
      List.append_assoc]
  · rw [noted_next h.tidy] at hk
    exact absurd hk (Token.KindSet.not_mem_empty k)

/-- What begins with a kind that the current token is known not to have does not count. -/
theorem drop {ks : List Kind} (h : A.Leaves input c (X + Y)) (hX : Starts X ks)
    (hn : ∀ k ∈ ks, k ∈ noted c) (hk : input.kind c.pos ∉ ks) : A.Leaves input c Y :=
  h.congr fun v hv => by
    refine ⟨fun hm => hm.resolve_left fun hm => ?_, .inr⟩
    obtain ⟨t, v, rfl, ht⟩ := hX v hm
    exact hk (hv t rfl (hn _ ht) ▸ ht)

theorem lost (h : A.Leaves input c 0) (v : List Token) :
    input.span 0 c.pos ++ input.token c.pos :: v ∉ A.words := fun hv =>
  Language.notMem_zero _ ((h.rest _ fun t ht _ => by cases ht; rfl).1 hv)

theorem mismatch (h : A.Leaves input c 0) (hk : k ∈ noted c) : A.Rejects input .mismatch c :=
  ⟨h.passed, fun _ => ⟨h, k, hk⟩, fun _ => h.lost, fun _ he => by cases he⟩

/-- If anything is left to read, the tokens read so far can be completed. -/
theorem exists_completion (h : A.Leaves input c R) (hA : A.exact = true) (hR : Possible R) :
    ∃ v, input.span 0 c.pos ++ v ∈ A.words := by
  obtain ⟨v, hv⟩ := hR
  by_cases hallows : Allows input c v
  · exact ⟨v, (h.rest v hallows).2 hv⟩
  · unfold Allows at hallows
    push Not at hallows
    obtain ⟨t, -, hn, -⟩ := hallows
    obtain ⟨u, v, -, hw⟩ := h.viable hA _ hn
    exact ⟨u :: v, hw⟩

end Aim.Leaves

namespace Elsewhere

variable {ks ls : List Kind}

theorem zero : Elsewhere input ks c 0 := .inl rfl

theorem avoids (h : Elsewhere input ks c Y) : Avoids Y ks := by
  obtain rfl | ⟨-, h⟩ := h
  · exact .zero
  · exact h

/-- If the current token is none of some kinds, it is one of the others. -/
theorem others (h : Elsewhere input ks c Y) (ms : List Kind) (hk : input.kind c.pos ∉ ls)
    (hs : ∀ k ∈ ks, k ∈ ls ∨ k ∈ ms) (hm : ms ⊆ ks) : Elsewhere input ms c Y :=
  h.imp_right fun h => ⟨(hs _ h.1).resolve_left hk, h.2.mono hm⟩

theorem eq_zero (h : Elsewhere input ks c Y) (hk : input.kind c.pos ∉ ks) : Y = 0 :=
  h.resolve_right fun h => hk h.1

end Elsewhere

end Botscript.Grammar
