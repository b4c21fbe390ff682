import Botscript.Proofs.Grammar.Callees
import Botscript.Proofs.Grammar.Exact
import Botscript.Proofs.Program.Like
import Botscript.Proofs.Token.Spelled

/-!
# Inputs with the same tokens

`Twins` are two inputs whose tokens differ in their places only, and of which the second knows at
least the functions that the first knows. `Twins.Alike` relates two steps, one for each: from the
same cursor they come to the same cursor, and what they answer is related. Only a call that the
first input does not know and the second does ends this. On the way all calls noted stand in the
source (`CallSite.Proper`).
-/

namespace Botscript.Parse

open Computability Token Grammar ParseM

/-! ## Calls in a source -/

/-- The token before an index is no dot. -/
def Settled (input : Input) (i : Nat) : Prop := ∀ j, i = j + 1 → input.kind j ≠ .dot

/-- A call of a known function, which ends before an index: a name, and between parentheses the
tokens of expressions. -/
structure CallSite.Proper (input : Input) (pos : Nat) (site : CallSite) : Prop where
  name : input.kind site.name = .identifier
  opening_eq : site.opening = site.name + 1
  opening : input.kind site.opening = .lparen
  lt : site.opening < site.closing
  closing : input.kind site.closing = .rparen
  closing_lt : site.closing < pos
  args : input.span (site.opening + 1) site.closing ∈
    opt (sepBy (sentences (dialect input.registry) .expression))
  known : (input.registry (input.token site.name).image).isSome

theorem CallSite.Proper.mono {input : Input} {pos pos' : Nat} {site : CallSite}
    (h : site.Proper input pos) (hle : pos ≤ pos') : site.Proper input pos' :=
  { h with closing_lt := h.closing_lt.trans_le hle }

/-- A cursor that a run of the predictive parser comes by, but not just behind a dot. The calls
noted so far stand in the source. -/
structure Cursor.Sound (input : Input) (c : Cursor) : Prop extends c.Reached input where
  settled : Settled input c.pos
  calls : ∀ site ∈ c.calls, site.Proper input c.pos

namespace Cursor.Sound

variable {input : Input} {c : Cursor}

theorem note (h : c.Sound input) (k : Kind) : (c.note k).Sound input :=
  ⟨h.toReached.note k, h.settled, h.calls⟩

theorem noteAll (h : c.Sound input) (ks : List Kind) : (c.noteAll ks).Sound input :=
  ⟨h.toReached.noteAll ks, by rw [noteAll_pos]; exact h.settled,
    by rw [noteAll_calls, noteAll_pos]; exact h.calls⟩

theorem next (h : c.Sound input) (hk : input.kind c.pos ≠ .endOfInput)
    (hd : input.kind c.pos ≠ .dot) : c.next.Sound input :=
  ⟨h.toReached.next hk, fun j hj => by cases hj; exact hd,
    fun site hs => (h.calls site hs).mono (Nat.le_succ _)⟩

theorem forgetCalls (h : c.Sound input) : c.forgetCalls.Sound input :=
  ⟨h.toReached.of_same rfl rfl rfl, h.settled, fun _ hs => absurd hs List.not_mem_nil⟩

theorem addCall (h : c.Sound input) {site : CallSite} (hs : site.Proper input c.pos) :
    (c.addCall site).Sound input := by
  refine ⟨h.toReached.of_same rfl rfl rfl, h.settled, fun other ho => ?_⟩
  obtain ho | ho := List.mem_append.1 ho
  · exact h.calls other ho
  · exact List.mem_singleton.1 ho ▸ hs

theorem remember (h : c.Sound input) {before : Cursor} (hlt : before.pos < c.pos) :
    (c.remember before).Sound input :=
  ⟨⟨h.tidy.remember hlt, h.passed⟩, h.settled, h.calls⟩

end Cursor.Sound

/-! ## Tokens without their places -/

namespace Input

variable (input : Input) (i j : Nat)

/-- The token of an index, without its place, among tokens without places. -/
theorem bare_token : (input.token i).bare =
    match (input.tokens.toList.map bare)[i]? with
    | some t => t
    | none =>
      match (input.tokens.toList.map bare).getLast? with
      | some last => if last.kind = .endOfInput then last else ⟨.endOfInput, "", .origin, 0⟩
      | none => ⟨.endOfInput, "", .origin, 0⟩ := by
  rw [List.getElem?_map, List.getLast?_map, Array.getElem?_toList, Array.getLast?_toList]
  unfold Input.token
  cases input.tokens[i]? with
  | some t => rfl
  | none =>
    unfold Input.ending
    cases input.tokens.back? with
    | none => rfl
    | some last =>
      dsimp only [Option.map_none, Option.map_some]
      rw [bare_kind]
      split_ifs <;> rfl

theorem map_bare_span_eq : (input.span i j).map bare =
    ((input.tokens.toList.map bare).drop i).take (j - i) := by
  rw [span, Array.toList_extract, List.extract, List.map_take, List.map_drop]

end Input

/-! ## Two inputs -/

/-- Two inputs with the same tokens in other places. The texts between the same tokens of both are
in a relation, and so are the calls that factories make of such texts. -/
structure Twins (input input' : Input) (texts : String → String → Prop) : Prop where
  ended : Ended input.tokens.toList
  remembers : input.remembers = true
  remembers' : input'.remembers = true
  tokens : input'.tokens.toList.map bare = input.tokens.toList.map bare
  between : ∀ i j, i ≤ j → (∀ k < j, input.kind k ≠ .endOfInput) →
    texts (input.between i j) (input'.between i j)
  registry : ∀ name make, input.registry name = some make →
    ∃ make', input'.registry name = some make' ∧
      ∀ args args', texts args args' → (make args).Like texts (make' args')

namespace Twins

variable {input input' : Input} {texts : String → String → Prop} (w : Twins input input' texts)

section Tokens

include w

theorem size : input'.tokens.size = input.tokens.size := by
  simpa using congrArg List.length w.tokens

theorem token (i : Nat) : (input'.token i).bare = (input.token i).bare := by
  rw [Input.bare_token, Input.bare_token, w.tokens]

theorem kind (i : Nat) : input'.kind i = input.kind i := by
  rw [Input.kind, Input.kind, ← bare_kind, w.token, bare_kind]

theorem image (i : Nat) : (input'.token i).image = (input.token i).image := by
  rw [← bare_image, w.token, bare_image]

theorem map_bare_span (i j : Nat) : (input'.span i j).map bare = (input.span i j).map bare := by
  rw [Input.map_bare_span_eq, Input.map_bare_span_eq, w.tokens]

theorem tidy {c : Cursor} (h : c.Tidy input) : c.Tidy input' :=
  ⟨w.size ▸ h.bounded, h.frontier, h.fresh⟩

end Tokens

end Twins

theorem spanText_of_bare {u v : List Token} (h : u.map bare = v.map bare) :
    spanText u = spanText v := by
  have himage : ∀ w : List Token, w.map image = (w.map bare).map image := fun w => by
    rw [List.map_map]
    rfl
  rw [spanText, spanText, himage u, himage v, h]

theorem statementText_of_bare {u v : List Token} (h : u.map bare = v.map bare) :
    statementText u = statementText v := by
  have hlast : u.getLast?.map bare = v.getLast?.map bare := by
    rw [← List.getLast?_map, ← List.getLast?_map, h]
  have hfront : spanText u.dropLast = spanText v.dropLast :=
    spanText_of_bare (by rw [List.map_dropLast, List.map_dropLast, h])
  unfold statementText
  rw [spanText_of_bare h, hfront]
  cases hu : u.getLast? with
  | none =>
    rw [hu, Option.map_none, eq_comm, Option.map_eq_none_iff] at hlast
    rw [hlast]
  | some t =>
    rw [hu, Option.map_some, eq_comm, Option.map_eq_some_iff] at hlast
    obtain ⟨t', ht', hb⟩ := hlast
    have hk : t'.kind = t.kind := by rw [← bare_kind t', hb, bare_kind]
    rw [ht']
    dsimp only
    rw [hk]

namespace Twins

variable {α β γ δ : Type} {input input' : Input} {texts : String → String → Prop}
  (w : Twins input input' texts)

/-! ## Two runs -/

/-- How two runs from a cursor end. -/
inductive Answers (input input' : Input) (R : α → β → Prop) (c : Cursor) :
    EStateM.Result Failure Cursor α → EStateM.Result Failure Cursor β → Prop
  | ok {a : α} {b : β} {d : Cursor} (h : R a b) (hd : d.Sound input) (hle : c.pos ≤ d.pos) :
    Answers input input' R c (.ok a d) (.ok b d)
  | mismatch {d : Cursor} : Answers input input' R c (.error .mismatch d) (.error .mismatch d)
  | tooDeep {i : Nat} {d : Cursor} (hi : i < input.tokens.size) :
    Answers input input' R c (.error (.tooDeep (input.token i)) d)
      (.error (.tooDeep (input'.token i)) d)
  | unknown {i : Nat} {d : Cursor} (hi : Callee input.tokens.toList i (input.token i)) :
    Answers input input' R c (.error (.unknownFunction (input.token i)) d)
      (.error (.unknownFunction (input'.token i)) d)
  | missing {i : Nat} {d : Cursor} {r : EStateM.Result Failure Cursor β}
    (hi : Callee input.tokens.toList i (input.token i))
    (hnone : input.registry (input.token i).image = none)
    (hsome : (input'.registry (input.token i).image).isSome) :
    Answers input input' R c (.error (.unknownFunction (input.token i)) d) r

/-- Two steps run alike from a cursor. -/
def AlikeAt (_ : Twins input input' texts) (c : Cursor) (R : α → β → Prop) (m : ParseM α)
    (m' : ParseM β) : Prop := Answers input input' R c (m.run input c) (m'.run input' c)

/-- Two steps run alike from every cursor. -/
def Alike (w : Twins input input' texts) (R : α → β → Prop) (m : ParseM α) (m' : ParseM β) : Prop :=
  ∀ c, c.Sound input → w.AlikeAt c R m m'

variable {w} {R : α → β → Prop} {S : γ → δ → Prop} {c d : Cursor} {m : ParseM α} {m' : ParseM β}

theorem AlikeAt.of_ok {a : α} {b : β} (hm : m.run input c = .ok a d)
    (hm' : m'.run input' c = .ok b d) (h : R a b) (hd : d.Sound input) (hle : c.pos ≤ d.pos) :
    w.AlikeAt c R m m' := by
  unfold AlikeAt
  rw [hm, hm']
  exact .ok h hd hle

theorem Answers.of_le {r : EStateM.Result Failure Cursor α} {r' : EStateM.Result Failure Cursor β}
    (h : Answers input input' R d r r') (hle : c.pos ≤ d.pos) : Answers input input' R c r r' := by
  cases h with
  | ok hR hd hle' => exact .ok hR hd (hle.trans hle')
  | mismatch => exact .mismatch
  | tooDeep hi => exact .tooDeep hi
  | unknown hi => exact .unknown hi
  | missing hi hnone hsome => exact .missing hi hnone hsome

variable {f : α → ParseM γ} {f' : β → ParseM δ}

theorem AlikeAt.bind (hm : w.AlikeAt c R m m')
    (hf : ∀ a b d, m.run input c = .ok a d → R a b → d.Sound input → w.AlikeAt d S (f a) (f' b)) :
    w.AlikeAt c S (m >>= f) (m' >>= f') := by
  unfold AlikeAt at hm hf ⊢
  rw [run_bind, run_bind]
  revert hm hf
  generalize m.run input c = r, m'.run input' c = r'
  intro hm hf
  cases hm with
  | ok hR hd hle => exact (hf _ _ _ rfl hR hd).of_le hle
  | mismatch => exact .mismatch
  | tooDeep hi => exact .tooDeep hi
  | unknown hi => exact .unknown hi
  | missing hi hnone hsome => exact .missing hi hnone hsome

theorem AlikeAt.bind_of_ok {a : α} {b : β} (hm : m.run input c = .ok a d)
    (hm' : m'.run input' c = .ok b d) (hle : c.pos ≤ d.pos) (h : w.AlikeAt d S (f a) (f' b)) :
    w.AlikeAt c S (m >>= f) (m' >>= f') := by
  unfold AlikeAt at h ⊢
  rw [run_bind_of_ok hm, run_bind_of_ok hm']
  exact h.of_le hle

namespace Alike

theorem bind (hm : w.Alike R m m') (hf : ∀ a b, R a b → w.Alike S (f a) (f' b)) :
    w.Alike S (m >>= f) (m' >>= f') := fun c hc =>
  (hm c hc).bind fun a b d _ hR hd => hf a b hR d hd

/-- Two steps that answer the same, and what is done with it. -/
theorem bind_eq {n n' : ParseM α} {f : α → ParseM γ} {f' : α → ParseM δ} (hm : w.Alike Eq n n')
    (hf : ∀ a, w.Alike S (f a) (f' a)) : w.Alike S (n >>= f) (n' >>= f') :=
  hm.bind fun a _ he => he ▸ hf a

theorem pure {a : α} {b : β} (h : R a b) : w.Alike R (Pure.pure a) (Pure.pure b) :=
  fun _ hc => .of_ok rfl rfl h hc le_rfl

theorem mono {R' : α → β → Prop} (hm : w.Alike R m m') (h : ∀ a b, R a b → R' a b) :
    w.Alike R' m m' := by
  have hbind := hm.bind fun a b hR => pure (h a b hR)
  rwa [bind_pure, bind_pure] at hbind

theorem map {g : α → γ} {g' : β → δ} (hm : w.Alike R m m') (h : ∀ a b, R a b → S (g a) (g' b)) :
    w.Alike S (g <$> m) (g' <$> m') := by
  rw [map_eq_pure_bind, map_eq_pure_bind]
  exact hm.bind fun a b hR => pure (h a b hR)

theorem ite {p : Prop} [Decidable p] {n : ParseM α} {n' : ParseM β} (h : p → w.Alike R m m')
    (h' : ¬p → w.Alike R n n') : w.Alike R (if p then m else n) (if p then m' else n') := by
  split
  · exact h ‹_›
  · exact h' ‹_›

theorem throw_mismatch : w.Alike R (throw .mismatch) (throw .mismatch) := fun _ _ => .mismatch

theorem failTooDeep : w.Alike R (ParseM.failTooDeep) (ParseM.failTooDeep) := fun c hc => by
  have hlt := w.ended.lt_length hc.passed
  rw [Array.length_toList] at hlt
  exact .tooDeep hlt

/-! ### Looking at tokens -/

theorem read {f : Input → ParseM γ} {f' : Input → ParseM δ}
    (h : w.Alike S (f input) (f' input')) : w.Alike S (MonadReader.read >>= f)
      (MonadReader.read >>= f') := fun c hc => .bind_of_ok run_read run_read le_rfl (h c hc)

theorem position : w.Alike (fun i j => i = j ∧ Settled input i) ParseM.position ParseM.position :=
  fun _ hc => .of_ok run_position run_position ⟨rfl, hc.settled⟩ hc le_rfl

theorem current : w.Alike (fun t t' => t'.bare = t.bare) ParseM.current ParseM.current :=
  fun c hc => .of_ok run_current run_current (w.token c.pos) hc le_rfl

theorem check (k : Kind) : w.Alike Eq (ParseM.check k) (ParseM.check k) := fun c hc =>
  .of_ok (run_check k) (run_check k) (by rw [w.kind]) (hc.note k) le_rfl

theorem checkAny (ks : List Kind) : w.Alike Eq (ParseM.checkAny ks) (ParseM.checkAny ks) :=
  fun c hc => .of_ok (run_checkAny ks) (run_checkAny ks) (by rw [w.kind]) (hc.noteAll ks)
    (Cursor.noteAll_pos c ks).ge

end Alike

/-- A dot is passed together with what is behind it only. -/
theorem alikeAt_advance (hc : c.Sound input) (hd : input.kind c.pos ≠ .dot) :
    w.AlikeAt c Eq advance advance := by
  by_cases hk : input.kind c.pos = .endOfInput
  · exact .of_ok (run_advance_of_end hk) (run_advance_of_end (by rwa [w.kind])) rfl hc le_rfl
  · exact .of_ok (run_advance hk) (run_advance (by rwa [w.kind])) rfl (hc.next hk hd)
      (Nat.le_succ _)

namespace Alike

theorem eatAny {ks : List Kind} (hd : .dot ∉ ks) :
    w.Alike Eq (ParseM.eatAny ks) (ParseM.eatAny ks) := fun c hc => by
  refine .bind_of_ok (run_checkAny ks) (run_checkAny ks) (Cursor.noteAll_pos c ks).ge ?_
  rw [w.kind]
  by_cases hk : input.kind c.pos ∈ ks
  · rw [decide_eq_true hk, if_pos rfl]
    have hne : input.kind (c.noteAll ks).pos ≠ .dot := fun he => by
      rw [Cursor.noteAll_pos] at he
      exact hd (he ▸ hk)
    exact (alikeAt_advance (hc.noteAll ks) hne).bind fun _ _ _ _ _ => Alike.pure rfl _
  · rw [decide_eq_false hk, if_neg Bool.false_ne_true]
    exact Alike.pure rfl _ (hc.noteAll ks)

theorem eat {k : Kind} (hd : k ≠ .dot) : w.Alike Eq (ParseM.eat k) (ParseM.eat k) := by
  rw [eat_eq_eatAny]
  exact eatAny (by simpa using hd.symm)

theorem expect {k : Kind} (hd : k ≠ .dot) :
    w.Alike (fun t t' => t'.bare = t.bare) (ParseM.expect k) (ParseM.expect k) :=
  current.bind fun _ _ ht => (eat hd).bind_eq fun _ =>
    ite (fun _ => pure ht) fun _ => throw_mismatch

theorem upTo {k : Kind} (hd : k ≠ .dot) {step step' : ParseM Unit} (h : w.Alike Eq step step') :
    w.Alike Eq (ParseM.upTo k step) (ParseM.upTo k step') :=
  ((check k).bind_eq fun _ => ite (fun _ => pure rfl) fun _ => h).bind_eq fun _ =>
    position.bind fun _ _ hp => (expect hd).bind fun _ _ _ => pure hp.1

/-! ### Loops -/

theorem manyUpTo {step : ParseM (Option α)} {step' : ParseM (Option β)}
    (h : w.Alike (Option.Rel R) step step') : ∀ bound, w.Alike (List.Forall₂ R)
      (ParseM.manyUpTo step bound) (ParseM.manyUpTo step' bound)
  | 0 => pure .nil
  | bound + 1 => h.bind fun
    | none, none, _ => pure .nil
    | some _, some _, hR => (manyUpTo h bound).bind fun _ _ hrest =>
      pure (.cons (by cases hR; assumption) hrest)
    | none, some _, hR | some _, none, hR => by cases hR

theorem many {step : ParseM (Option α)} {step' : ParseM (Option β)}
    (h : w.Alike (Option.Rel R) step step') :
    w.Alike (List.Forall₂ R) (ParseM.many step) (ParseM.many step') :=
  read (by rw [w.size]; exact manyUpTo h _)

theorem eatAnyThen {ks : List Kind} (hd : .dot ∉ ks) (h : w.Alike R m m') :
    w.Alike (Option.Rel R) (do if ← ParseM.eatAny ks then some <$> m else return none)
      (do if ← ParseM.eatAny ks then some <$> m' else return none) :=
  (eatAny hd).bind_eq fun _ => ite (fun _ => h.map fun _ _ => .some) fun _ => pure .none

theorem eatThen {k : Kind} (hd : k ≠ .dot) (h : w.Alike R m m') :
    w.Alike (Option.Rel R) (do if ← ParseM.eat k then some <$> m else return none)
      (do if ← ParseM.eat k then some <$> m' else return none) :=
  (eat hd).bind_eq fun _ => ite (fun _ => h.map fun _ _ => .some) fun _ => pure .none

theorem sepByComma (h : w.Alike R m m') :
    w.Alike (List.Forall₂ R) (ParseM.sepByComma m) (ParseM.sepByComma m') :=
  h.bind fun _ _ hR => (many (eatThen (by decide) h)).bind fun _ _ hrest => pure (.cons hR hrest)

/-! ### Texts -/

theorem textFrom (start : Nat) : w.Alike Eq (Parse.textFrom start) (Parse.textFrom start) :=
  read (position.bind fun i _ hi => hi.1 ▸ pure (spanText_of_bare (w.map_bare_span start i).symm))

theorem plainFrom (start : Nat) :
    w.Alike (Item.Like texts) (Parse.plainFrom start) (Parse.plainFrom start) :=
  read (position.bind fun i _ hi => hi.1 ▸ pure (by
    rw [statementText_of_bare (w.map_bare_span start i)]
    exact .plain _))

end Alike

end Twins

end Botscript.Parse
