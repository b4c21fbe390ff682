import Botscript.Proofs.Parse.Bounds
import Botscript.Proofs.Parse.Dependence

/-!
# Tokens without their end

The end of input may be missing from the tokens. Where it would stand one is made up then, which has
no line or column, and nothing else is different (`parseTokens_dropLast`). The two runs are compared
along the course of the one that has the end: all it reads, it reads in front of the end, and at the
end it looks at the kind alone.
-/

namespace Botscript

open Token

/-- The end of input without its line and column; other tokens as they are. -/
def Token.unplaced (t : Token) : Token :=
  if t.kind = .endOfInput then { t with pos := ⟨0, 0, t.start⟩ } else t

/-- The same error, but without line and column if it is at the end of input. -/
def ParseError.unplaced (e : ParseError) : ParseError := { e with token := e.token.unplaced }

namespace Parse

open ParseM

/-- The second input is the first without the end of input, which stands behind the source. -/
structure Endless (last : Token) (input input' : Input) : Prop where
  tokens : input.tokens = input'.tokens.push last
  body : ∀ t ∈ input'.tokens, t.kind ≠ .endOfInput
  kind_last : last.kind = .endOfInput
  image_last : last.image = ""
  start_last : last.start = byteLength input.source
  stop_last : last.stop = byteLength input.source
  source : input'.source = input.source
  registry : input'.registry = input.registry
  remembers : input'.remembers = input.remembers

/-- How the runs with and without the end of input end: with the same answer or the same failure,
at the token of one index, and at the same cursor. -/
inductive Endless.Alike {α : Type} (input input' : Input) :
    EStateM.Result Failure Cursor α → EStateM.Result Failure Cursor α → Prop
  | ok {a : α} {c : Cursor} : Alike input input' (.ok a c) (.ok a c)
  | mismatch {c : Cursor} : Alike input input' (.error .mismatch c) (.error .mismatch c)
  | unknownFunction {i : Nat} {c : Cursor} : Alike input input'
    (.error (.unknownFunction (input.token i)) c) (.error (.unknownFunction (input'.token i)) c)
  | tooDeep {i : Nat} {c : Cursor} : Alike input input'
    (.error (.tooDeep (input.token i)) c) (.error (.tooDeep (input'.token i)) c)

namespace Endless

variable {last : Token} {input input' : Input} (w : Endless last input input') {i j : Nat}

include w

theorem token_of_lt (h : i < input'.tokens.size) : input'.token i = input.token i := by
  rw [Input.token, Input.token, w.tokens, Array.getElem?_push_lt h, Array.getElem?_eq_getElem h]

theorem token_of_le (h : input'.tokens.size ≤ i) : input.token i = last := by
  have hending : input.ending = last := by
    rw [Input.ending, w.tokens, Array.back?_push]
    exact if_pos w.kind_last
  unfold Input.token
  rw [w.tokens]
  obtain rfl | hlt := h.eq_or_lt
  · rw [Array.getElem?_push_size]
  · rw [Array.getElem?_eq_none (by rw [Array.size_push]; exact hlt)]
    exact hending

theorem made_of_le (h : input'.tokens.size ≤ i) :
    input'.token i = Token.ending ⟨0, 0, byteLength input.source⟩ := by
  unfold Input.token
  rw [Array.getElem?_eq_none h]
  unfold Input.ending
  cases hlast : input'.tokens.back? with
  | none => rw [← w.source]; rfl
  | some last =>
    dsimp only
    rw [if_neg (w.body _ (Array.mem_of_back? hlast)), ← w.source]
    rfl

/-- Only the line and the column of the end of input are different. -/
theorem token (i : Nat) : input'.token i = (input.token i).unplaced := by
  unfold Token.unplaced
  obtain h | h := Nat.lt_or_ge i input'.tokens.size
  · have hne : (input.token i).kind ≠ .endOfInput := by
      rw [← w.token_of_lt h, Input.token, Array.getElem?_eq_getElem h]
      exact w.body _ (Array.getElem_mem h)
    rw [if_neg hne, w.token_of_lt h]
  · rw [w.made_of_le h, w.token_of_le h, if_pos w.kind_last, w.start_last, w.kind_last,
      w.image_last, w.stop_last]
    rfl

theorem kind (i : Nat) : input'.kind i = input.kind i := by
  rw [Input.kind, w.token, Input.kind, Token.unplaced]
  split <;> rfl

theorem made_of_kind (h : input'.kind i = .endOfInput) :
    input'.token i = Token.ending ⟨0, 0, byteLength input.source⟩ := by
  refine w.made_of_le (Nat.le_of_not_lt fun hlt => ?_)
  rw [Input.kind, Input.token, Array.getElem?_eq_getElem hlt] at h
  exact w.body _ (Array.getElem_mem hlt) h

theorem limit_le : input.limit ≤ input'.tokens.size :=
  Input.limit_le (by rw [Input.kind, w.token_of_le le_rfl, w.kind_last])

theorem span (h : j ≤ input.limit) : input'.span i j = input.span i j := by
  have hj : j ≤ input'.tokens.size := h.trans w.limit_le
  rw [Input.span_eq_map hj, Input.span_eq_map (h.trans Input.limit_le_size)]
  refine List.map_congr_left fun n hn => w.token_of_lt ?_
  have hn := List.mem_range.1 hn
  omega

theorem between {site : CallSite} (h : site.Lies input j) (hj : j ≤ input.limit) :
    input'.between (site.opening + 1) site.closing =
      input.between (site.opening + 1) site.closing := by
  have hclosing := h.before.trans_le (hj.trans w.limit_le)
  have hopening := h.nonempty
  unfold Input.between
  split
  · rfl
  · rw [w.source, w.token_of_lt (by omega), w.token_of_lt (by omega)]

/-! ## Runs -/

/-- A token that is expected is not the end of input, so both runs answer with it. -/
theorem expect {k : Kind} {c : Cursor} (hc : c.pos ≤ input.limit) (hk : k ≠ .endOfInput) :
    Alike input input' ((ParseM.expect k).run input c) ((ParseM.expect k).run input' c) := by
  by_cases h : input.kind c.pos = k
  · have hlt : c.pos < input'.tokens.size :=
      (Input.lt_limit hc (h ▸ hk)).trans_le w.limit_le
    rw [run_expect_of_eq h hk, run_expect_of_eq (by rw [w.kind, h]) hk, w.token_of_lt hlt]
    exact .ok
  · rw [run_expect_of_ne h, run_expect_of_ne (by rwa [w.kind])]
    exact .mismatch

/-- Where the end of input is expected, the token itself is not kept. -/
theorem expectEnd (c : Cursor) : Alike input input' (Act.expectEnd.step.run input c)
    (Act.expectEnd.step.run input' c) := by
  by_cases h : input.kind c.pos = .endOfInput
  · have h' : input'.kind c.pos = .endOfInput := by rw [w.kind, h]
    rw [Act.step, run_bind_of_ok (run_expect_end h), run_bind_of_ok (run_expect_end h')]
    exact .ok
  · have h' : input'.kind c.pos ≠ .endOfInput := by rwa [w.kind]
    rw [Act.step, run_bind_of_error (run_expect_of_ne h), run_bind_of_error (run_expect_of_ne h')]
    exact .mismatch

/-- An act within bounds never reads the end of input itself. -/
theorem act {α : Type} (a : Act α) {s : Stage} (hs : s.Sane input) (hr : a.InRange input s.cursor) :
    Alike input input' (a.step.run input s.cursor) (a.step.run input' s.cursor) := by
  have hpos : s.cursor.pos ≤ input'.tokens.size := hs.pos.trans w.limit_le
  cases a with
  | check kind =>
    simp only [Act.step, run_check, w.kind]
    exact .ok
  | checkAny kinds =>
    simp only [Act.step, run_checkAny, w.kind]
    exact .ok
  | advance =>
    by_cases hk : input.kind s.cursor.pos = .endOfInput
    · rw [Act.step, run_advance_of_end hk, run_advance_of_end (by rw [w.kind, hk])]
      exact .ok
    · rw [Act.step, run_advance hk, run_advance (by rwa [w.kind])]
      exact .ok
  | expect kind => exact w.expect hs.pos hr
  | expectEnd => exact w.expectEnd s.cursor
  | position => exact .ok
  | currentKind =>
    simp only [Act.step, run_currentKind, w.kind]
    exact .ok
  | kindAt i =>
    have hrun : ∀ input : Input, (Act.kindAt i).step.run input s.cursor =
        .ok (input.kind i) s.cursor := fun _ => rfl
    rw [hrun, hrun, w.kind]
    exact .ok
  | forgetCalls => exact .ok
  | callSite site =>
    have himage : (input'.token site.name).image = (input.token site.name).image := by
      rw [w.token_of_lt (CallSite.Lies.name_lt hr |>.trans_le hpos)]
    rw [Act.step, Act.run_callSite, Act.run_callSite, w.registry, himage]
    cases input.registry (input.token site.name).image with
    | none => exact .unknownFunction
    | some _ => exact .ok
  | textFrom start =>
    have hrun : ∀ input : Input, (Act.textFrom start).step.run input s.cursor =
        .ok (spanText (input.span start s.cursor.pos)) s.cursor := fun _ => rfl
    rw [hrun, hrun, w.span hs.pos]
    exact .ok
  | plainFrom start =>
    have hrun : ∀ input : Input, (Act.plainFrom start).step.run input s.cursor =
        .ok (.plain (statementText (input.span start s.cursor.pos))) s.cursor := fun _ => rfl
    rw [hrun, hrun, w.span hs.pos]
    exact .ok
  | wholeCall? start stop =>
    rw [Act.step, run_wholeCall?, run_wholeCall?]
    cases hfound : s.cursor.calls.find? _ with
    | none => exact .ok
    | some site =>
      have hlies := hs.calls site (List.mem_of_find?_eq_some hfound)
      rw [Option.bind_some, Option.bind_some, w.registry,
        w.token_of_lt (hlies.name_lt.trans_le hpos), w.between hlies hs.pos]
      exact .ok

omit w in
theorem Alike.bind {α β : Type} {m m' : ParseM β} {f f' : β → ParseM α} {c : Cursor}
    (h : Alike input input' (m.run input c) (m'.run input' c))
    (hnext : ∀ b d, m.run input c = .ok b d →
      Alike input input' ((f b).run input d) ((f' b).run input' d)) :
    Alike input input' ((m >>= f).run input c) ((m' >>= f').run input' c) := by
  rw [run_bind, run_bind]
  generalize hrun : m.run input c = r at h hnext
  generalize m'.run input' c = r' at h
  cases h with
  | ok => exact hnext _ _ rfl
  | mismatch => exact .mismatch
  | unknownFunction => exact .unknownFunction
  | tooDeep => exact .tooDeep

omit w in
theorem Alike.orElse {α : Type} {first first' second second' : ParseM α} {c : Cursor}
    (h : Alike input input' (first.run input c) (first'.run input' c))
    (hnext : ∀ d, first.run input c = .error .mismatch d →
      Alike input input' (second.run input (d.rewind c)) (second'.run input' (d.rewind c))) :
    Alike input input' ((ParseM.orElse first second).run input c)
      ((ParseM.orElse first' second').run input' c) := by
  rw [run_orElse, run_orElse]
  generalize hrun : first.run input c = r at h hnext
  generalize first'.run input' c = r' at h
  cases h with
  | ok => exact .ok
  | mismatch => exact hnext _ rfl
  | unknownFunction => exact .unknownFunction
  | tooDeep => exact .tooDeep

/-- A primary that was not read before is remembered by both runs. -/
theorem remembering {primary primary' : ParseM Unit} {c : Cursor} (hr : input.remembers = true)
    (hunknown : c.memory[c.pos]? = none)
    (h : Alike input input' (primary.run input c) (primary'.run input' c)) :
    Alike input input' ((ParseM.remembering primary).run input c)
      ((ParseM.remembering primary').run input' c) := by
  rw [run_remembering_of_unknown hr hunknown,
    run_remembering_of_unknown (w.remembers ▸ hr) hunknown]
  generalize primary.run input c = r at h
  generalize primary'.run input' c = r' at h
  cases h with
  | ok => exact .ok
  | mismatch => exact .mismatch
  | unknownFunction => exact .unknownFunction
  | tooDeep => exact .tooDeep

omit w in
/-- A loop that moves on with each round comes to its end before the end of input, so it does not
matter how many rounds there might be. -/
theorem manyUpTo {β : Type} {step : ParseM (Option β)} {I : List β → Cursor → Prop}
    (hpos : ∀ bs c, I bs c → c.pos ≤ input.limit)
    (hstep : ∀ bs c, I bs c → Alike input input' (step.run input c) (step.run input' c))
    (hround : ∀ bs c b d, I bs c → step.run input c = .ok (some b) d →
      I (bs ++ [b]) d ∧ c.pos < d.pos) (bound bound' : Nat) {bs : List β} {c : Cursor}
    (h : I bs c) (hbound : input.limit < c.pos + bound) (hbound' : input.limit < c.pos + bound') :
    Alike input input' ((ParseM.manyUpTo step bound).run input c)
      ((ParseM.manyUpTo step bound').run input' c) := by
  induction bound generalizing bound' bs c with
  | zero =>
    have hle := hpos bs c h
    omega
  | succ bound ih =>
    cases bound' with
    | zero =>
      have hle := hpos bs c h
      omega
    | succ bound' =>
      rw [ParseM.manyUpTo, ParseM.manyUpTo]
      refine .bind (hstep bs c h) fun b d hb => ?_
      cases b with
      | none => exact .ok
      | some b =>
        obtain ⟨hI, hlt⟩ := hround bs c b d h hb
        exact .bind (ih bound' hI (by omega) (by omega)) fun _ _ _ => .ok

/-- What has a course with the end of input runs the same without. -/
theorem course {α : Type} {P : Nested → ParseM α} {s : Stage} {Q : α → Stage → Prop}
    {E : Failure → Stage → Prop} (h : Course input P s Q E) :
    Alike input input' ((P (.ofLevels (maxNesting - s.depth))).run input s.cursor)
      ((P (.ofLevels (maxNesting - s.depth))).run input' s.cursor) := by
  -- where a rule goes on behind a part, `ends` has that the run of this part ended at a sane stage
  induction h with
  | pure => exact .ok
  | mismatch => exact .mismatch
  | act hs hr => exact w.act _ hs hr
  | bind h _ ih ihnext =>
    exact .bind ih fun b c hb => ihnext b ⟨_, c⟩ (h.ends.ok hb).1 (h.ends.ok hb).2
  | @orElse _ _ _ _ s first second h _ _ ih ihnext =>
    exact .orElse ih fun d hd =>
      ihnext ⟨s.depth, d⟩ (h.ends.error hd).1 (h.ends.error hd).2
  | known hr hs hknown h =>
    rw [run_remembering_of_known hr hknown,
      run_remembering_of_known (w.remembers ▸ hr) hknown]
    exact .ok
  | unknown hr hunknown _ ih => exact w.remembering hr hunknown ih
  | @many _ _ _ s P I hs h hround ih =>
    refine manyUpTo (I := fun bs c => (⟨s.depth, c⟩ : Stage).Sane input ∧ I bs ⟨s.depth, c⟩)
      (fun bs c hI => hI.1.pos) (fun bs c hI => ih bs ⟨s.depth, c⟩ hI.1 hI.2)
      (fun bs c b d hI hb => ?_) _ _ ⟨hs, h⟩ ?_ ?_
    · have hend := (hround bs ⟨s.depth, c⟩ hI.1 hI.2).ends.ok hb
      exact ⟨⟨hend.1, hend.2.1⟩, hend.2.2⟩
    · have hle : input.limit ≤ input.tokens.size := Input.limit_le_size
      omega
    · have hle := w.limit_le
      omega
  | @nested _ _ _ s part hs hlt _ ih =>
    dsimp only
    rw [Part.get_of_lt part hlt]
    exact ih
  | tooDeep hs heq h =>
    dsimp only
    rw [Part.get_of_eq _ heq]
    exact .tooDeep

/-- Both parses come to the same program, or to an error with the same cause at the token of one
index. -/
theorem parse_cases (hr : input.remembers = true) (hcuts : input.Cut) :
    (∃ p, input.parse = .ok p ∧ input'.parse = .ok p) ∨
      ∃ i cause, input.parse = .error ⟨input.token i, cause⟩ ∧
        input'.parse = .error ⟨input'.token i, cause⟩ := by
  have hgoes := (nestedGoes hr hcuts (Nat.zero_le maxNesting)).program ⟨0, .initial⟩ rfl le_rfl
    (Stage.sane_initial input)
  have halike : Alike input input' (program.run input .initial) (program.run input' .initial) :=
    w.course hgoes
  unfold Input.parse
  generalize program.run input .initial = r at halike
  generalize program.run input' .initial = r' at halike
  cases halike with
  | ok => exact .inl ⟨_, rfl, rfl⟩
  | mismatch => exact .inr ⟨_, _, rfl, rfl⟩
  | unknownFunction => exact .inr ⟨_, _, rfl, rfl⟩
  | tooDeep => exact .inr ⟨_, _, rfl, rfl⟩

end Endless

end Parse

open Parse

theorem endless_of_tokenize {source : String} {tokens : List Token}
    (h : tokenize source = .ok tokens) (registry : Registry) : ∃ last,
      Endless last ⟨source.toList, tokens.toArray, registry, true⟩
        ⟨source.toList, tokens.dropLast.toArray, registry, true⟩ := by
  obtain ⟨body, last, rfl, hbody, hkind, himage, hstart, hstop⟩ := (covers_tokenize h).ended
  rw [List.dropLast_concat]
  exact ⟨last, by simp, fun t ht => (hbody t (by simpa using ht)).1, hkind, himage, hstart, hstop,
    rfl, rfl, rfl⟩

/-- Without the end of input a source is parsed to the same program, or refused for the same cause
at the same token, unless that is the end of input: it is then reported behind the last byte as
before, but without line and column. -/
theorem parseTokens_dropLast {source : String} {tokens : List Token}
    (h : tokenize source = .ok tokens) (registry : Registry) :
    parseTokens source tokens.dropLast registry =
      (parseTokens source tokens registry).mapError ParseError.unplaced ∧
    ∀ e, parseTokens source tokens.dropLast registry = .error e → e.token.kind = .endOfInput →
      e.token = ⟨.endOfInput, "", ⟨0, 0, source.utf8ByteSize⟩, source.utf8ByteSize⟩ := by
  obtain ⟨last, w⟩ := endless_of_tokenize h registry
  have hcuts := cut_of_slice h List.infix_rfl registry
  unfold parseTokens
  obtain ⟨p, hp, hp'⟩ | ⟨i, cause, he, he'⟩ := w.parse_cases rfl hcuts
  · rw [hp, hp']
    exact ⟨rfl, fun e he => by cases he⟩
  · refine ⟨?_, fun e heq hkind => ?_⟩
    · rw [he, he', w.token]
      rfl
    · rw [he'] at heq
      cases heq
      rw [w.made_of_kind hkind, ← byteLength_toList]
      rfl

/-- Parameters that are not closed, and a comment behind them. -/
theorem parseTokens_dropLast_open : ∃ tokens, tokenize "func f(\n// é\n" = .ok tokens ∧
    parseTokens "func f(\n// é\n" tokens (fun _ => none) = .error
      ⟨⟨.endOfInput, "", ⟨3, 1, 14⟩, 14⟩, .unexpected [.identifier, .kwVar, .rparen]⟩ ∧
    parseTokens "func f(\n// é\n" tokens.dropLast (fun _ => none) = .error
      ⟨⟨.endOfInput, "", ⟨0, 0, 14⟩, 14⟩, .unexpected [.identifier, .kwVar, .rparen]⟩ := by
  have he : parse "func f(\n// é\n" (fun _ => none) = .error (.grammatical
      ⟨⟨.endOfInput, "", ⟨3, 1, 14⟩, 14⟩, .unexpected [.identifier, .kwVar, .rparen]⟩) := by
    decide +kernel
  cases h : tokenize "func f(\n// é\n" with
  | error e =>
    rw [parse, h] at he
    cases he
  | ok tokens =>
    have he := (parse_eq_error_iff h).1 he
    refine ⟨tokens, rfl, he, ?_⟩
    rw [(parseTokens_dropLast h _).1, he]
    rfl

end Botscript
