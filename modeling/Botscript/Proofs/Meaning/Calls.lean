import Botscript.Proofs.Grammar.Balance
import Botscript.Proofs.Meaning.Denotes
import Botscript.Proofs.Parse.Abreast

/-!
# Statements that are calls

A call that an expression begins with is noted on the way (`exists_site_of_expression`), and the
calls that are noted stand in the source. So an expression as a statement is taken for a call if and
only if it is one and nothing else (`run_evaluation_call`, `run_evaluation_plain`).
-/

namespace Botscript.Parse

open Computability Token Grammar ParseM

/-! ## Runs of one input -/

/-- An input beside itself. -/
theorem Twins.self {input : Input} (he : Ended input.tokens.toList)
    (hr : input.remembers = true) : Twins input input Eq where
  ended := he
  remembers := hr
  remembers' := hr
  tokens := rfl
  between _ _ _ _ := rfl
  registry _ make hmake := ⟨make, hmake, fun _ _ ha => ha ▸ ⟨rfl, rfl⟩⟩

variable {α : Type} {input : Input} {c d : Cursor} {levels : Nat}

theorem Twins.Alike.sound {w : Twins input input Eq} {R : α → α → Prop} {m : ParseM α}
    (h : w.Alike R m m) (hc : c.Sound input) {a : α} (hrun : m.run input c = .ok a d) :
    d.Sound input := by
  have hans := h c hc
  unfold Twins.AlikeAt at hans
  rw [hrun] at hans
  cases hans with
  | ok _ hd _ => exact hd

/-- A word that is ahead is read to its end, and the calls noted on the way stand in the source. -/
theorem exists_sound_run {w : Twins input input Eq} {R : α → α → Prop} {m : ParseM α}
    {L : Language Token} {ks : List Kind} (hm : ReadsAll input m L ks) (h : w.Alike R m m)
    (hc : c.Sound input) {u v : List Token} {t : Token} (hu : u ∈ L)
    (hdrop : input.tokens.toList.drop c.pos = u ++ t :: v) (ht : t.kind ∉ ks) :
    ∃ a d, m.run input c = .ok a d ∧ d.pos = c.pos + u.length ∧ d.Sound input := by
  obtain ⟨a, d, hrun, hpos, -⟩ := hm.exists_run hc.toReached (Input.drop_stream hdrop) ht hu
  exact ⟨a, d, hrun, hpos, h.sound hc hrun⟩

/-! ## Calls that are noted -/

namespace Nested.Forward

variable {inner : Nested} (h : inner.Forward)

include h

theorem suffix? (base : List CallSite) (start : Nat) : (inner.suffix? start).Forward base :=
  fun _ c hr ht => (h.suffix?_ends base hr ht start).mono (fun o d hd => by
    cases o with
    | none => exact hd ▸ ⟨c.leads_noteAll _, ht.noteAll _⟩
    | some _ => exact ⟨c.leads_next.trans hd.leads, hd.tidy⟩) fun _ _ hd => hd

omit h in
/-- A name that a primary begins with is taken. -/
theorem run_head_name (hk : input.kind c.pos = .identifier) : inner.head.run input c =
    .ok () ((c.noteAll literals).note .identifier).next := by
  have hne : input.kind ((c.noteAll literals).note .identifier).pos ≠ .endOfInput := by
    simp [hk]
  unfold Nested.head
  rw [run_bind_of_ok (run_checkAny _), decide_eq_false (by rw [hk]; decide),
    if_neg Bool.false_ne_true, run_bind_of_ok (run_check _), decide_eq_true (by simpa using hk),
    if_pos rfl, run_advance hne]

/-- The arguments behind a name are noted as a call of it. -/
theorem exists_site_of_suffix (hr : input.remembers = true) (ht : c.Tidy input) {start : Nat}
    (hname : input.kind start = .identifier) (hpos : c.pos = start + 1)
    (hopening : input.kind c.pos = .lparen) {o : Option Unit}
    (hrun : (inner.suffix? start).run input c = .ok o d) :
    o = some () ∧ d.Tidy input ∧ ∃ closing, ⟨start, start + 1, closing⟩ ∈ d.calls := by
  have hends := (h.suffix?_ends [] hr ht start).ok hrun
  have hne : ∀ {k : Kind}, k ≠ .lparen → input.kind c.pos ≠ k := fun hk he =>
    hk (he.symm.trans hopening)
  unfold Nested.suffix? at hrun
  rw [run_bind_of_ok (run_eat_of_ne (hne (by decide))), if_neg Bool.false_ne_true,
    run_bind_of_ok (run_eat_of_ne (by simpa using hne (by decide))), if_neg Bool.false_ne_true,
    run_bind_of_ok (run_check _), decide_eq_true (by simpa using hopening), if_pos rfl] at hrun
  obtain ⟨⟨⟩, harguments, rfl⟩ := run_map_eq_ok.1 hrun
  unfold Nested.arguments at harguments
  rw [run_bind_of_ok run_position] at harguments
  obtain ⟨⟨⟩, c₁, -, hrest⟩ := exists_of_run_bind harguments
  obtain ⟨closing, c₂, -, hcall⟩ := exists_of_run_bind hrest
  have hsite : (((c.note .lbracket).note .dot).note .lparen).pos = start + 1 := hpos
  rw [run_bind_of_ok run_read, if_pos ⟨hsite, hname⟩] at hcall
  unfold callSite at hcall
  rw [run_bind_of_ok run_read, run_bind_of_ok run_read] at hcall
  cases hmake : input.registry (input.token start).image with
  | none =>
    rw [hmake] at hcall
    cases hcall
  | some make =>
    rw [hmake] at hcall
    cases hcall
    refine ⟨rfl, hends.tidy, closing, List.mem_append_right _ (List.mem_singleton.2 ?_)⟩
    rw [hsite]

/-- A call that a primary begins with is noted. -/
theorem exists_site_of_primary (hr : input.remembers = true) (ht : c.Tidy input)
    (hname : input.kind c.pos = .identifier) (hopening : input.kind (c.pos + 1) = .lparen)
    (hrun : inner.primary.run input c = .ok () d) :
    ∃ closing, ⟨c.pos, c.pos + 1, closing⟩ ∈ d.calls := by
  rw [run_primary hr ht] at hrun
  cases hplain : inner.plainPrimary.run input c with
  | error e c' =>
    rw [hplain] at hrun
    cases hrun
  | ok u c' =>
    rw [hplain] at hrun
    cases hrun
    unfold Nested.plainPrimary at hplain
    rw [run_bind_of_ok run_position, run_bind_of_ok (run_head_name hname)] at hplain
    obtain ⟨_, c₂, hmany, hlast⟩ := exists_of_run_bind hplain
    cases hlast
    rw [run_many, manyUpTo] at hmany
    obtain ⟨o, c₁, hsuffix, hrest⟩ := exists_of_run_bind hmany
    have ht₁ := ((ht.noteAll literals).note .identifier).next (by simp [hname])
    obtain ⟨rfl, ht₂, closing, hsite⟩ := h.exists_site_of_suffix hr ht₁ hname (by simp)
      (by simpa using hopening) hsuffix
    have hforward : (do return () :: (← manyUpTo (inner.suffix? c.pos) input.tokens.size) :
        ParseM (List Unit)).Forward c₁.calls := .bind (.manyUpTo (h.suffix? _ _) _) fun _ => .pure _
    have hleads := ((hforward input c₁ hr ht₂).ok hrest).1
    exact ⟨closing, (hleads.calls List.prefix_rfl).subset hsite⟩

end Nested.Forward

/-- A call that an expression begins with is noted. -/
theorem exists_site_of_expression (hr : input.remembers = true) (ht : c.Tidy input)
    (hname : input.kind c.pos = .identifier) (hopening : input.kind (c.pos + 1) = .lparen)
    (hrun : (Nested.predictive levels).expression.run input c = .ok () d) :
    ∃ closing, ⟨c.pos, c.pos + 1, closing⟩ ∈ d.calls := by
  cases levels with
  | zero => cases hrun
  | succ levels =>
    have hsim := Nested.sim levels
    change (Nested.predictive levels).decidedExpression.run input c = _ at hrun
    unfold Nested.decidedExpression at hrun
    rw [run_bind_of_ok (run_eatAny_of_not_mem (by rw [hname]; decide)),
      if_neg Bool.false_ne_true] at hrun
    obtain ⟨⟨⟩, e, hprimary, hafter⟩ := exists_of_run_bind hrun
    have ht' := ht.noteAll unaryOperators
    obtain ⟨closing, hsite⟩ := hsim.forward.exists_site_of_primary hr ht' (by simpa using hname)
      (by simpa using hopening) hprimary
    have hte := ((hsim.forward.primary [] input _ hr ht').ok hprimary).2
    have hleads := ((hsim.afterPrimary_forward e.calls input e hr hte).ok hafter).1
    rw [Cursor.noteAll_pos] at hsite
    exact ⟨closing, (hleads.calls List.prefix_rfl).subset hsite⟩

/-! ## Evaluations -/

/-- What is behind an index, parted at a later token. -/
theorem Input.drop_eq_span {i j : Nat} (hij : i ≤ j) (hj : j < input.tokens.size) :
    input.tokens.toList.drop i =
      input.span i j ++ input.token j :: input.tokens.toList.drop (j + 1) := by
  obtain ⟨n, rfl⟩ := Nat.exists_eq_add_of_le hij
  have hlt : i + n < input.tokens.toList.length := by simpa using hj
  rw [Ended.token_eq_getElem hlt, List.cons_getElem_drop_succ, span, Array.toList_extract,
    List.extract, Nat.add_sub_cancel_left, ← List.drop_drop, List.take_append_drop]

/-- The text between two tokens is the source text of the tokens between. -/
theorem Input.between_eq_sourceText {source : String} (hs : input.source = source.toList)
    {i j : Nat} (hij : i ≤ j) (hj : j ≤ input.tokens.size) :
    input.between i j = sourceText source (input.span i j) := by
  unfold Input.between
  obtain rfl | hlt := hij.eq_or_lt
  · rw [if_pos rfl, Input.span_self]
    rfl
  obtain ⟨k, rfl⟩ := Nat.exists_eq_add_of_lt hlt
  rw [if_neg (by omega), hs]
  have hhead := Input.span_cons hlt hj
  have hlast := Input.span_concat (Nat.le_add_right i k) (Nat.lt_of_succ_le hj)
  unfold sourceText
  rw [hlast, List.getLast?_concat, ← hlast, hhead, List.head?_cons]
  rfl

/-- If a call is noted, one with the same first and last token is found. -/
theorem exists_find?_site {calls : List CallSite} {name opening closing stop : Nat}
    (h : ⟨name, opening, closing⟩ ∈ calls) (hstop : closing + 1 = stop) : ∃ site ∈ calls,
      calls.find? (fun site => site.name = name ∧ site.closing + 1 = stop) = some site ∧
        site.name = name ∧ site.closing = closing := by
  obtain ⟨site, hfind⟩ : ∃ site,
      calls.find? (fun site => site.name = name ∧ site.closing + 1 = stop) = some site := by
    rw [← Option.isSome_iff_exists, List.find?_isSome]
    exact ⟨_, h, decide_eq_true ⟨rfl, hstop⟩⟩
  obtain ⟨hname, hclosing⟩ : site.name = name ∧ site.closing + 1 = stop := by
    simpa using List.find?_some hfind
  exact ⟨site, List.mem_of_find?_eq_some hfind, hfind, hname,
    Nat.succ.inj (hclosing.trans hstop.symm)⟩

section Evaluation

variable (he : Ended input.tokens.toList) (hr : input.remembers = true) (hc : c.Sound input)

/-- The parenthesis that closes a call is the one that closes its arguments. -/
theorem CallSite.Proper.closing_eq {site : CallSite} {stop : Nat} (h : site.Proper input stop)
    {args v : List Token} {r : Token}
    (hdrop : input.tokens.toList.drop (site.name + 2) = args ++ r :: v)
    (hargs : args ∈ opt (sepBy (sentences (dialect input.registry) .expression)))
    (hr : r.kind = .rparen) : site.closing = site.name + 2 + args.length := by
  have hbalanced := hereditary_balanced.opt_le
    (hereditary_balanced.sepBy_le (balanced_expression (dialect input.registry)))
  have hlt : site.closing < input.tokens.size := by
    by_contra hge
    have hend := Cursor.kind_of_size_le (Nat.le_of_not_lt hge)
    exact absurd (h.closing.symm.trans hend) (by decide)
  have hle := h.lt
  have hargs' := h.args
  rw [h.opening_eq] at hle hargs'
  have hsplit := Input.drop_eq_span hle hlt
  have hsame := eq_of_balanced (hbalanced hargs') (hbalanced hargs) h.closing hr
    (hsplit.symm.trans hdrop)
  have hlength := congrArg List.length hsame
  rw [Input.length_span hlt.le] at hlength
  omega

theorem CallSite.Proper.span_eq {site : CallSite} {stop : Nat} (h : site.Proper input stop)
    (hstop : stop ≤ input.tokens.size) (hclosing : site.closing + 1 = stop) :
    input.span site.name stop = input.token site.name :: input.token (site.name + 1) ::
      (input.span (site.name + 2) site.closing ++ [input.token site.closing]) := by
  have hlt := h.lt
  have hopening := h.opening_eq
  subst hclosing
  rw [Input.span_cons (by omega) hstop, Input.span_cons (by omega) hstop,
    Input.span_concat (by omega) (by omega)]

include he hr hc

/-- An expression as a statement is read to its end. It is a call if one is noted from its first
token to its last. -/
theorem exists_run_evaluation {e v : List Token} {t semicolon : Token}
    (hexp : e ∈ limited (dialect input.registry) levels .expression)
    (hs : semicolon.kind = .semicolon)
    (hdrop : input.tokens.toList.drop c.pos = (e ++ [semicolon]) ++ t :: v) :
    ∃ d d', d.Sound input ∧ d.pos = c.pos + e.length ∧
      (Nested.predictive levels).expression.run input c.forgetCalls = .ok () d ∧
      d'.Sound input ∧ d'.pos = c.pos + (e ++ [semicolon]).length ∧
      (∀ site make, site.name = c.pos → input.registry (input.token c.pos).image = some make →
        d.calls.find? (fun site => site.name = c.pos ∧ site.closing + 1 = d.pos) = some site →
          ((Nested.predictive levels).evaluation c.pos).run input c = .ok (.command (.call
            (make (input.between (site.opening + 1) site.closing)))) d') ∧
      (d.calls.find? (fun site => site.name = c.pos ∧ site.closing + 1 = d.pos) = none →
        ((Nested.predictive levels).evaluation c.pos).run input c =
          .ok (.plain (statementText (e ++ [semicolon]))) d') := by
  have hreads : ReadsAll input (Nested.predictive levels).expression _ behindExpression :=
    fun _ hA => (inner_predictive hr hA levels).expression.reads
  have hdrop' : input.tokens.toList.drop c.pos = e ++ semicolon :: (t :: v) := by
    simpa using hdrop
  have halike := ((Twins.self he hr).inner_predictive levels).expression
  obtain ⟨⟨⟩, d, hrun, hpos, hd⟩ := exists_sound_run hreads halike hc.forgetCalls hexp hdrop'
    (by rw [hs]; decide)
  have hpos : d.pos = c.pos + e.length := hpos
  have hkind : input.kind d.pos = .semicolon := by
    rw [Input.kind, hpos, Input.token_of_drop hdrop', hs]
  have hlength : d.pos + 1 = c.pos + (e ++ [semicolon]).length := by simp [hpos, Nat.add_assoc]
  have hspan : input.span c.pos (d.pos + 1) = e ++ [semicolon] := by
    rw [hlength, Input.span_of_drop hdrop]
  have hsound := (hd.note .semicolon).next (by simp [hkind]) (by simp [hkind])
  have hread : (wholeCall? c.pos d.pos).run input (d.note .semicolon).next = _ :=
    run_wholeCall? _ _
  refine ⟨d, _, hd, hpos, hrun, hsound, hlength, fun site make hname hmake hfind => ?_,
    fun hfind => ?_⟩
  · rw [Cursor.next_calls, Cursor.note_calls, hfind, Option.bind_some, hname, hmake] at hread
    unfold Nested.evaluation
    rw [run_bind_of_ok (run_modify _), run_bind_of_ok hrun, run_bind_of_ok run_position,
      run_bind_of_ok (run_expect_of_eq hkind (by decide)), run_bind_of_ok hread]
    rfl
  · rw [Cursor.next_calls, Cursor.note_calls, hfind, Option.bind_none] at hread
    unfold Nested.evaluation
    rw [run_bind_of_ok (run_modify _), run_bind_of_ok hrun, run_bind_of_ok run_position,
      run_bind_of_ok (run_expect_of_eq hkind (by decide)), run_bind_of_ok hread, ← hspan]
    rfl

/-- A whole call is taken for one. -/
theorem run_evaluation_call {name opening closing semicolon t : Token} {args v : List Token}
    {make : Factory} {source : String} (hsource : input.source = source.toList)
    (hw : name :: opening :: (args ++ [closing, semicolon]) ∈
      evaluation (limited (dialect input.registry) levels))
    (hname : name.kind = .identifier) (hopening : opening.kind = .lparen)
    (hargs : args ∈ opt (sepBy (sentences (dialect input.registry) .expression)))
    (hclosing : closing.kind = .rparen) (hmake : input.registry name.image = some make)
    (hdrop : input.tokens.toList.drop c.pos =
      (name :: opening :: (args ++ [closing, semicolon])) ++ t :: v) :
    ∃ d, ((Nested.predictive levels).evaluation c.pos).run input c =
        .ok (.command (.call (make (sourceText source args)))) d ∧
      d.pos = c.pos + (name :: opening :: (args ++ [closing, semicolon])).length ∧
      d.Sound input := by
  obtain ⟨hexp, hs⟩ := call_mem_evaluation.1 hw
  have hdrop₁ : input.tokens.toList.drop c.pos =
      ((name :: opening :: (args ++ [closing])) ++ [semicolon]) ++ t :: v := by simpa using hdrop
  obtain ⟨d, d', hd, hpos, hrun, hd', hpos', hcall, -⟩ :=
    exists_run_evaluation he hr hc hexp hs hdrop₁
  have htoken : input.token c.pos = name :=
    Input.token_of_drop (w := []) (by rw [hdrop]; rfl)
  have htoken' : input.token (c.pos + 1) = opening :=
    Input.token_of_drop (w := [name]) (by rw [hdrop]; rfl)
  have hdropArgs : input.tokens.toList.drop (c.pos + 2) =
      args ++ closing :: (semicolon :: t :: v) :=
    Input.drop_of_drop (w := [name, opening]) (by simpa using hdrop)
  -- The call that is noted ends where the arguments do.
  obtain ⟨last, hsite⟩ : ∃ last, ⟨c.pos, c.pos + 1, last⟩ ∈ d.calls :=
    exists_site_of_expression hr hc.forgetCalls.tidy ((congrArg Token.kind htoken).trans hname)
      ((congrArg Token.kind htoken').trans hopening) hrun
  obtain rfl : last = c.pos + 2 + args.length :=
    (hd.calls _ hsite).closing_eq hdropArgs hargs hclosing
  have hend : c.pos + 2 + args.length + 1 = d.pos := by
    rw [hpos]
    simp
    omega
  obtain ⟨site, hmem, hfind, hstart, hclose⟩ := exists_find?_site hsite hend
  have hproper := hd.calls site hmem
  have hbetween : input.between (site.opening + 1) site.closing = sourceText source args := by
    have hbounded := hd.tidy.bounded
    rw [hproper.opening_eq, hstart, hclose,
      Input.between_eq_sourceText hsource (by omega) (by omega)]
    exact congrArg _ (Input.span_of_drop hdropArgs)
  have hanswer := hcall site make hstart (htoken ▸ hmake) hfind
  rw [hbetween] at hanswer
  exact ⟨d', hanswer, by simpa using hpos', hd'⟩

/-- Anything but a whole call is no call. -/
theorem run_evaluation_plain {w v : List Token} {t : Token}
    (hw : w ∈ otherEvaluation (dialect input.registry)
      (limited (dialect input.registry) levels))
    (hdrop : input.tokens.toList.drop c.pos = w ++ t :: v) :
    ∃ d, ((Nested.predictive levels).evaluation c.pos).run input c =
        .ok (.plain (statementText w)) d ∧ d.pos = c.pos + w.length ∧ d.Sound input := by
  obtain ⟨⟨e, hexp, _, hlast, rfl⟩, hother⟩ := hw
  obtain ⟨semicolon, rfl, hs⟩ := mem_tok.1 hlast
  obtain ⟨d, d', hd, hpos, hrun, hd', hpos', -, hplain⟩ :=
    exists_run_evaluation he hr hc hexp hs hdrop
  refine ⟨d', hplain ?_, hpos', hd'⟩
  by_contra hfind
  obtain ⟨site, hfind⟩ := Option.ne_none_iff_exists'.1 hfind
  obtain ⟨hstart, hstop⟩ : site.name = c.pos ∧ site.closing + 1 = d.pos := by
    simpa using List.find?_some hfind
  have hproper := hd.calls site (List.mem_of_find?_eq_some hfind)
  have hspan := hproper.span_eq hd.tidy.bounded hstop
  have hword : input.span site.name d.pos = e := by
    have hdrop' : input.tokens.toList.drop c.pos = e ++ (semicolon :: t :: v) := by
      simpa using hdrop
    rw [hstart, hpos, Input.span_of_drop hdrop']
  have hargs := hproper.args
  rw [hproper.opening_eq] at hargs
  refine hother (mem_wholeCall.2 ⟨_, _, _, _, semicolon, ?_, hproper.name,
    hproper.opening_eq ▸ hproper.opening, hargs, hproper.closing, hs⟩)
  rw [← hword, hspan]
  simp

end Evaluation

end Botscript.Parse
