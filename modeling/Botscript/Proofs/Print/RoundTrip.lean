import Botscript.Proofs.Meaning.Parsed
import Botscript.Proofs.Print.Lines

/-!
# Printing and parsing again

The canonical text of a well-formed program is parsed to this program (`parse_text_of_wellformed`).
So a program that was parsed comes back from its text (`parse_text`), and its text has the tokens of
the source, but for braces, semicolons, `else` and `var` (`skeleton_text`).
-/

namespace Botscript

open Computability Token Parse Grammar

variable {input : Input} {source : String} {registry : Registry} {X : Forms} {levels : Nat}
  {p : Param} {params : List Param} {u v w x : List Token}

/-! ## Parameters -/

theorem spells_dimensions : ∀ dims, Spells Anything
    (String.join (List.replicate dims "[]")).toList (dimensionTokens dims)
  | 0 => .nil
  | dims + 1 => by
    have hpair : Spells Anything "[]".toList [ofKind .lbracket, ofKind .rbracket] :=
      spells_append (spells_mark (k := .lbracket) (by decide))
        (spells_mark (k := .rbracket) (by decide))
    have hall := spells_append hpair (spells_dimensions dims)
    rw [List.replicate_succ, String.join_cons]
    exact hall

/-- The text of what is assigned, if anything is. -/
def initText : Option String → String
  | none => ""
  | some init => " = " ++ init

theorem spells_initText {init : Option String}
    (h : ∀ text ∈ init, Spells Delimited text.toList (lexemes text.toList)) :
    Spells Delimited (initText init).toList (initTokens init) := by
  cases init with
  | none => exact .nil
  | some text =>
    have hsign : Spells Delimited (Kind.spelling .assign).toList [ofKind .assign] :=
      .kind rfl (by decide)
    have hspace : Spells Anything " = ".toList [ofKind .assign] :=
      spells_append spells_space (spells_append_bounded hsign spells_space (bounded_space ""))
    exact spells_append hspace (h text rfl)

theorem delimited_behindName (dims : Nat) (init : Option String) :
    Delimited (String.join (List.replicate dims "[]") ++ initText init).toList := by
  cases dims with
  | succ dims =>
    have hbrackets : Bounded "[]" := bounded_of_delimiter rfl (by decide)
    rw [List.replicate_succ, String.join_cons, String.append_assoc]
    exact (bounded_append hbrackets _).delimited
  | zero =>
    rw [List.replicate_zero, String.join_nil, String.empty_append]
    cases init with
    | none => exact delimited_nil
    | some text =>
      have hsign : Bounded " = " := bounded_of_delimiter rfl (by decide)
      exact (bounded_append hsign text).delimited

theorem text_param (p : Param) : p.text = Kind.spelling .kwVar ++ (" " ++ (p.name ++
    (String.join (List.replicate p.dims "[]") ++ initText p.init))) := by
  obtain ⟨name, dims, init⟩ := p
  have hkeyword : "var " = Kind.spelling .kwVar ++ " " := by decide
  unfold Param.text
  rw [hkeyword]
  cases init <;> simp only [String.append_assoc] <;> rfl

/-- A parameter spells its tokens. -/
theorem spells_param (h : p.Wellformed X) : Spells Delimited p.text.toList p.tokens := by
  have hkeyword : Spells Delimited (Kind.spelling .kwVar).toList [ofKind .kwVar] :=
    .kind rfl (by decide)
  obtain ⟨hname, hinit⟩ : (word p.name).Genuine ∧
      ∀ text ∈ p.init, Spells Delimited text.toList (lexemes text.toList) := by
    cases h with
    | plain dims hname => exact ⟨hname, fun _ ht => by cases ht⟩
    | assigned dims hname hv =>
      refine ⟨hname, fun text ht => ?_⟩
      obtain rfl := Option.some.inj ht
      have hspells := spells_spanText hv.2
      rwa [hspells.lexemes]
  have hbehind := spells_append (spells_dimensions p.dims) (spells_initText hinit)
  have hdeclarator := hname.append_delimited hbehind (delimited_behindName p.dims p.init)
  rw [← String.toList_append] at hdeclarator
  have hall := spells_append_bounded hkeyword (spells_append spells_space hdeclarator)
    (bounded_space _)
  rw [text_param]
  exact hall

theorem spells_comma (h : Spells Delimited source.toList w) :
    Spells Delimited (", " ++ source).toList (ofKind .comma :: w) :=
  spells_append (a := ", ") (u := [ofKind .comma])
    (spells_append (spells_mark (k := .comma) (by decide)) spells_space) h

/-- Parameters spell their tokens. -/
theorem spells_params (h : ∀ p ∈ params, p.Wellformed X) :
    Spells Delimited (", ".intercalate (params.map Param.text)).toList (paramTokens params) := by
  cases params with
  | nil => exact .nil
  | cons p rest =>
    induction rest generalizing p with
    | nil => simpa [paramTokens, moreTokens] using spells_param (h p List.mem_cons_self)
    | cons q rest ih =>
      have hp := spells_param (h p List.mem_cons_self)
      have hrest := spells_comma (ih q fun r hr => h r (List.mem_cons_of_mem _ hr))
      have htext : ", ".intercalate ((p :: q :: rest).map Param.text) =
          p.text ++ (", " ++ ", ".intercalate ((q :: rest).map Param.text)) := by
        rw [List.map_cons, List.map_cons, String.intercalate_cons_cons, String.append_assoc,
          ← List.map_cons]
      have hcomma : Bounded ", " := bounded_of_delimiter rfl (by decide)
      rw [htext]
      exact spells_append_bounded hp hrest (bounded_append hcomma _)

/-- Tokens like those of pairs of brackets are such pairs. -/
theorem dimensions_of_bare {dims : Nat} (h : x.map bare = dimensionTokens dims) :
    x ∈ (tok .lbracket * tok .rbracket) ^ dims := by
  induction dims generalizing x with
  | zero =>
    obtain rfl := List.map_eq_nil_iff.1 h
    exact (Language.mem_one []).2 rfl
  | succ dims ih =>
    obtain ⟨l, y, rfl, hl, hy⟩ := List.map_eq_cons_iff.1 h
    obtain ⟨r, z, rfl, hr, hz⟩ := List.map_eq_cons_iff.1 hy
    rw [pow_succ']
    exact Language.append_mem_mul (a := [l, r]) (mem_tok_mul.2 ⟨l, [r], rfl, kind_of_bare hl,
      mem_tok.2 ⟨r, rfl, kind_of_bare hr⟩⟩) (ih hz)

section Params

variable (hX : ∀ f, Blind (X f))

include hX

/-- Tokens like those of a parameter are this parameter. -/
theorem parameter_of_bare (h : p.Wellformed X) (hx : x.map bare = p.tokens) : Parameter X x p := by
  obtain ⟨keyword, y, rfl, hkeyword, hy⟩ := List.map_eq_cons_iff.1 hx
  obtain ⟨name, z, rfl, hname, hz⟩ := List.map_eq_cons_iff.1 hy
  obtain ⟨pairs, rest, rfl, hpairs, hrest⟩ := List.map_eq_append_iff.1 hz
  have hassigned : Assigned X rest p.init := by
    cases h with
    | plain dims hname =>
      obtain rfl := List.map_eq_nil_iff.1 hrest
      exact .none
    | assigned dims hname hv =>
      obtain ⟨sign, v', rfl, hsign, hv'⟩ := List.map_eq_cons_iff.1 hrest
      rw [(spells_spanText hv.2).lexemes] at hv'
      rw [← spanText_of_bare hv', spanText_eq]
      exact .some (kind_of_bare hsign) (hX _ _ _ hv'.symm hv.1)
  have himage : name.image = p.name := congrArg Token.image hname
  obtain ⟨pname, dims, init⟩ := p
  obtain rfl := himage
  have hfront : [keyword] ∈ opt (tok .kwVar) :=
    .inr (mem_tok.2 ⟨keyword, rfl, kind_of_bare hkeyword⟩)
  exact Parameter.intro hfront (kind_of_bare hname) (dimensions_of_bare hpairs) hassigned

/-- Tokens like those of parameters are these parameters. -/
theorem parameters_of_bare (h : ∀ p ∈ params, p.Wellformed X)
    (hx : x.map bare = paramTokens params) :
    x = [] ∧ params = [] ∨ Parameters X x params := by
  cases params with
  | nil => exact .inl ⟨List.map_eq_nil_iff.1 hx, rfl⟩
  | cons p rest =>
    obtain ⟨hp, hrest⟩ := List.forall_mem_cons.1 h
    obtain ⟨u, v, rfl, hu, hv⟩ := List.map_eq_append_iff.1 hx
    refine .inr (.intro (parameter_of_bare hX hp hu) ?_)
    clear hx h
    induction rest generalizing v with
    | nil =>
      obtain rfl := List.map_eq_nil_iff.1 hv
      exact .nil
    | cons q rest ih =>
      obtain ⟨hq, hrest⟩ := List.forall_mem_cons.1 hrest
      obtain ⟨comma, y, rfl, hcomma, hy⟩ := List.map_eq_cons_iff.1 hv
      obtain ⟨w, z, rfl, hw, hz⟩ := List.map_eq_append_iff.1 hy
      exact .cons (u := comma :: w) ⟨comma, w, rfl, kind_of_bare hcomma,
        parameter_of_bare hX hq hw⟩ (ih hrest z hz)

end Params

/-! ## Programs -/

section Program

variable {p : Program}

theorem text_program (p : Program) : p.text =
    (Kind.spelling .kwFunc ++ (" " ++ (p.name ++ (Kind.spelling .lparen ++
      (", ".intercalate (p.params.map Param.text) ++ (Kind.spelling .rparen ++
        (" " ++ (Kind.spelling .lbrace ++ "\n")))))))) ++
      (Block.lines 1 p.body ++ (Kind.spelling .rbrace ++ "\n")) := by
  have hfront : "func " = Kind.spelling .kwFunc ++ " " := by decide
  have hhead : ") \x7b\n" =
      Kind.spelling .rparen ++ (" " ++ (Kind.spelling .lbrace ++ "\n")) := by decide
  unfold Program.text
  rw [hfront, hhead]
  simp only [String.append_assoc]
  rfl

/-- The line in front of the body of a program. -/
theorem spells_signature (hname : (word p.name).Genuine)
    (hparams : ∀ q ∈ p.params, q.Wellformed X) :
    Spells Anything (Kind.spelling .kwFunc ++ (" " ++ (p.name ++ (Kind.spelling .lparen ++
      (", ".intercalate (p.params.map Param.text) ++ (Kind.spelling .rparen ++
        (" " ++ (Kind.spelling .lbrace ++ "\n")))))))).toList
      (ofKind .kwFunc :: word p.name :: ofKind .lparen ::
        (paramTokens p.params ++ [ofKind .rparen, ofKind .lbrace])) := by
  have hkeyword : Spells Delimited (Kind.spelling .kwFunc).toList [ofKind .kwFunc] :=
    .kind rfl (by decide)
  have hopening := spells_mark (k := .lparen) (by decide)
  have hclosing := spells_append (spells_mark (k := .rparen) (by decide))
    (spells_append spells_space (spells_append (spells_mark (k := .lbrace) (by decide))
      spells_newline))
  have hlist := spells_append hopening
    (spells_append_bounded (spells_params hparams) hclosing (bounded_mark (by decide) _))
  exact spells_append_bounded hkeyword (spells_append spells_space
    (spells_append_bounded hname hlist (bounded_mark (by decide) _))) (bounded_space _)

/-- The text of a program shows that its tokens denote this program. -/
theorem shows_program (hs : input.Scanned) (hsource : input.source = source.toList)
    (h : p.Wellformed registry levels) :
    Shows input Anything p.text p.tokens fun x => ∀ ending : Token, ending.kind = .endOfInput →
      ProgramMeaning (sourceText source) registry levels (x ++ [ending]) p := by
  have hlast := spells_append (spells_mark (k := .rbrace) (by decide)) spells_newline
  have hall := (shows_of_spells hs (spells_signature h.name h.params)).append_anything
    ((shows_lines hs (shows_command hs hsource levels) h.body 1).append_anything
      (shows_of_spells hs hlast))
  refine (hall.congr (text_program p).symm (by simp [Program.tokens, embraced])).imp ?_
  rintro _ ⟨y, _, rfl, hy, z, r, rfl, hz, hr⟩ ending hending
  obtain ⟨func, y, rfl, hfunc, hy⟩ := List.map_eq_cons_iff.1 hy
  obtain ⟨name, y, rfl, hname, hy⟩ := List.map_eq_cons_iff.1 hy
  obtain ⟨opening, y, rfl, hopening, hy⟩ := List.map_eq_cons_iff.1 hy
  obtain ⟨u, y, rfl, hu, hy⟩ := List.map_eq_append_iff.1 hy
  obtain ⟨closing, l, rfl, hclosing, hl⟩ := List.map_eq_cons_iff.1 hy
  have hbraced := braced_of_bare hl hz hr
  have hparams := parameters_of_bare (blind_limited (dialect_blind registry) levels) h.params hu
  have himage : name.image = p.name := congrArg Token.image hname
  have hmeaning := ProgramMeaning.intro (kind_of_bare hfunc) (kind_of_bare hname)
    (kind_of_bare hopening) hparams (kind_of_bare hclosing) hbraced hending
  rw [himage] at hmeaning
  simpa using hmeaning

/-- The canonical text of a well-formed program has the tokens of this program. -/
theorem exists_tokens_text (h : p.Wellformed registry levels) :
    ∃ tokens, tokenize p.text = .ok tokens ∧
      tokens.map bare = p.tokens ++ [⟨.endOfInput, "", .origin, 0⟩] := by
  -- What a text spells does not depend on the input, so that any will do.
  obtain ⟨tokens, htokens, -⟩ := (Spells.nil (F := Anything)).exists_tokens
  have hs : Input.Scanned ⟨[], tokens.toArray, registry, true⟩ := htokens
  have hshows : Shows ⟨[], tokens.toArray, registry, true⟩ Anything p.text p.tokens _ :=
    shows_program hs (show [] = "".toList from rfl) h
  exact hshows.spells.exists_tokens

/-- The canonical text of a well-formed program is parsed to this program. -/
theorem parse_text_of_wellformed (h : p.Wellformed registry maxNesting) :
    parse p.text registry = .ok p := by
  obtain ⟨tokens, htokens, hbare⟩ := exists_tokens_text h
  refine (parse_eq_ok_iff htokens).2 (parse_of_programMeaning (ended_tokenize htokens) rfl rfl ?_)
  obtain ⟨front, last, rfl, hfront, hlast⟩ := List.map_eq_append_iff.1 hbare
  obtain ⟨ending, rfl, hending⟩ := List.map_eq_singleton_iff.1 hlast
  let input : Input := ⟨p.text.toList, (front ++ [ending]).toArray, registry, true⟩
  have hs : input.Scanned := htokens
  have hmeaning := (shows_program hs rfl h).holds 0 [] trivial
    (by simpa using input.ahead_source) ending (kind_of_bare hending)
  have hspan : input.span 0 (0 + front.length) = front :=
    Input.span_of_drop (v := [ending]) (by simp [input])
  have hlength : p.tokens.length = front.length := by rw [← hfront, List.length_map]
  rw [hlength, hspan] at hmeaning
  exact hmeaning

end Program

/-! ## What was parsed -/

/-- The tokens of a source, and the texts between them, are faithful. -/
theorem faithful_of_tokenize {tokens : List Token} {ending : Token}
    (h : tokenize source = .ok (tokens ++ [ending])) : Faithful (sourceText source) tokens := by
  let input : Input := ⟨source.toList, (tokens ++ [ending]).toArray, fun _ => none, true⟩
  have hs : input.Scanned := h
  have hbare : tokens.map bare = lexemes source.toList :=
    (List.append_inj' (List.map_append.symm.trans hs.map_bare) rfl).1
  have hlength : (lexemes source.toList).length = tokens.length := by
    rw [← hbare, List.length_map]
  have hbetween : ∀ w, w <:+: tokens → ∃ text, sourceText source w = String.ofList text ∧
      Tight text ∧ Spells Delimited text (w.map bare) := by
    rintro w ⟨front, back, rfl⟩
    have hspan : input.span front.length (front.length + w.length) = w :=
      Input.span_of_drop (v := back ++ [ending]) (by simp [input])
    have hle : front.length + w.length ≤ (lexemes source.toList).length := by
      rw [hlength]
      simp
    obtain ⟨text, htext, htight, hspells⟩ := hs.exists_between hle
    rw [Input.between_eq_sourceText rfl (Nat.le_add_right _ _) (by simp [input]), hspan] at htext
    rw [hspan] at hspells
    exact ⟨text, htext, htight, hspells⟩
  refine ⟨fun t ht => ?_, fun w hw => ?_, fun w hw => ?_⟩
  · have hmem : t.bare ∈ lexemes source.toList := hbare ▸ List.mem_map_of_mem ht
    have hgenuine : t.bare.Genuine := genuine_of_mem hs.clean hmem
    exact hgenuine
  · obtain ⟨text, htext, htight, -⟩ := hbetween w hw
    rwa [htext, String.toList_ofList]
  · obtain ⟨text, htext, -, hspells⟩ := hbetween w hw
    rwa [htext, String.toList_ofList]

/-- A program that was parsed is well-formed, and it is written with the tokens of its source, but
for those that a tree does not tell. -/
theorem wellformed_of_parse {names : List String} {p : Program}
    (h : parse source (FunctionTable.withNames names).registry = .ok p) :
    ∃ tokens ending, tokenize source = .ok (tokens ++ [ending]) ∧ ending.bare =
        ⟨.endOfInput, "", .origin, 0⟩ ∧
      p.Wellformed (FunctionTable.withNames names).registry maxNesting ∧
        skeleton p.tokens = skeleton tokens := by
  obtain ⟨all, hall⟩ := exists_tokens_of_parse h
  have hmeaning := (parse_iff_programMeaning (ended_tokenize hall) rfl rfl).1
    ((parse_eq_ok_iff hall).1 h)
  have hbare := (scanned_of_tokenize hall (fun _ => none)).map_bare
  obtain ⟨tokens, last, hsplit, -, hlast⟩ := List.map_eq_append_iff.1 hbare
  obtain ⟨ending, rfl, hending⟩ := List.map_eq_singleton_iff.1 hlast
  obtain rfl : all = tokens ++ [ending] := hsplit
  have hkept := kept_program (faithful_of_tokenize hall) (plain_withNames names) hmeaning
  exact ⟨tokens, ending, hall, hending, hkept⟩

/-- A program that was parsed is parsed again from its canonical text. -/
theorem parse_text {names : List String} {p : Program}
    (h : parse source (FunctionTable.withNames names).registry = .ok p) :
    parse p.text (FunctionTable.withNames names).registry = .ok p := by
  obtain ⟨-, -, -, -, hwell, -⟩ := wellformed_of_parse h
  exact parse_text_of_wellformed hwell

/-- Braces are added around the branches, and the empty statement is left out. -/
theorem parse_text_branch :
    parse "func f(a) \x7b g( 1 ); if (a) ; else a = 2; \x7d"
        (FunctionTable.withNames ["g"]).registry =
      .ok ⟨"f", [⟨"a", 0, none⟩], [.call ⟨"g", "1"⟩, .branch "a" [] [.procedure "a = 2;"]]⟩ ∧
    parse (Program.text
        ⟨"f", [⟨"a", 0, none⟩], [.call ⟨"g", "1"⟩, .branch "a" [] [.procedure "a = 2;"]]⟩)
        (FunctionTable.withNames ["g"]).registry =
      .ok ⟨"f", [⟨"a", 0, none⟩], [.call ⟨"g", "1"⟩, .branch "a" [] [.procedure "a = 2;"]]⟩ := by
  have hparse : parse "func f(a) \x7b g( 1 ); if (a) ; else a = 2; \x7d"
      (FunctionTable.withNames ["g"]).registry = .ok ⟨"f", [⟨"a", 0, none⟩],
        [.call ⟨"g", "1"⟩, .branch "a" [] [.procedure "a = 2;"]]⟩ := by decide +kernel
  exact ⟨hparse, parse_text hparse⟩

/-- The canonical text of a program that was parsed has the tokens of the source in the same order,
but for braces, semicolons, `else` and `var`. -/
theorem skeleton_text {names : List String} {p : Program}
    (h : parse source (FunctionTable.withNames names).registry = .ok p) :
    ∃ tokens tokens', tokenize source = .ok tokens ∧ tokenize p.text = .ok tokens' ∧
      skeleton tokens' = skeleton tokens := by
  obtain ⟨tokens, ending, htokens, hending, hwell, hsame⟩ := wellformed_of_parse h
  obtain ⟨tokens', htokens', hbare⟩ := exists_tokens_text hwell
  refine ⟨_, tokens', htokens, htokens', ?_⟩
  have hlast : skeleton [ending] = skeleton [⟨.endOfInput, "", .origin, 0⟩] :=
    skeleton_of_bare (congrArg (fun t => [t]) hending)
  rw [← skeleton_map_bare tokens', hbare, skeleton_append, skeleton_append, hsame, hlast]

/-- A loop with a comment in a call. -/
theorem skeleton_text_loop :
    parse "func f() \x7b while (b) g(1, /* two */ 2); \x7d"
        (FunctionTable.withNames ["g"]).registry =
      .ok ⟨"f", [], [.loop "b" [.call ⟨"g", "1, /* two */ 2"⟩]]⟩ ∧
    ∃ tokens tokens',
      tokenize "func f() \x7b while (b) g(1, /* two */ 2); \x7d" = .ok tokens ∧
      tokenize (Program.text ⟨"f", [], [.loop "b" [.call ⟨"g", "1, /* two */ 2"⟩]]⟩) =
        .ok tokens' ∧
      skeleton tokens' = skeleton tokens := by
  have hparse : parse "func f() \x7b while (b) g(1, /* two */ 2); \x7d"
      (FunctionTable.withNames ["g"]).registry =
        .ok ⟨"f", [], [.loop "b" [.call ⟨"g", "1, /* two */ 2"⟩]]⟩ := by decide +kernel
  exact ⟨hparse, skeleton_text hparse⟩

end Botscript
