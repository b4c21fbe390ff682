import Botscript.Proofs.Grammar.Hereditary
import Botscript.Proofs.Print.RoundTrip
import Botscript.Proofs.Token.Faults

/-!
# Trees that obey the language

A tree need not come from a parser. `Program.Legal` says when a tree can stand for a program: its
names are identifiers, its texts are put together from tokens of any sources as the grammar has
them, and nothing is nested too deep. Such a tree is well-formed (`Program.Legal.wellformed`), so
its canonical text is parsed to this tree (`parse_text_of_legal`).
-/

namespace Botscript

open Computability Token Parse Grammar

/-! ## Legal trees -/

/-- A name that is spelled like an identifier and is no keyword. -/
structure IsName (name : String) : Prop where
  spelled : name.toList ∈ Lexeme.word
  free : ∀ k ∈ Kind.keywords, name ≠ k.spelling

/-- A token that some source has. -/
def Token.Found (t : Token) : Prop := ∃ source tokens, tokenize source = .ok tokens ∧ t ∈ tokens

/-- The words of a language whose tokens have been found in sources, not all in the same one. -/
def found (L : Language Token) : Language Token := {w | w ∈ L ∧ ∀ t ∈ w, t.Found}

/-- Nothing, or expressions between commas that reach from the start of a text to its end. -/
def IsArguments (X : Forms) (args : String) : Prop :=
  args = "" ∨ ∃ w ending, tokenize args = .ok (w ++ [ending]) ∧ w ∈ sepBy (X .expression) ∧
    (∀ t ∈ w.head?, t.start = 0) ∧ ∀ t ∈ w.getLast?, t.stop = args.utf8ByteSize

/-- Commands of which no two neighbours are procedures. -/
def Block.Apart (body : Block) : Prop := body.IsChain fun c c' => c.Active ∨ c'.Active

/-- A command that obeys the language with a number of levels of nesting, and calls the functions of
a registry only. A call is a statement and an expression, so its arguments are two levels further
in. -/
inductive Command.Legal (registry : Registry) : Nat → Command → Prop
  | procedure {levels : Nat} {ws : List (List Token)} (hne : ws ≠ [])
    (h : ∀ w ∈ ws,
      w ∈ found (plainStatement (dialect registry) (limited (dialect registry) levels))) :
    Legal registry (levels + 1) (.procedure (" ".intercalate (ws.map statementText)))
  | call {levels : Nat} {name args : String} (hname : IsName name)
    (hknown : (registry name).isSome)
    (hargs : IsArguments (limited (dialect registry) levels) args) :
    Legal registry (levels + 2) (.call ⟨name, args⟩)
  | block {levels : Nat} {body : Block} (h : ∀ c ∈ body, Legal registry levels c)
    (hapart : body.Apart) : Legal registry (levels + 1) (.block body)
  | branch {levels : Nat} {v : List Token} {thenBody elseBody : Block}
    (hv : v ∈ found (limited (dialect registry) levels .expression))
    (ht : ∀ c ∈ thenBody, Legal registry levels c) (hthen : thenBody.Apart)
    (he : ∀ c ∈ elseBody, Legal registry levels c) (helse : elseBody.Apart) :
    Legal registry (levels + 1) (.branch (spanText v) thenBody elseBody)
  | loop {levels : Nat} {v : List Token} {body : Block}
    (hv : v ∈ found (limited (dialect registry) levels .expression))
    (h : ∀ c ∈ body, Legal registry levels c) (hapart : body.Apart) :
    Legal registry (levels + 1) (.loop (spanText v) body)

/-- A program that obeys the language with a number of levels of nesting. -/
structure Program.Legal (registry : Registry) (levels : Nat) (p : Program) : Prop where
  name : IsName p.name
  params : ∀ q ∈ p.params, IsName q.name ∧ ∀ text ∈ q.init,
    ∃ v ∈ found (limited (dialect registry) levels .init), text = spanText v
  body : ∀ c ∈ p.body, c.Legal registry levels
  apart : p.body.Apart

/-! ## Names and texts -/

/-- A name is spelled by itself. -/
theorem IsName.genuine {name : String} (h : IsName name) : (word name).Genuine := by
  obtain ⟨hword, hfree⟩ := h
  obtain ⟨c, more, htext, hc, -⟩ := mem_oneIn_mul.1 hword
  have hbare : ¬ StartsComment (c :: more ++ []) := by
    rintro (hpre | hpre) <;>
    · obtain ⟨rfl, -⟩ := List.cons_prefix_cons.1 hpre
      exact absurd hc (by decide)
  rw [htext] at hword
  have hlongest : Longest .identifier (c :: more) [] :=
    ⟨hword, fun _ _ _ hpre => by simpa using hpre.length_le, hbare⟩
  obtain ⟨k, hfront⟩ := front_of_longest hlongest
  have hname : String.ofList (c :: more) = name := by rw [← htext, String.ofList_toList]
  obtain rfl : k = .identifier := by
    rw [kind_of_word hfront hword, hname, Kind.ofWord_eq_identifier hfree]
  have hpieces : pieces name.toList = [⟨.lexeme .identifier, name.toList⟩] := by
    rw [htext]
    simpa using pieces_of_front hfront
  have hspells := Spells.lexeme hpieces (Piece.clean_lexeme (by decide) _)
  rwa [String.ofList_toList] at hspells

/-- Words of the grammar that are put together from tokens of sources can be printed. -/
theorem printable_of_found {L : Language Token} {w : List Token} (hL : L ≤ endless)
    (h : w ∈ found L) : w ∈ printable L := by
  refine ⟨h.1, fun t ht => ?_⟩
  obtain ⟨source, tokens, htokens, hmem⟩ := h.2 t ht
  exact genuine_of_tokenize htokens hmem (hL h.1 t ht)

section Texts

variable {d : Dialect} {X : Forms} {levels : Nat} {w : List Token} {args : String}

theorem limited_le_endless (d : Dialect) (levels : Nat) :
    limited d levels .expression ≤ endless ∧ limited d levels .init ≤ endless := by
  have hle := limited_le_sentences (d := d) levels
  obtain ⟨hexpression, hinit⟩ := hereditary_endless.sentences_le d
  exact ⟨(hle .expression).trans hexpression, (hle .init).trans hinit⟩

theorem plainStatement_le_endless (d : Dialect) (levels : Nat) :
    plainStatement d (limited d levels) ≤ endless := by
  obtain ⟨hexpression, hinit⟩ := limited_le_endless d levels
  have hother : otherEvaluation d (limited d levels) ≤ evaluation (limited d levels) :=
    fun _ hw => hw.1
  exact (add_le_add le_rfl hother).trans (hereditary_endless.plain_le hexpression hinit)

/-- The text of arguments spells their tokens wherever it is moved to. -/
theorem IsArguments.exists_spells (hX : Headed X) (h : IsArguments X args) :
    Tight args.toList ∧
      ∃ w ∈ opt (sepBy (X .expression)), Spells Delimited args.toList (w.map bare) := by
  obtain rfl | ⟨w, ending, htokens, hw, hfirst, hlast⟩ := h
  · exact ⟨.inl rfl, [], .inl Language.nil_mem_one, .nil⟩
  obtain ⟨first, rest, rfl, -⟩ := hX.expression.sepBy w hw
  have hstart : first.start = 0 := hfirst first rfl
  have hstop : ((first :: rest).getLast (by simp)).stop = byteLength args.toList := by
    rw [byteLength_toList]
    exact hlast _ (List.getLast?_eq_some_getLast (by simp))
  -- The text between the first and the last token is all there is.
  have htext : sourceText args (first :: rest) = args := by
    have hslice : slice args.toList 0 (byteLength args.toList) = args.toList := by
      simpa using slice_append [] args.toList []
    unfold sourceText
    rw [List.head?_cons, List.getLast?_eq_some_getLast (by simp)]
    dsimp only
    rw [hstart, hstop, hslice, String.ofList_toList]
  have hfaithful := faithful_of_tokenize htokens
  have htight := hfaithful.tight _ List.infix_rfl
  have hspells := hfaithful.spells _ List.infix_rfl
  rw [htext] at htight hspells
  exact ⟨htight, _, .inr hw, hspells⟩

/-- A name that may be called, with arguments in parentheses, is a primary. -/
theorem callTokens_mem_evaluation {name : String} (hname : d.known (word name))
    (hw : w ∈ opt (sepBy (X .expression))) : callTokens name w ∈ evaluation (rules d X) := by
  have hsuffix : ofKind .lparen :: (w ++ [ofKind .rparen]) ∈ suffix X :=
    .inr (mem_tok_mul.2 ⟨_, _, rfl, rfl, Language.append_mem_mul hw (mem_tok.2 ⟨_, rfl, rfl⟩)⟩)
  have hatom : [word name] ∈ atom X := .inl (.inr (mem_tok.2 ⟨_, rfl, rfl⟩))
  have hcalls : word name :: ofKind .lparen :: (w ++ [ofKind .rparen]) ∈ d.calls := by
    rintro _ opening v he - -
    obtain ⟨rfl, -⟩ := List.cons.inj he
    exact hname
  have hprimary : word name :: ofKind .lparen :: (w ++ [ofKind .rparen]) ∈ primary d X :=
    ⟨Language.append_mem_mul hatom ((le_kstar : _ ≤ (suffix X)∗) hsuffix), hcalls⟩
  exact call_mem_evaluation.2 ⟨.inr (primary_le_binary _ hprimary), rfl⟩

end Texts

/-! ## Legal trees are well-formed -/

section Wellformed

variable {registry : Registry} {levels : Nat} {c : Command} {p : Program}

/-- A condition or an initial value of a legal tree can be printed. -/
theorem printable_limited {f : Form} (hf : f = .expression ∨ f = .init) {v : List Token}
    (hv : v ∈ found (limited (dialect registry) levels f)) :
    v ∈ printable (limited (dialect registry) levels f) := by
  obtain ⟨hexpression, hinit⟩ := limited_le_endless (dialect registry) levels
  obtain rfl | rfl := hf
  · exact printable_of_found hexpression hv
  · exact printable_of_found hinit hv

variable (hp : Registry.Plain registry)

include hp

/-- A legal call is well-formed. -/
theorem formed_call {name args : String} {good : Command → Prop} (hname : IsName name)
    (hknown : (registry name).isSome)
    (hargs : IsArguments (limited (dialect registry) levels) args) :
    Command.Formed registry (limited (dialect registry) (levels + 1)) good
      (.call ⟨name, args⟩) := by
  obtain ⟨make, hmake⟩ := Option.isSome_iff_exists.1 hknown
  obtain rfl := hp _ _ hmake
  obtain ⟨htight, w, hw, hspells⟩ := hargs.exists_spells (regular_limited levels).toHeaded
  have hbare : w.map bare ∈ opt (sepBy (limited (dialect registry) levels .expression)) :=
    (Told.sepBy tellsKind_bare (blind_limited (dialect_blind registry) levels _)).opt _ _
      (map_bare_map_bare w).symm hw
  have hsentences : opt (sepBy (limited (dialect registry) levels .expression)) ≤
      opt (sepBy (sentences (dialect registry) .expression)) :=
    opt_mono (sepBy_mono (limited_le_sentences levels .expression))
  exact .call hname.genuine hmake htight hspells (hsentences hbare)
    (callTokens_mem_evaluation hknown hbare)

/-- A legal command is well-formed. -/
theorem Command.Legal.wellformed (h : c.Legal registry levels) : c.Wellformed registry levels := by
  induction h with
  | procedure hne h =>
    exact .procedure hne fun w hw => printable_of_found (plainStatement_le_endless _ _) (h w hw)
  | call hname hknown hargs => exact formed_call hp hname hknown hargs
  | block _ hapart ih => exact .block ⟨ih, hapart⟩
  | branch hv _ hthen _ helse iht ihe =>
    exact .branch (printable_limited (.inl rfl) hv) ⟨iht, hthen⟩ ⟨ihe, helse⟩
  | loop hv _ hapart ih => exact .loop (printable_limited (.inl rfl) hv) ⟨ih, hapart⟩

/-- A legal program is well-formed. -/
theorem Program.Legal.wellformed (h : p.Legal registry levels) : p.Wellformed registry levels where
  name := h.name.genuine
  params q hq := by
    obtain ⟨hname, hinit⟩ := h.params q hq
    obtain ⟨name, dims, init⟩ := q
    cases init with
    | none => exact .plain dims hname.genuine
    | some text =>
      obtain ⟨v, hv, rfl⟩ := hinit text rfl
      exact .assigned dims hname.genuine (printable_limited (.inr rfl) hv)
  body := ⟨fun c hc => (h.body c hc).wellformed hp, h.apart⟩

end Wellformed

/-- The canonical text of a legal program is parsed to this program. -/
theorem parse_text_of_legal {names : List String} {p : Program}
    (h : p.Legal (FunctionTable.withNames names).registry maxNesting) :
    parse p.text (FunctionTable.withNames names).registry = .ok p :=
  parse_text_of_wellformed (h.wellformed (plain_withNames names))

/-- A block inside a branch without an `else`, a call with a comment, and two jumps in one text. -/
theorem parse_text_of_legal_branch :
    Program.Legal (FunctionTable.withNames ["g"]).registry maxNesting
      ⟨"f", [⟨"a", 1, some "2"⟩],
        [.branch "a" [.block [.call ⟨"g", "2, /* a */ a"⟩]] [], .procedure "break; break;"]⟩ ∧
    parse (Program.text ⟨"f", [⟨"a", 1, some "2"⟩],
        [.branch "a" [.block [.call ⟨"g", "2, /* a */ a"⟩]] [], .procedure "break; break;"]⟩)
        (FunctionTable.withNames ["g"]).registry =
      .ok ⟨"f", [⟨"a", 1, some "2"⟩],
        [.branch "a" [.block [.call ⟨"g", "2, /* a */ a"⟩]] [], .procedure "break; break;"]⟩ := by
  let two : Token := ⟨.integer, "2", ⟨1, 1, 0⟩, 1⟩
  let comma : Token := ⟨.comma, ",", ⟨1, 2, 1⟩, 2⟩
  let a : Token := ⟨.identifier, "a", ⟨1, 12, 11⟩, 12⟩
  let leave : Token := ⟨.kwBreak, "break", ⟨1, 1, 0⟩, 5⟩
  let semicolon : Token := ⟨.semicolon, ";", ⟨1, 6, 5⟩, 6⟩
  have hargs : tokenize "2, /* a */ a" =
      .ok ([two, comma, a] ++ [⟨.endOfInput, "", ⟨1, 13, 12⟩, 12⟩]) := by decide +kernel
  have hjump : tokenize "break;" = .ok [leave, semicolon, ⟨.endOfInput, "", ⟨1, 7, 6⟩, 6⟩] := by
    decide +kernel
  have hname : ∀ c : Char, isWordStart c → (∀ k ∈ Kind.keywords, String.ofList [c] ≠ k.spelling) →
      IsName (String.ofList [c]) := fun c hc hfree =>
    ⟨String.toList_ofList ▸ cons_mem_word.2 ⟨hc, Language.nil_mem_kstar _⟩, hfree⟩
  let d : Dialect := dialect (FunctionTable.withNames ["g"]).registry
  have hone : ∀ levels, ∀ t ∈ [two, a], [t] ∈ limited d (levels + 1) .expression :=
    fun levels t ht => .inr (primary_le_binary _ (singleton_mem_primary (by revert t; decide)))
  have hfound : ∀ t ∈ [two, a], ∀ u ∈ [t], u.Found := fun t ht =>
    List.forall_mem_singleton.2 ⟨_, _, hargs, by revert t; decide⟩
  have hcall : Command.Legal (FunctionTable.withNames ["g"]).registry (96 + 2)
      (.call ⟨"g", "2, /* a */ a"⟩) := by
    refine .call (hname 'g' (by decide) (by decide)) (by decide)
      (.inr ⟨_, _, hargs, ?_, by decide, by decide +kernel⟩)
    have hrest : [comma, a] ∈ (tok .comma * limited d (95 + 1) .expression)∗ :=
      (le_kstar : _ ≤ (tok .comma * limited d (95 + 1) .expression)∗)
        (mem_tok_mul.2 ⟨comma, [a], rfl, rfl, hone 95 a (by simp)⟩)
    exact Language.append_mem_mul (hone 95 two (by simp)) hrest
  have hbranch : Command.Legal (FunctionTable.withNames ["g"]).registry (99 + 1)
      (.branch "a" [.block [.call ⟨"g", "2, /* a */ a"⟩]] []) := by
    have htext : spanText [a] = "a" := by decide +kernel
    rw [← htext]
    exact .branch ⟨hone 98 a (by simp), hfound a (by simp)⟩
      (List.forall_mem_singleton.2 (.block (List.forall_mem_singleton.2 hcall) (.singleton _)))
      (.singleton _) (fun _ hc => absurd hc List.not_mem_nil) .nil
  have hprocedure : Command.Legal (FunctionTable.withNames ["g"]).registry (99 + 1)
      (.procedure "break; break;") := by
    have htext : " ".intercalate ([[leave, semicolon], [leave, semicolon]].map statementText) =
        "break; break;" := by decide +kernel
    rw [← htext]
    refine .procedure (List.cons_ne_nil _ _) fun w hw => ?_
    obtain rfl : w = [leave, semicolon] := by simpa using hw
    exact ⟨.inl (.inr (cons_mem_oneOf_mul.2 ⟨by decide, mem_tok.2 ⟨semicolon, rfl, rfl⟩⟩)),
      fun t ht => ⟨_, _, hjump, List.mem_append_left _ ht⟩⟩
  have hlegal : Program.Legal (FunctionTable.withNames ["g"]).registry maxNesting
      ⟨"f", [⟨"a", 1, some "2"⟩],
        [.branch "a" [.block [.call ⟨"g", "2, /* a */ a"⟩]] [], .procedure "break; break;"]⟩ := by
    refine ⟨hname 'f' (by decide) (by decide), ?_, ?_, ?_⟩
    · refine List.forall_mem_singleton.2 ⟨hname 'a' (by decide) (by decide), fun text ht => ?_⟩
      obtain rfl := Option.some.inj ht
      exact ⟨[two], ⟨.inr (hone 98 two (by simp)), hfound two (by simp)⟩, by decide +kernel⟩
    · exact List.forall_mem_cons.2 ⟨hbranch, List.forall_mem_singleton.2 hprocedure⟩
    · exact .cons_cons (.inl (by simp [Command.Active])) (.singleton _)
  exact ⟨hlegal, parse_text_of_legal hlegal⟩

end Botscript
