import Botscript.Proofs.Print.Shows

/-!
# The lines of well-formed trees

The lines of a well-formed command, wherever they stand in a source, are statements that denote this
command (`shows_command`), and so are those of a block (`shows_lines`).
-/

namespace Botscript

open Computability Token Parse Grammar

variable {input : Input} {source : String} {registry : Registry} {X : Forms} {M : Denotation}
  {good : Command → Prop} {body : Block} {c : Command} {k : Kind} {u v w x : List Token}

/-! ## Tokens with the same images -/

theorem blind_plainStatement (hX : ∀ f, Blind (X f)) :
    Blind (plainStatement (dialect registry) X) := by
  have hf := tellsKind_bare
  have harguments := (Told.sepBy hf (blind_sentences (dialect_blind registry) .expression)).opt
  have hwhole : Blind (wholeCall (dialect registry)) := (Told.oneOf hf _).mul
    ((Told.oneOf hf _).mul (harguments.mul ((Told.oneOf hf _).mul (.oneOf hf _))))
  have hother : Blind (otherEvaluation (dialect registry) X) := fun u v h hu =>
    ⟨told_evaluation hf hX u v h hu.1, fun hv => hu.2 (hwhole v u h.symm hv)⟩
  exact (((told_declaration hf hX).add (told_result hf hX)).add (told_jump hf)).add hother

/-- Tokens like those of some words are such words. -/
theorem exists_flatten_of_bare {ws : List (List Token)}
    (h : x.map bare = ws.flatten.map bare) : ∃ us, x = us.flatten ∧
      List.Forall₂ (fun u w => u.map bare = w.map bare) us ws := by
  induction ws generalizing x with
  | nil => exact ⟨[], List.map_eq_nil_iff.1 h, .nil⟩
  | cons w ws ih =>
    rw [List.flatten_cons, List.map_append] at h
    obtain ⟨u, y, rfl, hu, hy⟩ := List.map_eq_append_iff.1 h
    obtain ⟨us, rfl, hus⟩ := ih hy
    exact ⟨u :: us, rfl, .cons hu hus⟩

/-- Tokens like those of a procedure are the statements of this procedure. -/
theorem stated_procedure {ws : List (List Token)} {texts : List Token → String}
    (hX : ∀ f, Blind (X f)) (hne : ws ≠ [])
    (hws : ∀ w ∈ ws, w ∈ plainStatement (dialect registry) X)
    (h : x.map bare = ws.flatten.map bare) :
    Stated (Denotes texts registry X M) x
      (.procedure (" ".intercalate (ws.map statementText))) := by
  obtain ⟨us, rfl, hus⟩ := exists_flatten_of_bare h
  refine ⟨us, fun he => hne ?_, rfl, fun u hu => denotes_plain ?_, ?_⟩
  · rw [he, List.forall₂_nil_left_iff] at hus
    exact hus
  · clear h hne
    induction hus with
    | nil => cases hu
    | cons hbare _ ih =>
      obtain rfl | hu := List.mem_cons.1 hu
      · exact blind_plainStatement hX _ _ hbare.symm (hws _ List.mem_cons_self)
      · exact ih (fun w hw => hws w (List.mem_cons_of_mem _ hw)) hu
  · congr 1
    clear h hne hws
    induction hus with
    | nil => rfl
    | cons hbare _ ih => rw [List.map_cons, List.map_cons, statementText_of_bare hbare, ih]

/-- Tokens like those of a condition are this condition. -/
theorem condition_of_bare (hX : ∀ f, Blind (X f)) (hv : v ∈ X .expression)
    (h : x.map bare = parenthesized (v.map bare)) : Condition X x (spanText v) := by
  obtain ⟨l, y, rfl, hl, hy⟩ := List.map_eq_cons_iff.1 h
  obtain ⟨u, t, rfl, hu, ht⟩ := List.map_eq_append_iff.1 hy
  obtain ⟨r, rfl, hr⟩ := List.map_eq_singleton_iff.1 ht
  rw [← spanText_of_bare hu, spanText_eq]
  exact .intro (kind_of_bare hl) (hX _ _ _ hu.symm hv) (kind_of_bare hr)

theorem braced_of_bare (hu : u.map bare = [ofKind .lbrace]) (hbody : Denoted M body v)
    (hw : w.map bare = [ofKind .rbrace]) : Braced M (u ++ (v ++ w)) body := by
  obtain ⟨l, rfl, hl⟩ := List.map_eq_singleton_iff.1 hu
  obtain ⟨r, rfl, hr⟩ := List.map_eq_singleton_iff.1 hw
  obtain ⟨items, hseq, rfl, -⟩ := hbody
  exact .intro (kind_of_bare hl) hseq (kind_of_bare hr)

/-! ## Pieces of lines -/

theorem spells_mark (hk : k ∈ Token.punctuation) : Spells Anything k.spelling.toList [ofKind k] :=
  .punctuation hk

theorem bounded_mark (hk : k ∈ Token.punctuation) (after : String) :
    Bounded (k.spelling ++ after) := by
  refine bounded_append (fun after => ?_) _
  simp only [Token.punctuation, List.mem_cons, List.not_mem_nil, or_false] at hk
  obtain rfl | rfl | rfl | rfl | rfl | rfl | rfl | rfl := hk <;>
    exact delimited_cons.2 (by decide)

theorem bounded_space (after : String) : Bounded (" " ++ after) :=
  bounded_append (bounded_of_delimiter rfl (by decide)) _

theorem spells_space : Spells Anything " ".toList [] := Spells.space

/-- The text in front of a body with a condition. -/
theorem spells_head {text : String} (h : Spells Delimited text.toList w)
    (hk : k = .kwIf ∨ k = .kwWhile) :
    Spells Anything (k.spelling ++ " (" ++ text ++ ") \x7b").toList
      (ofKind k :: (parenthesized w ++ [ofKind .lbrace])) := by
  have hkeyword : Spells Delimited k.spelling.toList [ofKind k] := by
    obtain rfl | rfl := hk
    · exact .kind rfl (by decide)
    · exact .kind rfl (by decide)
  have hclosing := spells_append (spells_mark (k := .rparen) (by decide))
    (spells_append spells_space (spells_mark (k := .lbrace) (by decide)))
  have hcondition := spells_append spells_space (spells_append (spells_mark (k := .lparen)
    (by decide)) (spells_append_bounded h hclosing (bounded_mark (by decide) _)))
  have hall := spells_append_bounded hkeyword hcondition (bounded_space _)
  have htext : k.spelling ++ (" " ++ (Kind.spelling .lparen ++
      (text ++ (Kind.spelling .rparen ++ (" " ++ Kind.spelling .lbrace))))) =
        k.spelling ++ " (" ++ text ++ ") \x7b" := by
    simp only [String.append_assoc]
    rfl
  rw [htext] at hall
  simpa [parenthesized] using hall

/-- The text between the bodies of an `if`. -/
theorem spells_else : Spells Anything "\x7d else \x7b".toList
    [ofKind .rbrace, ofKind .kwElse, ofKind .lbrace] := by
  have hkeyword : Spells Delimited (Kind.spelling .kwElse).toList [ofKind .kwElse] :=
    .kind rfl (by decide)
  exact spells_append (spells_mark (k := .rbrace) (by decide)) (spells_append spells_space
    (spells_append_bounded hkeyword (spells_append spells_space
      (spells_mark (k := .lbrace) (by decide))) (bounded_space _)))

/-! ## Commands -/

section Lines

variable (hs : input.Scanned)

include hs

/-- The line in front of a body with a condition. -/
theorem shows_head (hX : ∀ f, Blind (X f)) (hv : v ∈ printable (X .expression))
    (hk : k = .kwIf ∨ k = .kwWhile) (depth : Nat) :
    Shows input Anything (indented depth (k.spelling ++ " (" ++ spanText v ++ ") \x7b"))
      (ofKind k :: (parenthesized (v.map bare) ++ [ofKind .lbrace])) fun x =>
        ∃ keyword u l, x = keyword :: (u ++ l) ∧ keyword.kind = k ∧
          Condition X u (spanText v) ∧ l.map bare = [ofKind .lbrace] := by
  have hspells := spells_head (spells_spanText hv.2) hk
  refine ((shows_of_spells hs (hspells.mono fun _ _ => trivial)).indented hs depth).imp ?_
  intro x hx
  obtain ⟨keyword, y, rfl, hkeyword, hy⟩ := List.map_eq_cons_iff.1 hx
  obtain ⟨u, l, rfl, hu, hl⟩ := List.map_eq_append_iff.1 hy
  exact ⟨keyword, u, l, rfl, kind_of_bare hkeyword, condition_of_bare hX hv.1 hu, hl⟩

/-- The line of a mark. -/
theorem shows_mark (hk : k ∈ Token.punctuation) (depth : Nat) :
    Shows input Anything (indented depth k.spelling) [ofKind k] fun x => x.map bare = [ofKind k] :=
  (shows_of_spells hs ((spells_mark hk).mono fun _ _ => trivial)).indented hs depth

variable (hgood : ∀ c, good c → ∀ depth,
  Shows input Anything (c.lines depth) c.tokens fun x => Stated M x c)

include hgood

/-- The lines of a block denote this block. -/
theorem shows_lines (h : Block.Formed good body) (depth : Nat) :
    Shows input Anything (Block.lines depth body) (Block.tokens body) (Denoted M body) := by
  obtain ⟨hall, hapart⟩ := h
  induction body with
  | nil =>
    refine (shows_of_spells hs .nil).imp fun x hx => ?_
    rw [List.map_eq_nil_iff.1 hx]
    exact denoted_nil
  | cons c body ih =>
    obtain ⟨hc, hall⟩ := List.forall_mem_cons.1 hall
    obtain ⟨hfirst, hapart⟩ := List.isChain_cons.1 hapart
    refine ((hgood c hc depth).append_anything (ih hall hapart)).imp ?_
    rintro _ ⟨u, v, rfl, hu, hv⟩
    exact denoted_cons hu hv hfirst

/-- The lines of braces around a block. -/
theorem shows_block (h : Block.Formed good body) (depth : Nat) :
    Shows input Anything ((Command.block body).lines depth) (Command.block body).tokens fun x =>
      Braced M x body := by
  have hlines := ((shows_mark hs (k := .lbrace) (by decide) depth).append_anything
    ((shows_lines hs hgood h (depth + 1)).append_anything
      (shows_mark hs (k := .rbrace) (by decide) depth)))
  refine (hlines.congr ?_ (by simp [Command.tokens, embraced])).imp ?_
  · rw [Command.lines, String.append_assoc]
    rfl
  · rintro _ ⟨u, _, rfl, hu, v, w, rfl, hv, hw⟩
    exact braced_of_bare hu hv hw

/-- The lines of a keyword, a condition and a block in braces. -/
theorem shows_ruled (hX : ∀ f, Blind (X f)) (hv : v ∈ printable (X .expression))
    (hk : k = .kwIf ∨ k = .kwWhile) (h : Block.Formed good body) (depth : Nat) :
    Shows input Anything
      (indented depth (k.spelling ++ " (" ++ spanText v ++ ") \x7b") ++
        Block.lines (depth + 1) body ++ indented depth "\x7d")
      (ofKind k :: (parenthesized (lexemes (spanText v).toList) ++ embraced (Block.tokens body)))
      fun x => ∃ keyword u y, x = keyword :: (u ++ y) ∧ keyword.kind = k ∧
        Condition X u (spanText v) ∧ Braced M y body := by
  have hlines := ((shows_head hs hX hv hk depth).append_anything
    ((shows_lines hs hgood h (depth + 1)).append_anything
      (shows_mark hs (k := .rbrace) (by decide) depth)))
  refine (hlines.congr String.append_assoc.symm ?_).imp ?_
  · simp [embraced, (spells_spanText hv.2).lexemes]
  · rintro _ ⟨_, _, rfl, ⟨keyword, u, l, rfl, hk, hcondition, hl⟩, y, r, rfl, hy, hr⟩
    exact ⟨keyword, u, l ++ (y ++ r), by simp, hk, hcondition, braced_of_bare hl hy hr⟩

/-- The lines of a loop. -/
theorem shows_loop {texts : List Token → String} (hX : ∀ f, Blind (X f))
    (hv : v ∈ printable (X .expression)) (h : Block.Formed good body) (depth : Nat) :
    Shows input Anything ((Command.loop (spanText v) body).lines depth)
      (Command.loop (spanText v) body).tokens fun x =>
        Denotes texts registry X M false x (.command (.loop (spanText v) body)) := by
  refine ((shows_ruled hs hgood hX hv (.inr rfl) h depth).congr ?_ rfl).imp ?_
  · have hkeyword : Kind.spelling .kwWhile ++ " (" = "while (" := by decide
    rw [Command.lines, hkeyword]
  · rintro _ ⟨keyword, u, y, rfl, hk, hcondition, hy⟩
    exact .loop hk hcondition (.braced hy)

/-- The lines of an `if` without `else`. -/
theorem shows_oneWay {texts : List Token → String} (hX : ∀ f, Blind (X f))
    (hv : v ∈ printable (X .expression)) (h : Block.Formed good body) (depth : Nat) :
    Shows input Anything ((Command.branch (spanText v) body []).lines depth)
      (Command.branch (spanText v) body []).tokens fun x =>
        Denotes texts registry X M false x (.command (.branch (spanText v) body [])) := by
  refine ((shows_ruled hs hgood hX hv (.inl rfl) h depth).congr ?_ ?_).imp ?_
  · have hkeyword : Kind.spelling .kwIf ++ " (" = "if (" := by decide
    rw [Command.lines, hkeyword]
    rfl
  · rw [Command.tokens, List.isEmpty_nil, if_pos rfl, List.append_nil]
  · rintro _ ⟨keyword, u, y, rfl, hk, hcondition, hy⟩
    exact .oneWay hk hcondition (.braced hy)

/-- The lines of an `if` with `else`. -/
theorem shows_twoWay {texts : List Token → String} {elseBody : Block} (hX : ∀ f, Blind (X f))
    (hv : v ∈ printable (X .expression)) (h : Block.Formed good body)
    (he : Block.Formed good elseBody) (hne : elseBody ≠ []) (depth : Nat) :
    Shows input Anything ((Command.branch (spanText v) body elseBody).lines depth)
      (Command.branch (spanText v) body elseBody).tokens fun x =>
        Denotes texts registry X M false x (.command (.branch (spanText v) body elseBody)) := by
  have hmiddle := ((shows_of_spells hs (spells_else.mono fun _ _ => trivial)).indented hs depth)
  have hlines := ((shows_head hs hX hv (.inl rfl) depth).append_anything
    ((shows_lines hs hgood h (depth + 1)).append_anything (hmiddle.append_anything
      ((shows_lines hs hgood he (depth + 1)).append_anything
        (shows_mark hs (k := .rbrace) (by decide) depth)))))
  have hempty : elseBody.isEmpty = false := by
    obtain ⟨c, rest, rfl⟩ := List.exists_cons_of_ne_nil hne
    rfl
  refine (hlines.congr ?_ ?_).imp ?_
  · have hkeyword : Kind.spelling .kwIf ++ " (" = "if (" := by decide
    rw [Command.lines, hkeyword, hempty, if_neg Bool.false_ne_true]
    simp only [String.append_assoc]
    rfl
  · simp [Command.tokens, embraced, (spells_spanText hv.2).lexemes, hne]
  · rintro _ ⟨_, _, rfl, ⟨keyword, u, l, rfl, hk, hcondition, hl⟩, y, _, rfl, hy, m, _, rfl, hm,
      z, r, rfl, hz, hr⟩
    obtain ⟨closing, m, rfl, hclosing, hm⟩ := List.map_eq_cons_iff.1 hm
    obtain ⟨other, m, rfl, hother, hm⟩ := List.map_eq_cons_iff.1 hm
    have hthen := braced_of_bare hl hy (w := [closing]) (congrArg (fun t => [t]) hclosing)
    have helse := braced_of_bare hm hz hr
    have hx : keyword :: (u ++ l) ++ (y ++ (closing :: other :: m ++ (z ++ r))) =
        keyword :: (u ++ ((l ++ (y ++ [closing])) ++ other :: (m ++ (z ++ r)))) := by simp
    rw [hx]
    exact .twoWay hk hcondition (.braced hthen) (kind_of_bare hother) (.braced helse)

omit hgood

variable (hsource : input.source = source.toList)

include hsource

/-- The line of a call. -/
theorem shows_call {name args : String} (hX : ∀ f, Blind (X f)) (hname : (word name).Genuine)
    (hmake : registry name = some (.plain name)) (htight : Tight args.toList)
    (hspells : Spells Delimited args.toList w)
    (hargs : w ∈ opt (sepBy (sentences (dialect registry) .expression)))
    (hw : callTokens name w ∈ evaluation X) (depth : Nat) :
    Shows input Anything ((Command.call ⟨name, args⟩).lines depth)
      (Command.call ⟨name, args⟩).tokens fun x =>
        Denotes (sourceText source) registry X M false x (.command (.call ⟨name, args⟩)) := by
  have hopening := shows_of_spells hs (spells_mark (k := .lparen) (by decide))
  have hclosing := shows_of_spells hs (spells_append (spells_mark (k := .rparen) (by decide))
    (spells_mark (k := .semicolon) (by decide)))
  have hinside := (shows_tight hs hsource htight hspells).append_bounded hclosing
    (bounded_mark (k := .rparen) (by decide) _)
  have hall := (shows_of_spells hs hname).append_bounded (hopening.append_anything hinside)
    (bounded_mark (k := .lparen) (by decide) _)
  have hline := (hall.mono (G := Delimited) fun _ _ => trivial).indented hs depth
  refine (hline.congr ?_ ?_).imp ?_
  · rw [Command.lines, Call.text]
    simp only [String.append_assoc]
    rfl
  · rw [Command.tokens, hspells.lexemes]
    simp [callTokens, word, bare]
  · rintro _ ⟨n, _, rfl, hn, o, _, rfl, ho, z, r, rfl, ⟨hz, htext⟩, hr⟩
    obtain ⟨name', rfl, hname'⟩ := List.map_eq_singleton_iff.1 hn
    obtain ⟨opening, rfl, hopen⟩ := List.map_eq_singleton_iff.1 ho
    obtain ⟨closing, m, rfl, hclose, hm⟩ := List.map_eq_cons_iff.1 hr
    obtain ⟨semicolon, rfl, hsemicolon⟩ := List.map_eq_singleton_iff.1 hm
    have hbare : w.map bare = w := by rw [← hz, map_bare_map_bare]
    have hall : (name' :: opening :: (z ++ [closing, semicolon])).map bare =
        (callTokens name w).map bare := by
      simp only [callTokens, List.map_cons, List.map_append, List.map_nil, hname', hopen, hclose,
        hsemicolon, hz, hbare]
      rfl
    have himage : name'.image = name := congrArg Token.image hname'
    have hargs' : z ∈ opt (sepBy (sentences (dialect registry) .expression)) :=
      (Told.sepBy tellsKind_bare (blind_sentences (dialect_blind registry) _)).opt _ _
        (hbare.trans hz.symm) hargs
    have hdenotes : Denotes (sourceText source) registry X M false _ _ := .call
      (told_evaluation tellsKind_bare hX _ _ hall.symm hw) (kind_of_bare hname')
      (kind_of_bare hopen) hargs' (kind_of_bare hclose) (himage ▸ hmake)
    rw [htext, himage] at hdenotes
    exact hdenotes

/-- The lines of a command are the statements that it stands for, if those of the commands inside
are. -/
theorem shows_formed (hX : ∀ f, Blind (X f))
    (hgood : ∀ c, good c → ∀ depth,
      Shows input Anything (c.lines depth) c.tokens fun x => Stated M x c)
    (h : Command.Formed registry X good c) (depth : Nat) :
    Shows input Anything (c.lines depth) c.tokens fun x =>
      Stated (Denotes (sourceText source) registry X M) x c := by
  cases h with
  | procedure hne hws =>
    have hspells := spells_statements hws
    refine (((shows_of_spells hs (hspells.mono fun _ _ => trivial)).indented hs depth).congr rfl
      hspells.lexemes.symm).imp fun x hx => ?_
    exact stated_procedure hX hne (fun w hw => (hws w hw).1) hx
  | call hname hmake htight hspells hargs hw =>
    exact shows_call hs hsource hX hname hmake htight hspells hargs hw depth
  | block hbody => exact (shows_block hs hgood hbody depth).imp fun x hx => .block hx
  | loop hv hbody => exact shows_loop hs hgood hX hv hbody depth
  | @branch v thenBody elseBody hv ht he =>
    obtain rfl | hne := eq_or_ne elseBody []
    · exact shows_oneWay hs hgood hX hv ht depth
    · exact shows_twoWay hs hgood hX hv ht he hne depth

/-- The lines of a well-formed command are the statements that it stands for. -/
theorem shows_command : ∀ levels c, Command.Wellformed registry levels c → ∀ depth,
    Shows input Anything (c.lines depth) c.tokens fun x =>
      Stated (Meaning (sourceText source) registry levels) x c
  | 0, _, h, _ => h.elim
  | levels + 1, _, h, depth => shows_formed hs hsource (blind_limited (dialect_blind registry) _)
      (shows_command levels) h depth

end Lines

end Botscript
