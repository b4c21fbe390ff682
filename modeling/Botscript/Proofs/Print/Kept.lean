import Botscript.Proofs.Print.Wellformed

/-!
# What a tree keeps of a source

The tree that the tokens of a source denote is well-formed, and it is written with the same tokens,
but for braces, semicolons, `else` and `var` (`kept_meaning`, `kept_program`).
-/

namespace Botscript

open Computability Token Parse Grammar

/-- Functions whose calls keep their names and argument texts. -/
def Registry.Plain (registry : Registry) : Prop :=
  ∀ name make, registry name = some make → make = .plain name

theorem plain_withNames (names : List String) :
    Registry.Plain (FunctionTable.withNames names).registry := fun name make h => by
  rw [FunctionTable.registry_withNames] at h
  split_ifs at h
  exact (Option.some.inj h).symm

/-- Tokens that their images spell, and texts that spell the tokens they are the text of. -/
structure Faithful (texts : List Token → String) (tokens : List Token) : Prop where
  genuine : ∀ t ∈ tokens, t.Genuine
  tight : ∀ w, w <:+: tokens → Tight (texts w).toList
  spells : ∀ w, w <:+: tokens → Spells Delimited (texts w).toList (w.map bare)

/-- The plain statements with a number of levels of nesting. -/
def plainAt (registry : Registry) : Nat → Language Token
  | 0 => 0
  | levels + 1 => plainStatement (dialect registry) (limited (dialect registry) levels)

/-- An item is well-formed, and it is written with the tokens that denote it. -/
def Parse.Item.Kept (registry : Registry) (levels : Nat) (w : List Token) : Item → Prop
  | .empty => skeleton w = []
  | .plain text => w ∈ printable (plainAt registry levels) ∧ text = statementText w
  | .command c => c.Wellformed registry levels ∧ c.Active ∧ skeleton c.tokens = skeleton w

variable {texts : List Token → String} {registry : Registry} {tokens u v w : List Token}
  {levels : Nat} {items : List Item} {body : Block} {ws : List (List Token)}

/-! ## Blocks -/

theorem wellformed_procedure (hne : ws ≠ [])
    (h : ∀ w ∈ ws, w ∈ printable (plainAt registry levels)) :
    Command.Wellformed registry levels (.procedure (" ".intercalate (ws.map statementText))) := by
  cases levels with
  | zero =>
    obtain ⟨w, ws, rfl⟩ := List.exists_cons_of_ne_nil hne
    exact absurd (h w List.mem_cons_self).1 (Language.notMem_zero w)
  | succ levels => exact .procedure hne h

/-- The procedure of plain statements, in front of commands that do not begin with one. -/
theorem formed_procedureOf (h : ∀ w ∈ ws, w ∈ printable (plainAt registry levels))
    (hbody : Block.Formed (Command.Wellformed registry levels) body)
    (hhead : ∀ c ∈ body.head?, c.Active) :
    Block.Formed (Command.Wellformed registry levels)
      (procedureOf (ws.map statementText) ++ body) := by
  obtain rfl | hne := eq_or_ne ws []
  · exact hbody
  have hprocedure : procedureOf (ws.map statementText) =
      [.procedure (" ".intercalate (ws.map statementText))] := by
    obtain ⟨w, ws, rfl⟩ := List.exists_cons_of_ne_nil hne
    rfl
  rw [hprocedure]
  refine ⟨List.forall_mem_cons.2 ⟨wellformed_procedure hne h, hbody.all⟩, ?_⟩
  exact List.isChain_cons.2 ⟨fun c hc => .inr (hhead c hc), hbody.apart⟩

theorem tokens_procedure (h : ∀ w ∈ ws, w ∈ printable (plainAt registry levels)) :
    Block.tokens (procedureOf (ws.map statementText)) = ws.flatten.map bare := by
  cases levels with
  | zero =>
    cases ws with
    | nil => rfl
    | cons w ws => exact absurd (h w List.mem_cons_self).1 (Language.notMem_zero w)
  | succ levels => exact tokens_procedureOf h

/-- Items that are kept make a block that is. -/
theorem kept_gatherAfter (h : Sequence (Item.Kept registry levels) w items)
    (hws : ∀ w ∈ ws, w ∈ printable (plainAt registry levels)) :
    Block.Formed (Command.Wellformed registry levels)
        (gatherAfter (ws.map statementText) items) ∧
      skeleton (Block.tokens (gatherAfter (ws.map statementText) items)) =
        skeleton ws.flatten ++ skeleton w := by
  induction h generalizing ws with
  | nil =>
    refine ⟨?_, ?_⟩
    · have hnil : Block.Formed (Command.Wellformed registry levels) [] :=
        ⟨fun _ hc => absurd hc List.not_mem_nil, .nil⟩
      simpa [gatherAfter] using formed_procedureOf hws hnil fun _ hc => by cases hc
    · rw [gatherAfter, tokens_procedure hws, skeleton_map_bare]
      exact (List.append_nil _).symm
  | @cons u v item items hitem _ ih =>
    cases item with
    | empty =>
      obtain ⟨hformed, htokens⟩ := ih hws
      have hu : skeleton u = [] := hitem
      rw [skeleton_append, hu, List.nil_append]
      exact ⟨hformed, htokens⟩
    | plain text =>
      obtain ⟨hu, rfl⟩ := hitem
      have hmore : ∀ w ∈ ws ++ [u], w ∈ printable (plainAt registry levels) := fun w hw => by
        obtain hw | hw := List.mem_append.1 hw
        · exact hws w hw
        · exact List.mem_singleton.1 hw ▸ hu
      have hmap : ws.map statementText ++ [statementText u] = (ws ++ [u]).map statementText := by
        rw [List.map_append]
        rfl
      rw [gatherAfter, hmap]
      obtain ⟨hformed, htokens⟩ := ih hmore
      refine ⟨hformed, ?_⟩
      rw [htokens]
      simp
    | command c =>
      obtain ⟨hc, hactive, hskeleton⟩ := hitem
      obtain ⟨hformed, htokens⟩ := ih fun _ hw => absurd hw List.not_mem_nil
      have hrest : Block.Formed (Command.Wellformed registry levels)
          (c :: gatherAfter [] items) :=
        ⟨List.forall_mem_cons.2 ⟨hc, hformed.all⟩,
          List.isChain_cons.2 ⟨fun _ _ => .inl hactive, hformed.apart⟩⟩
      rw [gatherAfter]
      refine ⟨formed_procedureOf hws hrest fun c' hc' => ?_, ?_⟩
      · obtain rfl := Option.some.inj hc'
        exact hactive
      · rw [Block.tokens_append, Block.tokens, tokens_procedure hws, skeleton_append,
          skeleton_append, skeleton_append, skeleton_map_bare, hskeleton]
        rw [show skeleton (Block.tokens (gatherAfter [] items)) = skeleton v from htokens]

theorem kept_gather (h : Sequence (Item.Kept registry levels) w items) :
    Block.Formed (Command.Wellformed registry levels) (gather items) ∧
      skeleton (Block.tokens (gather items)) = skeleton w :=
  have hnone : ∀ w ∈ ([] : List (List Token)), w ∈ printable (plainAt registry levels) :=
    fun _ hw => absurd hw List.not_mem_nil
  kept_gatherAfter h hnone

/-! ## Statements -/

section Meaning

variable (hf : Faithful texts tokens) (hp : Registry.Plain registry) {M : Denotation}
  (hM : ∀ closed w item, M closed w item → w <:+: tokens → Item.Kept registry levels w item)

include hM

theorem kept_sequence (h : Sequence (M false) w items) (hw : w <:+: tokens) :
    Sequence (Item.Kept registry levels) w items := by
  induction h with
  | nil => exact .nil
  | cons hitem _ ih =>
    exact .cons (hM _ _ _ hitem ((List.prefix_append _ _).isInfix.trans hw))
      (ih ((List.suffix_append _ _).isInfix.trans hw))

theorem kept_braced (h : Braced M w body) (hw : w <:+: tokens) :
    Block.Formed (Command.Wellformed registry levels) body ∧
      skeleton (Block.tokens body) = skeleton w := by
  obtain ⟨hl, hseq, hr⟩ := h
  rename_i l r v items
  have hv : v <:+: l :: (v ++ [r]) := ⟨[l], [r], by simp⟩
  rw [skeleton_embraced hl hr]
  exact kept_gather (kept_sequence hM hseq (hv.trans hw))

theorem kept_body {closed : Bool} (h : Body M closed w body) (hw : w <:+: tokens) :
    Block.Formed (Command.Wellformed registry levels) body ∧
      skeleton (Block.tokens body) = skeleton w := by
  cases h with
  | braced h => exact kept_braced hM h hw
  | single ht h =>
    have hkept := kept_gather (.cons (hM _ _ _ h hw) .nil)
    rwa [List.append_nil] at hkept

omit hM

/-- A keyword, operator or mark is told by its kind. -/
theorem skeleton_mark {t : Token} {k : Kind} (h : t.Genuine) (ht : t.kind = k)
    (hk : k ∈ Kind.keywords ++ Kind.operators) : skeleton [ofKind k] = skeleton [t] := by
  exact skeleton_of_bare (congrArg (fun t => [t]) (h.bare_eq ht hk).symm)

/-- The tokens of an `else` are told by its body, also where it is left out. -/
theorem skeleton_elseTokens (body : Block) :
    skeleton (if body.isEmpty then [] else ofKind .kwElse :: embraced (Block.tokens body)) =
      skeleton (Block.tokens body) := by
  cases body with
  | nil => rfl
  | cons c rest =>
    rw [List.isEmpty_cons, if_neg Bool.false_ne_true, skeleton_cons,
      skeleton_singleton_of_mem (by decide), embraced, skeleton_embraced rfl rfl, List.nil_append]

include hf

theorem genuine_of_part (hw : w <:+: tokens) : ∀ t ∈ w, t.Genuine := fun t ht =>
  hf.genuine t (hw.subset ht)

/-- A condition is kept as the text of its tokens. -/
theorem kept_condition {X : Forms} {text : String} (h : Condition X w text) (hw : w <:+: tokens) :
    ∃ v ∈ printable (X .expression), text = spanText v ∧
      skeleton (parenthesized (lexemes text.toList)) = skeleton w := by
  obtain ⟨hl, hv, hr⟩ := h
  rename_i l r v
  have hgenuine := genuine_of_part hf hw
  have hv' : ∀ t ∈ v, t.Genuine := fun t ht => hgenuine t (by simp [ht])
  refine ⟨v, ⟨hv, hv'⟩, (spanText_eq v).symm, ?_⟩
  rw [← spanText_eq, (spells_spanText hv').lexemes, parenthesized, skeleton_cons, skeleton_append,
    skeleton_map_bare, skeleton_mark (hgenuine l (by simp)) hl (by decide),
    skeleton_mark (hgenuine r (by simp)) hr (by decide), ← skeleton_append, ← skeleton_cons]

/-- A keyword, a condition and a body are kept. -/
theorem kept_ruled {X : Forms} {k : Kind} {keyword : Token} {text : String} {closed : Bool}
    (hM : ∀ closed w item, M closed w item → w <:+: tokens → Item.Kept registry levels w item)
    (hk : keyword.kind = k) (hmem : k ∈ Kind.keywords ++ Kind.operators)
    (hcond : Condition X u text) (hbody : Body M closed v body)
    (hw : keyword :: (u ++ v) <:+: tokens) :
    (∃ x ∈ printable (X .expression), text = spanText x) ∧
      Block.Formed (Command.Wellformed registry levels) body ∧
      skeleton (ofKind k :: (parenthesized (lexemes text.toList) ++
        embraced (Block.tokens body))) = skeleton (keyword :: (u ++ v)) := by
  obtain ⟨x, hx, rfl, hcondition⟩ := kept_condition hf hcond (.trans ⟨[keyword], v, by simp⟩ hw)
  obtain ⟨hformed, htokens⟩ := kept_body hM hbody (.trans ⟨keyword :: u, [], by simp⟩ hw)
  have hkeyword := skeleton_mark (genuine_of_part hf hw keyword (by simp)) hk hmem
  refine ⟨⟨x, hx, rfl⟩, hformed, ?_⟩
  rw [skeleton_cons, skeleton_append, hkeyword, hcondition, embraced, skeleton_embraced rfl rfl,
    htokens, ← skeleton_append, ← skeleton_cons]

theorem kept_plain {X : Forms} (hw : w ∈ plainStatement (dialect registry) X)
    (hpart : w <:+: tokens) : w ∈ printable (plainStatement (dialect registry) X) :=
  ⟨hw, genuine_of_part hf hpart⟩

include hp

/-- A call is kept with the text between its parentheses. -/
theorem kept_call {X : Forms} {good : Command → Prop} {name opening closing semicolon : Token}
    {args : List Token} {make : Factory} (hX : ∀ f, Blind (X f))
    (hw : name :: opening :: (args ++ [closing, semicolon]) ∈ evaluation X)
    (hname : name.kind = .identifier) (hopening : opening.kind = .lparen)
    (hargs : args ∈ opt (sepBy (sentences (dialect registry) .expression)))
    (hclosing : closing.kind = .rparen) (hmake : registry name.image = some make)
    (hpart : name :: opening :: (args ++ [closing, semicolon]) <:+: tokens) :
    Command.Formed registry X good (.call (make (texts args))) ∧
      skeleton (Command.call (make (texts args))).tokens =
        skeleton (name :: opening :: (args ++ [closing, semicolon])) := by
  have hgenuine := genuine_of_part hf hpart
  have hspells := hf.spells args (.trans ⟨[name, opening], [closing, semicolon], by simp⟩ hpart)
  have htight := hf.tight args (.trans ⟨[name, opening], [closing, semicolon], by simp⟩ hpart)
  have hmarks : (name :: opening :: (args ++ [closing, semicolon])).map bare =
      (callTokens name.image (args.map bare)).map bare :=
    map_bare_call hname ((hgenuine opening (by simp)).bare_eq hopening (by decide))
      ((hgenuine closing (by simp)).bare_eq hclosing (by decide))
      ((hgenuine semicolon (by simp)).bare_eq (call_mem_evaluation.1 hw).2 (by decide))
  obtain rfl := hp _ _ hmake
  refine ⟨.call (genuine_word hname (hgenuine name (by simp))) hmake htight hspells ?_ ?_, ?_⟩
  · exact (Told.sepBy tellsKind_bare (blind_sentences (dialect_blind registry) _)).opt _ _
      (map_bare_map_bare args).symm hargs
  · exact told_evaluation tellsKind_bare hX _ _ hmarks hw
  · rw [Command.tokens]
    dsimp only [Factory.plain]
    rw [hspells.lexemes]
    exact skeleton_of_bare hmarks.symm

include hM

/-- An item one level further out is kept, if the items inside are. -/
theorem kept_denotes {closed : Bool} {item : Item}
    (h : Denotes texts registry (limited (dialect registry) levels) M closed w item)
    (hw : w <:+: tokens) : Item.Kept registry (levels + 1) w item := by
  cases h with
  | empty ht => exact skeleton_singleton_of_mem (ht ▸ by decide)
  | plain hplain => exact ⟨kept_plain hf hplain hw, (statementText_eq hplain).symm⟩
  | call hcall hname hopening hargs hclosing hmake =>
    obtain ⟨hformed, htokens⟩ := kept_call hf hp (blind_limited (dialect_blind registry) levels)
      hcall hname hopening hargs hclosing hmake hw
    exact ⟨hformed, by simp [Command.Active], htokens⟩
  | block hb =>
    obtain ⟨hformed, htokens⟩ := kept_braced hM hb hw
    refine ⟨.block hformed, by simp [Command.Active], ?_⟩
    rw [Command.tokens, embraced, skeleton_embraced rfl rfl, htokens]
  | loop hk hcond hbody =>
    obtain ⟨⟨x, hx, rfl⟩, hformed, htokens⟩ := kept_ruled hf hM hk (by decide) hcond hbody hw
    exact ⟨.loop hx hformed, by simp [Command.Active], htokens⟩
  | oneWay hk hcond hbody =>
    obtain ⟨⟨x, hx, rfl⟩, hformed, htokens⟩ := kept_ruled hf hM hk (by decide) hcond hbody hw
    have hnone : Block.Formed (Command.Wellformed registry levels) [] :=
      ⟨fun _ hc => absurd hc List.not_mem_nil, .nil⟩
    refine ⟨.branch hx hformed hnone, by simp [Command.Active], ?_⟩
    rwa [Command.tokens, List.isEmpty_nil, if_pos rfl, List.append_nil]
  | @twoWay _ keyword other u v v' _ thenBody elseBody hk hcond hthen ho helse =>
    have hsplit : keyword :: (u ++ (v ++ other :: v')) = (keyword :: (u ++ v)) ++ other :: v' := by
      simp
    rw [hsplit] at hw ⊢
    obtain ⟨⟨x, hx, rfl⟩, ht, hthenTokens⟩ :=
      kept_ruled hf hM hk (by decide) hcond hthen (.trans (List.prefix_append _ _).isInfix hw)
    obtain ⟨he, helseTokens⟩ :=
      kept_body hM helse (.trans ⟨(keyword :: (u ++ v)) ++ [other], [], by simp⟩ hw)
    refine ⟨.branch hx ht he, by simp [Command.Active], ?_⟩
    have hother : skeleton (other :: v') = skeleton (Block.tokens elseBody) := by
      rw [skeleton_cons, skeleton_singleton_of_mem (ho ▸ by decide), List.nil_append, helseTokens]
    rw [Command.tokens, ← List.append_assoc, ← List.cons_append, skeleton_append, hthenTokens,
      skeleton_elseTokens, skeleton_append, hother]

omit hM

/-- What tokens denote is kept. -/
theorem kept_meaning : ∀ levels closed w item, Meaning texts registry levels closed w item →
    w <:+: tokens → Item.Kept registry levels w item
  | 0, _, _, _, h, _ => h.elim
  | levels + 1, _, _, _, h, hw => kept_denotes hf hp (kept_meaning levels) h hw

/-! ## Programs -/

omit hf hp

/-- The name of a token is spelled by its image. -/
theorem kept_name {name : Token} (hname : name.kind = .identifier) (h : name.Genuine) :
    (word name.image).Genuine ∧ skeleton [word name.image] = skeleton [name] :=
  ⟨genuine_word hname h, skeleton_of_bare (congrArg (fun t => [t]) (bare_word hname))⟩

theorem skeleton_dimensions {dims : Nat} (hw : w ∈ (tok .lbracket * tok .rbracket) ^ dims)
    (hgenuine : ∀ t ∈ w, t.Genuine) : skeleton (dimensionTokens dims) = skeleton w := by
  induction dims generalizing w with
  | zero =>
    obtain rfl := (Language.mem_one w).1 hw
    rfl
  | succ dims ih =>
    rw [pow_succ'] at hw
    obtain ⟨_, hpair, w, hw, rfl⟩ := hw
    obtain ⟨l, _, rfl, hl, hlast⟩ := mem_tok_mul.1 hpair
    obtain ⟨r, rfl, hr⟩ := mem_tok.1 hlast
    have hleft := skeleton_mark (hgenuine l (by simp)) hl (by decide)
    have hright := skeleton_mark (hgenuine r (by simp)) hr (by decide)
    have hrest := ih hw fun t ht => hgenuine t (by simp [ht])
    rw [dimensionTokens, skeleton_cons, skeleton_cons (ofKind .rbracket), hleft, hright, hrest]
    exact ((skeleton_cons l (r :: w)).trans (congrArg _ (skeleton_cons r w))).symm

include hf

theorem kept_parameter {X : Forms} {p : Param} (h : Parameter X w p) (hw : w <:+: tokens) :
    p.Wellformed X ∧ skeleton p.tokens = skeleton w := by
  obtain ⟨hfront, hname, hpairs, ha⟩ := h
  rename_i front pairs rest name dims init
  have hgenuine := genuine_of_part hf hw
  obtain ⟨hword, hskeleton⟩ := kept_name hname (hgenuine name (by simp))
  have hnothing : skeleton front = [] := by
    obtain hfront | hfront := hfront
    · obtain rfl := (Language.mem_one front).1 hfront
      rfl
    · obtain ⟨keyword, rfl, hk⟩ := mem_tok.1 hfront
      exact skeleton_singleton_of_mem (hk ▸ by decide)
  have hdims := skeleton_dimensions hpairs fun t ht => hgenuine t (by simp [ht])
  have hsame : skeleton (initTokens init) = skeleton rest →
      skeleton (Param.tokens ⟨name.image, dims, init⟩) =
        skeleton (front ++ name :: (pairs ++ rest)) := fun hinit => by
    rw [Param.tokens, skeleton_cons, skeleton_singleton_of_mem (by decide), skeleton_cons,
      skeleton_append, hskeleton, hdims, hinit, skeleton_append front, hnothing,
      ← skeleton_append pairs, ← skeleton_cons]
  cases ha with
  | none => exact ⟨.plain dims hword, hsame rfl⟩
  | @some sign v hs hv =>
    have hv' : ∀ t ∈ v, t.Genuine := fun t ht => hgenuine t (by simp [ht])
    rw [← spanText_eq] at hsame ⊢
    refine ⟨.assigned dims hword ⟨hv, hv'⟩, hsame ?_⟩
    rw [initTokens, (spells_spanText hv').lexemes, skeleton_cons,
      skeleton_mark (hgenuine sign (by simp)) hs (by decide), skeleton_map_bare, ← skeleton_cons]

theorem kept_parameters {X : Forms} {params : List Param}
    (h : w = [] ∧ params = [] ∨ Parameters X w params) (hw : w <:+: tokens) :
    (∀ p ∈ params, p.Wellformed X) ∧ skeleton (paramTokens params) = skeleton w := by
  obtain ⟨rfl, rfl⟩ | ⟨hfirst, hrest⟩ := h
  · exact ⟨fun _ hp => absurd hp List.not_mem_nil, rfl⟩
  rename_i u v p ps
  have hmore : v <:+: tokens →
      (∀ p ∈ ps, p.Wellformed X) ∧ skeleton (moreTokens ps) = skeleton v := by
    clear hw
    induction hrest with
    | nil => exact fun _ => ⟨fun _ hp => absurd hp List.not_mem_nil, rfl⟩
    | cons hnext _ ih =>
      intro hv
      obtain ⟨comma, x, rfl, hc, hp⟩ := hnext
      obtain ⟨hwell, htokens⟩ := ih ((List.suffix_append _ _).isInfix.trans hv)
      have hx : x <:+: comma :: x := (List.suffix_cons comma x).isInfix
      obtain ⟨hfirst, hsame⟩ :=
        kept_parameter hf hp (hx.trans ((List.prefix_append _ _).isInfix.trans hv))
      refine ⟨List.forall_mem_cons.2 ⟨hfirst, hwell⟩, ?_⟩
      have hcomma := skeleton_mark (genuine_of_part hf hv comma (by simp)) hc (by decide)
      rw [moreTokens, skeleton_cons, skeleton_append, hcomma, hsame, htokens, List.cons_append,
        ← skeleton_append, ← skeleton_cons]
  obtain ⟨hwell, htokens⟩ := hmore ((List.suffix_append _ _).isInfix.trans hw)
  obtain ⟨hfirst, hsame⟩ := kept_parameter hf hfirst ((List.prefix_append _ _).isInfix.trans hw)
  refine ⟨List.forall_mem_cons.2 ⟨hfirst, hwell⟩, ?_⟩
  rw [paramTokens, skeleton_append, hsame, htokens, skeleton_append]

include hp

/-- The program that tokens denote is well-formed, and written with the same tokens but for those
that a tree does not tell. -/
theorem kept_program {p : Program} {ending : Token}
    (h : ProgramMeaning texts registry levels (tokens ++ [ending]) p) :
    p.Wellformed registry levels ∧ skeleton p.tokens = skeleton tokens := by
  generalize hall : tokens ++ [ending] = all at h
  obtain ⟨hfunc, hname, ho, hparams, hc, hb, -⟩ := h
  rename_i func name opening closing last u v params body
  have hsplit : tokens ++ [ending] =
      (func :: name :: opening :: (u ++ closing :: v)) ++ [last] := by
    rw [hall]
    simp
  obtain ⟨rfl, -⟩ := List.append_inj' hsplit rfl
  have hgenuine := hf.genuine
  obtain ⟨hword, hskeleton⟩ := kept_name hname (hgenuine name (by simp))
  obtain ⟨hwell, hsame⟩ := kept_parameters hf hparams
    ⟨[func, name, opening], closing :: v, by simp⟩
  obtain ⟨hformed, hbody⟩ := kept_braced (kept_meaning hf hp levels) hb
    ⟨func :: name :: opening :: (u ++ [closing]), [], by simp⟩
  refine ⟨⟨hword, hwell, hformed⟩, ?_⟩
  have hkeyword := skeleton_mark (hgenuine func (by simp)) hfunc (by decide)
  have hleft := skeleton_mark (hgenuine opening (by simp)) ho (by decide)
  have hright := skeleton_mark (hgenuine closing (by simp)) hc (by decide)
  rw [Program.tokens, skeleton_cons, skeleton_cons (word _), skeleton_cons (ofKind .lparen),
    skeleton_append, skeleton_cons (ofKind .rparen), hkeyword, hskeleton, hleft, hright, hsame,
    embraced, skeleton_embraced rfl rfl, hbody, ← skeleton_cons closing, ← skeleton_append,
    ← skeleton_cons opening, ← skeleton_cons name, ← skeleton_cons func]

end Meaning

end Botscript
