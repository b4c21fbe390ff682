import Botscript.Proofs.Grammar.Callees
import Botscript.Proofs.Grammar.Exact
import Botscript.Proofs.Meaning.Gather

/-!
# What a program denotes

`Meaning` says which item some tokens denote as a statement with a number of levels of nesting, and
`ProgramMeaning` which program; both follow the grammar, each `else` belonging to the nearest `if`.
They are relations on tokens, apart from any way of reading them, and write the texts of statements
and conditions out (`joined`), which are those of the tree (`spanText_eq`, `statementText_eq`). The
only thing taken from the source is the text of some tokens, as a function `texts`. Every word of
the grammar denotes something (`total_meaning`, `exists_programMeaning`).
-/

namespace Botscript

open Computability Token Parse Grammar

/-! ## Statements -/

/-- A call of a name and nothing else, as a statement. -/
def wholeCall (d : Dialect) : Language Token :=
  tok .identifier * (tok .lparen * (opt (sepBy (sentences d .expression)) *
    (tok .rparen * tok .semicolon)))

/-- The expressions as statements that are no whole calls. -/
def otherEvaluation (d : Dialect) (X : Forms) : Language Token :=
  {w | w ∈ evaluation X ∧ w ∉ wholeCall d}

/-- The statements that stay text: declarations, jumps, and expressions that are no whole calls. -/
def plainStatement (d : Dialect) (X : Forms) : Language Token :=
  declaration X + result X + jump + otherEvaluation d X

/-- The images of some tokens with single spaces between them. -/
def joined (w : List Token) : String := " ".intercalate (w.map Token.image)

/-- What some tokens denote as a statement; if the flag is set, as one that cannot have an `else`
behind it. -/
abbrev Denotation := Bool → List Token → Item → Prop

/-- Words one after another, and what each of them denotes. -/
inductive Sequence {α : Type} (R : List Token → α → Prop) : List Token → List α → Prop
  | nil : Sequence R [] []
  | cons {u v : List Token} {a : α} {as : List α} (h : R u a) (hrest : Sequence R v as) :
    Sequence R (u ++ v) (a :: as)

/-- Statements in braces. -/
inductive Braced (inner : Denotation) : List Token → Block → Prop
  | intro {l r : Token} {v : List Token} {items : List Item} (hl : l.kind = .lbrace)
    (h : Sequence (inner false) v items) (hr : r.kind = .rbrace) :
    Braced inner (l :: (v ++ [r])) (gather items)

/-- What `if`, `else` and `while` rule over: braces of their own, or one statement. -/
inductive Body (inner : Denotation) (closed : Bool) : List Token → Block → Prop
  | braced {w : List Token} {body : Block} (h : Braced inner w body) : Body inner closed w body
  | single {t : Token} {v : List Token} {item : Item} (ht : t.kind ≠ .lbrace)
    (h : inner closed (t :: v) item) : Body inner closed (t :: v) (gather [item])

/-- A condition in parentheses. -/
inductive Condition (X : Forms) : List Token → String → Prop
  | intro {l r : Token} {v : List Token} (hl : l.kind = .lparen) (h : v ∈ X .expression)
    (hr : r.kind = .rparen) : Condition X (l :: (v ++ [r])) (joined v)

/-- What a statement denotes, where the statements inside denote what is given. -/
inductive Denotes (texts : List Token → String) (registry : Registry) (X : Forms)
    (inner : Denotation) : Denotation
  | empty {closed : Bool} {t : Token} (ht : t.kind = .semicolon) :
    Denotes texts registry X inner closed [t] .empty
  | plain {closed : Bool} {w : List Token} (hw : w ∈ plainStatement (dialect registry) X) :
    Denotes texts registry X inner closed w (.plain (joined w.dropLast ++ ";"))
  | call {closed : Bool} {name opening closing semicolon : Token} {args : List Token}
    {make : Factory} (hw : name :: opening :: (args ++ [closing, semicolon]) ∈ evaluation X)
    (hname : name.kind = .identifier) (hopening : opening.kind = .lparen)
    (hargs : args ∈ opt (sepBy (sentences (dialect registry) .expression)))
    (hclosing : closing.kind = .rparen) (hmake : registry name.image = some make) :
    Denotes texts registry X inner closed (name :: opening :: (args ++ [closing, semicolon]))
      (.command (.call (make (texts args))))
  | block {closed : Bool} {w : List Token} {body : Block} (h : Braced inner w body) :
    Denotes texts registry X inner closed w (.command (.block body))
  | loop {closed : Bool} {keyword : Token} {u v : List Token} {condition : String} {body : Block}
    (hk : keyword.kind = .kwWhile) (hc : Condition X u condition)
    (hb : Body inner closed v body) :
    Denotes texts registry X inner closed (keyword :: (u ++ v)) (.command (.loop condition body))
  | oneWay {keyword : Token} {u v : List Token} {condition : String} {body : Block}
    (hk : keyword.kind = .kwIf) (hc : Condition X u condition) (hb : Body inner false v body) :
    Denotes texts registry X inner false (keyword :: (u ++ v))
      (.command (.branch condition body []))
  | twoWay {closed : Bool} {keyword other : Token} {u v v' : List Token} {condition : String}
    {thenBody elseBody : Block} (hk : keyword.kind = .kwIf) (hc : Condition X u condition)
    (ht : Body inner true v thenBody) (ho : other.kind = .kwElse)
    (he : Body inner closed v' elseBody) :
    Denotes texts registry X inner closed (keyword :: (u ++ (v ++ other :: v')))
      (.command (.branch condition thenBody elseBody))

/-- What some tokens denote as a statement, with a number of levels of nesting. -/
def Meaning (texts : List Token → String) (registry : Registry) : Nat → Denotation
  | 0 => fun _ _ _ => False
  | levels + 1 =>
    Denotes texts registry (limited (dialect registry) levels) (Meaning texts registry levels)

/-! ## Programs -/

/-- What is assigned behind a name, if anything is. -/
inductive Assigned (X : Forms) : List Token → Option String → Prop
  | none : Assigned X [] none
  | some {sign : Token} {v : List Token} (hs : sign.kind = .assign) (h : v ∈ X .init) :
    Assigned X (sign :: v) (some (joined v))

/-- A parameter: a name, perhaps behind `var`, pairs of brackets, and what is assigned. -/
inductive Parameter (X : Forms) : List Token → Param → Prop
  | intro {front pairs rest : List Token} {name : Token} {dims : Nat} {init : Option String}
    (hf : front ∈ opt (tok .kwVar)) (hn : name.kind = .identifier)
    (hp : pairs ∈ (tok .lbracket * tok .rbracket) ^ dims) (ha : Assigned X rest init) :
    Parameter X (front ++ name :: (pairs ++ rest)) ⟨name.image, dims, init⟩

/-- A parameter behind a comma. -/
def NextParameter (X : Forms) (w : List Token) (p : Param) : Prop :=
  ∃ comma v, w = comma :: v ∧ comma.kind = .comma ∧ Parameter X v p

/-- Parameters between commas. -/
inductive Parameters (X : Forms) : List Token → List Param → Prop
  | intro {u v : List Token} {p : Param} {ps : List Param} (h : Parameter X u p)
    (hrest : Sequence (NextParameter X) v ps) : Parameters X (u ++ v) (p :: ps)

/-- What some tokens denote as a program, with a number of levels of nesting. -/
inductive ProgramMeaning (texts : List Token → String) (registry : Registry) (levels : Nat) :
    List Token → Program → Prop
  | intro {func name opening closing ending : Token} {u v : List Token} {params : List Param}
    {body : Block} (hf : func.kind = .kwFunc) (hn : name.kind = .identifier)
    (ho : opening.kind = .lparen)
    (hp : u = [] ∧ params = [] ∨ Parameters (limited (dialect registry) levels) u params)
    (hc : closing.kind = .rparen) (hb : Braced (Meaning texts registry levels) v body)
    (he : ending.kind = .endOfInput) :
    ProgramMeaning texts registry levels
      (func :: name :: opening :: (u ++ closing :: (v ++ [ending]))) ⟨name.image, params, body⟩

/-- The source text of some tokens, from the start of the first to the end of the last. -/
def sourceText (source : String) (w : List Token) : String :=
  match w.head?, w.getLast? with
  | some first, some last => String.ofList (slice source.toList first.start last.stop)
  | _, _ => ""

/-! ## Every word denotes something -/

section Total

variable {texts : List Token → String} {registry : Registry} {X : Forms} {inner : Denotation}
  {levels : Nat} {w : List Token}

theorem mem_wholeCall {d : Dialect} : w ∈ wholeCall d ↔
    ∃ name opening args closing semicolon, w = name :: opening :: (args ++ [closing, semicolon]) ∧
      name.kind = .identifier ∧ opening.kind = .lparen ∧
      args ∈ opt (sepBy (sentences d .expression)) ∧ closing.kind = .rparen ∧
      semicolon.kind = .semicolon := by
  constructor
  · intro hw
    obtain ⟨name, w₁, rfl, hname, hw₁⟩ := mem_tok_mul.1 hw
    obtain ⟨opening, w₂, rfl, hopening, hw₂⟩ := mem_tok_mul.1 hw₁
    obtain ⟨args, hargs, w₃, hw₃, rfl⟩ := hw₂
    obtain ⟨closing, w₄, rfl, hclosing, hw₄⟩ := mem_tok_mul.1 hw₃
    obtain ⟨semicolon, rfl, hsemicolon⟩ := mem_tok.1 hw₄
    exact ⟨name, opening, args, closing, semicolon, rfl, hname, hopening, hargs, hclosing,
      hsemicolon⟩
  · rintro ⟨name, opening, args, closing, semicolon, rfl, hname, hopening, hargs, hclosing, hs⟩
    refine mem_tok_mul.2 ⟨name, _, rfl, hname, mem_tok_mul.2 ⟨opening, _, rfl, hopening, ?_⟩⟩
    refine Language.append_mem_mul hargs (mem_tok_mul.2 ⟨closing, _, rfl, hclosing, ?_⟩)
    exact mem_tok.2 ⟨semicolon, rfl, hs⟩

theorem call_mem_evaluation {name opening closing semicolon : Token} {args : List Token}
    {X : Forms} : name :: opening :: (args ++ [closing, semicolon]) ∈ evaluation X ↔
      name :: opening :: (args ++ [closing]) ∈ X .expression ∧ semicolon.kind = .semicolon := by
  have hsplit : name :: opening :: (args ++ [closing, semicolon]) =
      (name :: opening :: (args ++ [closing])) ++ [semicolon] := by simp
  rw [hsplit, evaluation, concat_mem_mul_oneOf, List.mem_singleton]

/-- Plain statements end in a semicolon. -/
theorem exists_concat_of_plain {d : Dialect} {X : Forms} (hw : w ∈ plainStatement d X) :
    ∃ u t, w = u ++ [t] ∧ t.kind = .semicolon := by
  have hlast : ∀ {L : Language Token}, w ∈ L * tok .semicolon →
      ∃ u t, w = u ++ [t] ∧ t.kind = .semicolon := fun ⟨u, _, _, h, he⟩ => by
    obtain ⟨t, rfl, ht⟩ := mem_tok.1 h
    exact ⟨u, t, he.symm, ht⟩
  obtain ((hw | hw) | hw) | hw := hw
  · rw [declaration, ← mul_assoc] at hw
    exact hlast hw
  · rw [result, ← mul_assoc] at hw
    exact hlast hw
  · exact hlast hw
  · exact hlast hw.1

/-! ### Texts -/

theorem spanText_eq (w : List Token) : spanText w = joined w := rfl

/-- The semicolon of a plain statement stands right behind what it ends. -/
theorem statementText_eq {d : Dialect} {X : Forms} (hw : w ∈ plainStatement d X) :
    statementText w = joined w.dropLast ++ ";" := by
  obtain ⟨u, t, rfl, ht⟩ := exists_concat_of_plain hw
  rw [statementText, List.getLast?_concat]
  exact if_pos ht

theorem denotes_plain {closed : Bool} (hw : w ∈ plainStatement (dialect registry) X) :
    Denotes texts registry X inner closed w (.plain (statementText w)) := by
  rw [statementText_eq hw]
  exact .plain hw

/-! ### Parts of statements -/

theorem exists_sequence {α : Type} {R : List Token → α → Prop} {L : Language Token}
    (h : ∀ u ∈ L, ∃ a, R u a) (hw : w ∈ L∗) : ∃ as, Sequence R w as := by
  obtain ⟨ws, rfl, hws⟩ := Language.mem_kstar.1 hw
  clear hw
  induction ws with
  | nil => exact ⟨[], .nil⟩
  | cons u ws ih =>
    obtain ⟨a, ha⟩ := h u (hws u List.mem_cons_self)
    obtain ⟨as, has⟩ := ih fun v hv => hws v (List.mem_cons_of_mem _ hv)
    exact ⟨a :: as, .cons ha has⟩

theorem exists_braced (h : ∀ u ∈ X .statement, ∃ item, inner false u item) (hw : w ∈ block X) :
    ∃ body, Braced inner w body := by
  obtain ⟨l, w, rfl, hl, hw⟩ := mem_tok_mul.1 hw
  obtain ⟨v, hv, _, hlast, rfl⟩ := hw
  obtain ⟨r, rfl, hr⟩ := mem_tok.1 hlast
  obtain ⟨items, hitems⟩ := exists_sequence h hv
  exact ⟨_, .intro hl hitems hr⟩

theorem exists_condition (hw : w ∈ condition X) : ∃ text, Condition X w text := by
  obtain ⟨l, w, rfl, hl, hw⟩ := mem_tok_mul.1 hw
  obtain ⟨v, hv, _, hlast, rfl⟩ := hw
  obtain ⟨r, rfl, hr⟩ := mem_tok.1 hlast
  exact ⟨_, .intro hl hv hr⟩

/-- The form of a statement that an `else` may be behind, or may not. -/
def formOf : Bool → Form
  | true => .closed
  | false => .statement

/-- The statements inside denote something. -/
structure Total (d : Dialect) (X : Forms) (inner : Denotation) : Prop where
  regular : Regular d X
  le : X ≤ sentences d
  exists_item : ∀ closed, ∀ u ∈ X (formOf closed), ∃ item, inner closed u item

variable (h : Total (dialect registry) X inner)

include h

theorem Total.exists_body {closed : Bool} (hw : w ∈ block X + X (formOf closed)) :
    ∃ body, Body inner closed w body := by
  have hblock : w ∈ block X → ∃ body, Body inner closed w body := fun hw => by
    obtain ⟨body, hb⟩ := exists_braced (h.exists_item false) hw
    exact ⟨body, .braced hb⟩
  obtain hw | hw := hw
  · exact hblock hw
  have hstatement : w ∈ X .statement := by
    cases closed
    · exact hw
    · exact h.regular.closed_le hw
  obtain ⟨t, v, rfl, -⟩ := h.regular.statement w hstatement
  by_cases ht : t.kind = .lbrace
  · exact hblock (h.regular.braces t v ht hstatement)
  · obtain ⟨item, hitem⟩ := h.exists_item closed _ hw
    exact ⟨_, .single ht hitem⟩

theorem Total.exists_simple {closed : Bool} (hw : w ∈ simple X) :
    ∃ item, Denotes texts registry X inner closed w item := by
  obtain ((((hw | hw) | hw) | hw) | hw) | hw := hw
  · obtain ⟨body, hb⟩ := exists_braced (h.exists_item false) hw
    exact ⟨_, .block hb⟩
  · obtain ⟨t, rfl, ht⟩ := mem_tok.1 hw
    exact ⟨_, .empty ht⟩
  · exact ⟨_, .plain (.inl (.inl (.inl hw)))⟩
  · exact ⟨_, .plain (.inl (.inl (.inr hw)))⟩
  · exact ⟨_, .plain (.inl (.inr hw))⟩
  by_cases hcall : w ∈ wholeCall (dialect registry)
  · obtain ⟨name, opening, args, closing, semicolon, rfl, hname, hopening, hargs, hclosing, -⟩ :=
      mem_wholeCall.1 hcall
    have hknown : (dialect registry).known name := by
      obtain ⟨hexp, -⟩ := call_mem_evaluation.1 hw
      exact known_of_expression (h.le .expression hexp) hname hopening
    obtain ⟨make, hmake⟩ := Option.isSome_iff_exists.1 hknown
    exact ⟨_, .call hw hname hopening hargs hclosing hmake⟩
  · exact ⟨_, .plain (.inr ⟨hw, hcall⟩)⟩

theorem Total.exists_item_rules (closed : Bool) :
    ∀ u ∈ rules (dialect registry) X (formOf closed),
      ∃ item, Denotes texts registry X inner closed u item := by
  have hloop : ∀ closed, ∀ u ∈ ruled X .kwWhile (block X + X (formOf closed)),
      ∃ item, Denotes texts registry X inner closed u item := fun closed u hu => by
    obtain ⟨keyword, w, rfl, hk, hw⟩ := mem_tok_mul.1 hu
    obtain ⟨u, huc, v, hv, rfl⟩ := hw
    obtain ⟨condition, hc⟩ := exists_condition huc
    obtain ⟨body, hb⟩ := h.exists_body hv
    exact ⟨_, .loop hk hc hb⟩
  have htwoWay : ∀ closed, ∀ u ∈ twoWay X (block X + X (formOf closed)),
      ∃ item, Denotes texts registry X inner closed u item := fun closed u hu => by
    obtain ⟨keyword, w, rfl, hk, hw⟩ := mem_tok_mul.1 hu
    obtain ⟨u, huc, w₁, hw₁, rfl⟩ := hw
    obtain ⟨v, hv, w₂, hw₂, rfl⟩ := hw₁
    obtain ⟨other, v', rfl, ho, hv'⟩ := mem_tok_mul.1 hw₂
    obtain ⟨condition, hc⟩ := exists_condition huc
    obtain ⟨thenBody, ht⟩ : ∃ body, Body inner true v body := h.exists_body hv
    obtain ⟨elseBody, he⟩ := h.exists_body hv'
    exact ⟨_, .twoWay hk hc ht ho he⟩
  cases closed
  · rintro u (((hu | hu) | hu) | hu)
    · exact h.exists_simple hu
    · exact hloop false u hu
    · obtain ⟨keyword, w, rfl, hk, hw⟩ := mem_tok_mul.1 hu
      obtain ⟨u, huc, v, hv, rfl⟩ := hw
      obtain ⟨condition, hc⟩ := exists_condition huc
      obtain ⟨body, hb⟩ : ∃ body, Body inner false v body := h.exists_body hv
      exact ⟨_, .oneWay hk hc hb⟩
    · exact htwoWay false u hu
  · rintro u ((hu | hu) | hu)
    · exact h.exists_simple hu
    · exact hloop true u hu
    · exact htwoWay true u hu

omit h

/-- At each depth, every statement of the grammar denotes something. -/
theorem total_meaning (texts : List Token → String) (registry : Registry) : ∀ levels,
    Total (dialect registry) (limited (dialect registry) levels) (Meaning texts registry levels)
  | 0 =>
    { regular := regular_bot
      le := bot_le
      exists_item := fun closed u hu => by
        cases closed <;> exact absurd hu (Language.notMem_zero u) }
  | levels + 1 =>
    { regular := regular_limited (levels + 1)
      le := limited_le_sentences (levels + 1)
      exists_item := (total_meaning texts registry levels).exists_item_rules }

/-! ## Every program denotes something -/

theorem exists_assigned (hw : w ∈ opt (tok .assign * X .init)) : ∃ init, Assigned X w init := by
  obtain hw | hw := hw
  · obtain rfl := (Language.mem_one w).1 hw
    exact ⟨_, .none⟩
  · obtain ⟨sign, v, rfl, hs, hv⟩ := mem_tok_mul.1 hw
    exact ⟨_, .some hs hv⟩

theorem exists_parameter (hw : w ∈ parameter X) : ∃ p, Parameter X w p := by
  obtain ⟨front, hf, w₁, hw₁, rfl⟩ := hw
  obtain ⟨name, w₂, rfl, hn, hw₂⟩ := mem_tok_mul.1 hw₁
  obtain ⟨pairs, hp, rest, hrest, rfl⟩ := hw₂
  obtain ⟨init, ha⟩ := exists_assigned hrest
  obtain ⟨dims, hdims⟩ := Language.mem_iSup.1 ((Language.kstar_eq_iSup_pow _).le hp)
  exact ⟨_, .intro hf hn hdims ha⟩

theorem exists_parameters (hw : w ∈ sepBy (parameter X)) : ∃ ps, Parameters X w ps := by
  obtain ⟨u, hu, v, hv, rfl⟩ := hw
  obtain ⟨p, hp⟩ := exists_parameter hu
  have hnext : ∀ u ∈ tok .comma * parameter X, ∃ p, NextParameter X u p := fun u hu => by
    obtain ⟨comma, w, rfl, hc, hw⟩ := mem_tok_mul.1 hu
    obtain ⟨p, hp⟩ := exists_parameter hw
    exact ⟨p, comma, w, rfl, hc, hp⟩
  obtain ⟨ps, hps⟩ := exists_sequence hnext hv
  exact ⟨p :: ps, .intro hp hps⟩

/-- Every program of the grammar denotes something. -/
theorem exists_programMeaning {levels : Nat} (texts : List Token → String)
    (hw : w ∈ program (limited (dialect registry) levels)) :
    ∃ p, ProgramMeaning texts registry levels w p := by
  obtain ⟨func, w₁, rfl, hf, hw₁⟩ := mem_tok_mul.1 hw
  obtain ⟨name, w₂, rfl, hn, hw₂⟩ := mem_tok_mul.1 hw₁
  obtain ⟨opening, w₃, rfl, ho, hw₃⟩ := mem_tok_mul.1 hw₂
  obtain ⟨u, hu, w₄, hw₄, rfl⟩ := hw₃
  obtain ⟨closing, w₅, rfl, hc, hw₅⟩ := mem_tok_mul.1 hw₄
  obtain ⟨v, hv, _, hlast, rfl⟩ := hw₅
  obtain ⟨ending, rfl, he⟩ := mem_tok.1 hlast
  obtain ⟨body, hb⟩ := exists_braced ((total_meaning texts registry levels).exists_item false) hv
  obtain ⟨params, hp⟩ : ∃ params, u = [] ∧ params = [] ∨
      Parameters (limited (dialect registry) levels) u params := by
    obtain hu | hu := hu
    · exact ⟨[], .inl ⟨(Language.mem_one u).1 hu, rfl⟩⟩
    · obtain ⟨ps, hps⟩ := exists_parameters hu
      exact ⟨ps, .inr hps⟩
  exact ⟨_, .intro hf hn ho hp hc hb he⟩

end Total

end Botscript
