import Botscript.Program.Printer
import Botscript.Proofs.Grammar.Blind
import Botscript.Proofs.Meaning.Denotes
import Botscript.Proofs.Print.Ahead

/-!
# Well-formed trees

A tree is well-formed if all its texts are put together from tokens as a parse puts them together
(`Program.Wellformed`). `Program.tokens` are the tokens that it is written with, and `skeleton`
leaves out those that a tree does not tell: braces, semicolons, `else` and `var`.
-/

namespace Botscript

open Computability Token Parse Grammar

/-! ## Tokens of trees -/

/-- Tokens in braces. -/
def embraced (w : List Token) : List Token := ofKind .lbrace :: (w ++ [ofKind .rbrace])

/-- Tokens in parentheses. -/
def parenthesized (w : List Token) : List Token := ofKind .lparen :: (w ++ [ofKind .rparen])

/-- A name as a token without a place. -/
def word (name : String) : Token := ⟨.identifier, name, .origin, 0⟩

theorem bare_word {name : Token} (h : name.kind = .identifier) :
    (word name.image).bare = name.bare := by
  unfold word bare
  rw [h]

theorem genuine_word {name : Token} (h : name.kind = .identifier) (hname : name.Genuine) :
    (word name.image).Genuine := by
  rwa [Genuine, bare_word h]

/-- The tokens of a call as a statement. -/
def callTokens (name : String) (args : List Token) : List Token :=
  word name :: ofKind .lparen :: (args ++ [ofKind .rparen, ofKind .semicolon])

mutual

/-- The tokens that a command is written with. -/
def Command.tokens : Command → List Token
  | .procedure text => lexemes text.toList
  | .call c => callTokens c.name (lexemes c.args.toList)
  | .block body => embraced (Block.tokens body)
  | .branch condition thenBody elseBody =>
    ofKind .kwIf :: (parenthesized (lexemes condition.toList) ++
      (embraced (Block.tokens thenBody) ++
        if elseBody.isEmpty then [] else ofKind .kwElse :: embraced (Block.tokens elseBody)))
  | .loop condition body =>
    ofKind .kwWhile :: (parenthesized (lexemes condition.toList) ++ embraced (Block.tokens body))

/-- The tokens that the commands of a block are written with. -/
def Block.tokens : List Command → List Token
  | [] => []
  | c :: rest => c.tokens ++ Block.tokens rest

end

theorem Block.tokens_append (front back : Block) :
    Block.tokens (front ++ back) = Block.tokens front ++ Block.tokens back := by
  induction front with
  | nil => rfl
  | cons c rest ih => rw [List.cons_append, Block.tokens, ih, Block.tokens, List.append_assoc]

theorem map_bare_call {name opening closing semicolon : Token} {args : List Token}
    (hname : name.kind = .identifier) (hopening : opening.bare = ofKind .lparen)
    (hclosing : closing.bare = ofKind .rparen) (hsemicolon : semicolon.bare = ofKind .semicolon) :
    (name :: opening :: (args ++ [closing, semicolon])).map bare =
      (callTokens name.image (args.map bare)).map bare := by
  simp only [callTokens, List.map_cons, List.map_append, List.map_nil, map_bare_map_bare,
    bare_word hname, hopening, hclosing, hsemicolon]
  rfl

/-- The tokens of pairs of brackets. -/
def dimensionTokens : Nat → List Token
  | 0 => []
  | dims + 1 => ofKind .lbracket :: ofKind .rbracket :: dimensionTokens dims

/-- The tokens of what is assigned, if anything is. -/
def initTokens : Option String → List Token
  | none => []
  | some text => ofKind .assign :: lexemes text.toList

/-- The tokens that a parameter is written with. -/
def Param.tokens (p : Param) : List Token :=
  ofKind .kwVar :: word p.name :: (dimensionTokens p.dims ++ initTokens p.init)

/-- The tokens that parameters behind another are written with. -/
def moreTokens : List Param → List Token
  | [] => []
  | p :: rest => ofKind .comma :: (p.tokens ++ moreTokens rest)

/-- The tokens that parameters are written with. -/
def paramTokens : List Param → List Token
  | [] => []
  | p :: rest => p.tokens ++ moreTokens rest

/-- The tokens that a program is written with, but for the end of input. -/
def Program.tokens (p : Program) : List Token :=
  ofKind .kwFunc :: word p.name :: ofKind .lparen ::
    (paramTokens p.params ++ ofKind .rparen :: embraced (Block.tokens p.body))

/-- The kinds of the tokens that a tree does not tell. -/
def untold : List Kind := [.lbrace, .rbrace, .semicolon, .kwElse, .kwVar]

/-- The kinds and images of the tokens that a tree tells. -/
def skeleton (w : List Token) : List (Kind × String) :=
  (w.filter fun t => t.kind ∉ untold).map fun t => (t.kind, t.image)

section Skeleton

variable {t : Token} {u v w : List Token}

@[simp] theorem skeleton_append (u v : List Token) :
    skeleton (u ++ v) = skeleton u ++ skeleton v := by
  rw [skeleton, List.filter_append, List.map_append]
  rfl

theorem skeleton_cons (t : Token) (w : List Token) : skeleton (t :: w) =
    skeleton [t] ++ skeleton w := skeleton_append [t] w

theorem skeleton_singleton_of_mem (ht : t.kind ∈ untold) : skeleton [t] = [] := by
  rw [skeleton, List.filter_cons_of_neg (by simpa using ht)]
  rfl

@[simp] theorem skeleton_map_bare (w : List Token) : skeleton (w.map bare) = skeleton w := by
  rw [skeleton, List.filter_map, List.map_map]
  rfl

theorem skeleton_of_bare (h : u.map bare = v.map bare) : skeleton u = skeleton v := by
  rw [← skeleton_map_bare u, h, skeleton_map_bare]

theorem skeleton_embraced {l r : Token} (hl : l.kind = .lbrace) (hr : r.kind = .rbrace) :
    skeleton (l :: (w ++ [r])) = skeleton w := by
  rw [skeleton_cons, skeleton_append, skeleton_singleton_of_mem (hl ▸ by decide),
    skeleton_singleton_of_mem (hr ▸ by decide), List.nil_append, List.append_nil]

end Skeleton

/-! ## Well-formed trees -/

/-- The words of a language whose tokens are spelled by their images. -/
def printable (L : Language Token) : Language Token := {w | w ∈ L ∧ ∀ t ∈ w, t.Genuine}

/-- Some commands, of which no two neighbours are procedures. -/
structure Block.Formed (good : Command → Prop) (body : Block) : Prop where
  all : ∀ c ∈ body, good c
  apart : body.IsChain fun c c' => c.Active ∨ c'.Active

/-- What a well-formed command is, where the commands inside are good. -/
inductive Command.Formed (registry : Registry) (X : Forms) (good : Command → Prop) : Command → Prop
  | procedure {ws : List (List Token)} (hne : ws ≠ [])
    (h : ∀ w ∈ ws, w ∈ printable (plainStatement (dialect registry) X)) :
    Formed registry X good (.procedure (" ".intercalate (ws.map statementText)))
  | call {name args : String} {w : List Token} (hname : (word name).Genuine)
    (hmake : registry name = some (.plain name)) (htight : Tight args.toList)
    (hspells : Spells Delimited args.toList w)
    (hargs : w ∈ opt (sepBy (sentences (dialect registry) .expression)))
    (hw : callTokens name w ∈ evaluation X) : Formed registry X good (.call ⟨name, args⟩)
  | block {body : Block} (h : Block.Formed good body) : Formed registry X good (.block body)
  | branch {v : List Token} {thenBody elseBody : Block} (hv : v ∈ printable (X .expression))
    (ht : Block.Formed good thenBody) (he : Block.Formed good elseBody) :
    Formed registry X good (.branch (spanText v) thenBody elseBody)
  | loop {v : List Token} {body : Block} (hv : v ∈ printable (X .expression))
    (h : Block.Formed good body) : Formed registry X good (.loop (spanText v) body)

/-- A command with a number of levels of nesting whose texts are put together from tokens as a parse
puts them together. -/
def Command.Wellformed (registry : Registry) : Nat → Command → Prop
  | 0 => fun _ => False
  | levels + 1 =>
    Command.Formed registry (limited (dialect registry) levels) (Command.Wellformed registry levels)

/-- A parameter with a name and the text of an initial value, if it has one. -/
inductive Param.Wellformed (X : Forms) : Param → Prop
  | plain {name : String} (dims : Nat) (hname : (word name).Genuine) :
    Wellformed X ⟨name, dims, none⟩
  | assigned {name : String} {v : List Token} (dims : Nat) (hname : (word name).Genuine)
    (hv : v ∈ printable (X .init)) : Wellformed X ⟨name, dims, some (spanText v)⟩

/-- A program whose texts are put together from tokens as a parse puts them together. -/
structure Program.Wellformed (registry : Registry) (levels : Nat) (p : Program) : Prop where
  name : (word p.name).Genuine
  params : ∀ q ∈ p.params, q.Wellformed (limited (dialect registry) levels)
  body : Block.Formed (Command.Wellformed registry levels) p.body

/-! ## Texts of procedures -/

section Statements

variable {d : Dialect} {X : Forms} {w : List Token} {ws : List (List Token)}

/-- The text of a plain statement spells its tokens. -/
theorem spells_statement (h : w ∈ printable (plainStatement d X)) :
    Spells Anything (statementText w).toList (w.map bare) := by
  obtain ⟨hw, hgenuine⟩ := h
  obtain ⟨u, t, rfl, ht⟩ := exists_concat_of_plain hw
  have hlast : t.bare = ofKind .semicolon := (hgenuine t (by simp)).bare_eq ht (by decide)
  rw [List.map_append, List.map_singleton, hlast]
  exact spells_statementText (fun t ht => hgenuine t (List.mem_append_left _ ht)) ht

/-- The text of some plain statements spells their tokens. -/
theorem spells_statements (h : ∀ w ∈ ws, w ∈ printable (plainStatement d X)) :
    Spells Anything (" ".intercalate (ws.map statementText)).toList (ws.flatten.map bare) := by
  induction ws with
  | nil => exact .nil
  | cons w rest ih =>
    have hw := spells_statement (h w List.mem_cons_self)
    have hrest := ih fun u hu => h u (List.mem_cons_of_mem _ hu)
    cases rest with
    | nil => simpa using hw
    | cons u rest =>
      have htext : (" ".intercalate ((w :: u :: rest).map statementText)).toList =
          (statementText w).toList ++
            ([' '] ++ (" ".intercalate ((u :: rest).map statementText)).toList) := by
        simp [String.intercalate_cons_cons]
      rw [htext, List.flatten_cons, List.map_append]
      exact hw.append_anything (Spells.space.append_anything hrest)

/-- The tokens of a procedure are those of its statements. -/
theorem tokens_procedureOf (h : ∀ w ∈ ws, w ∈ printable (plainStatement d X)) :
    Block.tokens (procedureOf (ws.map statementText)) = ws.flatten.map bare := by
  cases ws with
  | nil => rfl
  | cons w rest =>
    have hlexemes := (spells_statements h).lexemes
    simp only [List.map_cons, procedureOf, Block.tokens, Command.tokens, List.append_nil]
    exact hlexemes

end Statements

end Botscript
