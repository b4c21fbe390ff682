import Mathlib.Order.FixedPoints
import Botscript.Proofs.Grammar.Words

/-!
# The grammar

The productions of the language, as equations between languages of tokens, with its operators and
literals written out: nothing here is taken from a parser. The productions are open: what may stand
inside itself, a `Form`, is taken from a family `Forms`. `sentences` closes them without a limit, by
the least solution of the equations, and `limited` with a number of levels of nesting. A `Dialect`
says which functions may be called, and whether an `else` must belong to the nearest `if` that can
have it.
-/

namespace Botscript.Grammar

open Computability Token

/-- What may stand inside itself. A `closed` statement cannot have an `else` behind it. -/
inductive Form where
  | statement
  | closed
  | expression
  | init
  | operand
deriving DecidableEq

/-- A language for each form. -/
abbrev Forms := Form → Language Token

/-- What a grammar demands beside its productions. -/
structure Dialect where
  /-- The names of functions that may be called. -/
  known : Token → Prop
  /-- Whether each `else` must belong to the nearest `if` that can have it. -/
  nearestElse : Bool

/-- Words that do not start with the call of a function that may not be called. -/
def Dialect.calls (d : Dialect) : Language Token :=
  {w | ∀ name opening v, w = name :: opening :: v →
    name.kind = .identifier → opening.kind = .lparen → d.known name}

/-! ## Operators -/

/-- The kinds of literals. -/
def literalKinds : List Kind := [.integer, .float, .string]

/-- The operators before an operand: `+`, `-`, `++`, `--`, `!` and `~`. -/
def prefixOperators : List Kind := [.plus, .minus, .incr, .decr, .bang, .tilde]

/-- The operators behind an operand: `++` and `--`. -/
def postfixOperators : List Kind := [.incr, .decr]

/-- The operators between operands in ten levels, the loosest first. -/
def operatorLevels : List (List Kind) :=
  [[.orOr],
   [.andAnd],
   [.bitOr],
   [.caret],
   [.bitAnd],
   [.eq, .ne],
   [.lt, .gt, .le, .ge],
   [.shl, .shr, .ushr],
   [.plus, .minus],
   [.star, .slash, .percent]]

variable (d : Dialect) (inner : Forms)

/-! ## Expressions -/

/-- An index in brackets. -/
def indexing : Language Token := tok .lbracket * (inner .expression * tok .rbracket)

/-- The name of a member. -/
def member : Language Token := tok .dot * tok .identifier

/-- Arguments in parentheses. -/
def arguments : Language Token := tok .lparen * (opt (sepBy (inner .expression)) * tok .rparen)

/-- What may stand behind a primary and goes on with it. -/
def suffix : Language Token := indexing inner + member + arguments inner

/-- A literal, a name or an expression in parentheses. -/
def atom : Language Token :=
  oneOf literalKinds + tok .identifier + tok .lparen * (inner .expression * tok .rparen)

/-- An atom and its suffixes. -/
def primary : Language Token := (atom inner * (suffix inner)∗) ⊓ d.calls

/-- An operand with operators before or behind it. -/
def unary : Language Token :=
  oneOf prefixOperators * inner .operand + primary d inner * opt (oneOf postfixOperators)

/-- Operands and operators of the given levels. -/
def binary : List (List Kind) → Language Token
  | [] => unary d inner
  | operators :: tighter => binary tighter * (oneOf operators * binary tighter)∗

/-- An assignment, or operands and operators. -/
def expression : Language Token :=
  primary d inner * (tok .assign * inner .init) + binary d inner operatorLevels

/-- Initial values between commas, perhaps with a comma behind the last. -/
def inits : Language Token := sepBy (inner .init) * opt (tok .comma)

/-- What is assigned: initial values in brackets, or an expression. -/
def init : Language Token :=
  tok .lbracket * (opt (inits inner) * tok .rbracket) + inner .expression

/-! ## Statements -/

/-- A name, pairs of brackets, and what is assigned, if anything is. -/
def declarator : Language Token :=
  tok .identifier * ((tok .lbracket * tok .rbracket)∗ * opt (tok .assign * inner .init))

/-- A declarator, perhaps behind `var`. -/
def parameter : Language Token := opt (tok .kwVar) * declarator inner

/-- Statements in braces. -/
def block : Language Token := tok .lbrace * ((inner .statement)∗ * tok .rbrace)

/-- What `if`, `else` and `while` rule over. Braces there are no statement of their own. -/
def body : Language Token := block inner + inner .statement

/-- A body that cannot have an `else` behind it. -/
def closedBody : Language Token := block inner + inner .closed

/-- An expression in parentheses. -/
def condition : Language Token := tok .lparen * (inner .expression * tok .rparen)

/-- `if` or `while` with its condition and a body. -/
def ruled (keyword : Kind) (body : Language Token) : Language Token :=
  tok keyword * (condition inner * body)

/-- `if` with two bodies, of which the first has no `if` that the `else` could belong to. -/
def twoWay (body : Language Token) : Language Token :=
  ruled inner .kwIf (closedBody inner * (tok .kwElse * body))

/-- Declarators between commas behind `var`. -/
def declaration : Language Token := tok .kwVar * (sepBy (declarator inner) * tok .semicolon)

/-- `return`, perhaps with an expression. -/
def result : Language Token := tok .kwReturn * (opt (inner .expression) * tok .semicolon)

/-- `break` or `continue`. -/
def jump : Language Token := oneOf [.kwBreak, .kwContinue] * tok .semicolon

/-- An expression as a statement. -/
def evaluation : Language Token := inner .expression * tok .semicolon

/-- The statements without a body. -/
def simple : Language Token :=
  block inner + tok .semicolon + declaration inner + result inner + jump + evaluation inner

/-- Any statement. -/
def statement : Language Token :=
  simple inner + ruled inner .kwWhile (body inner) + ruled inner .kwIf (body inner)
    + twoWay inner (body inner)

/-- A statement that cannot have an `else` behind it; any statement, if it does not matter which
`if` an `else` belongs to. -/
def closed : Language Token :=
  if d.nearestElse then
    simple inner + ruled inner .kwWhile (closedBody inner) + twoWay inner (closedBody inner)
  else statement inner

/-! ## Programs -/

/-- The forms one level further out. -/
def rules : Forms
  | .statement => statement inner
  | .closed => closed d inner
  | .expression => expression d inner
  | .init => init inner
  | .operand => unary d inner

/-- A program: `func`, a name, parameters and a block. -/
def program : Language Token :=
  tok .kwFunc * (tok .identifier * (tok .lparen * (opt (sepBy (parameter inner)) *
    (tok .rparen * (block inner * tok .endOfInput)))))

/-! ## Nesting -/

section Monotone

variable {d} {X Y : Forms} (h : X ≤ Y)

include h

theorem suffix_mono : suffix X ≤ suffix Y := by
  have he := h .expression
  unfold suffix indexing arguments
  gcongr

theorem primary_mono : primary d X ≤ primary d Y := by
  have he := h .expression
  have hs := suffix_mono h
  unfold primary atom
  gcongr

theorem unary_mono : unary d X ≤ unary d Y := by
  have ho := h .operand
  have hp := primary_mono (d := d) h
  unfold unary
  gcongr

theorem binary_mono : ∀ levels, binary d X levels ≤ binary d Y levels
  | [] => unary_mono h
  | operators :: tighter => by
    have ht := binary_mono tighter
    unfold binary
    gcongr

theorem expression_mono : expression d X ≤ expression d Y := by
  have hi := h .init
  have hp := primary_mono (d := d) h
  have hb := binary_mono (d := d) h operatorLevels
  unfold expression
  gcongr

theorem init_mono : init X ≤ init Y := by
  have hi := h .init
  have he := h .expression
  unfold init inits
  gcongr

theorem declarator_mono : declarator X ≤ declarator Y := by
  have hi := h .init
  unfold declarator
  gcongr

theorem block_mono : block X ≤ block Y := by
  have hs := h .statement
  unfold block
  gcongr

theorem ruled_mono (k : Kind) {L M : Language Token} (hLM : L ≤ M) :
    ruled X k L ≤ ruled Y k M := by
  have he := h .expression
  unfold ruled condition
  gcongr

theorem body_mono : body X ≤ body Y := add_le_add (block_mono h) (h .statement)

theorem closedBody_mono : closedBody X ≤ closedBody Y := add_le_add (block_mono h) (h .closed)

theorem twoWay_mono {L M : Language Token} (hLM : L ≤ M) : twoWay X L ≤ twoWay Y M := by
  refine ruled_mono h _ ?_
  have hc := closedBody_mono h
  gcongr

theorem simple_mono : simple X ≤ simple Y := by
  have he := h .expression
  have hb := block_mono h
  have hd := declarator_mono h
  unfold simple declaration result evaluation
  gcongr

theorem statement_mono : statement X ≤ statement Y := by
  have hs := simple_mono h
  have hw := ruled_mono h .kwWhile (body_mono h)
  have hi := ruled_mono h .kwIf (body_mono h)
  have ht := twoWay_mono h (body_mono h)
  unfold statement
  gcongr

theorem closed_mono : closed d X ≤ closed d Y := by
  have hs := simple_mono h
  have hw := ruled_mono h .kwWhile (closedBody_mono h)
  have ht := twoWay_mono h (closedBody_mono h)
  unfold closed
  split_ifs
  · gcongr
  · exact statement_mono h

theorem program_mono : program X ≤ program Y := by
  have hd := declarator_mono h
  have hb := block_mono h
  unfold program parameter
  gcongr

theorem rules_le : rules d X ≤ rules d Y
  | .statement => statement_mono h
  | .closed => closed_mono h
  | .expression => expression_mono h
  | .init => init_mono h
  | .operand => unary_mono h

end Monotone

/-- The forms with a number of levels of nesting. -/
def limited : Nat → Forms
  | 0 => ⊥
  | levels + 1 => rules d (limited levels)

/-- The forms without a limit on nesting. -/
def sentences : Forms := OrderHom.lfp ⟨rules d, fun _ _ h => rules_le h⟩

theorem rules_sentences : rules d (sentences d) = sentences d :=
  OrderHom.map_lfp ⟨rules d, fun _ _ h => rules_le h⟩

variable {d} in
theorem sentences_le {X : Forms} (h : rules d X ≤ X) : sentences d ≤ X :=
  OrderHom.lfp_le ⟨rules d, fun _ _ h => rules_le h⟩ h

/-- Languages of which one is cut down to the words of another. -/
def narrowed (X : Forms) (f : Form) (L : Language Token) : Forms := Function.update X f (X f ⊓ L)

theorem narrowed_le {X : Forms} {f : Form} {L : Language Token} : narrowed X f L ≤ X :=
  update_le_self_iff.2 inf_le_left

theorem narrowed_self {X : Forms} {f : Form} {L : Language Token} :
    narrowed X f L f = X f ⊓ L :=
  Function.update_self ..

theorem narrowed_of_ne {X : Forms} {f g : Form} {L : Language Token} (h : g ≠ f) :
    narrowed X f L g = X g :=
  Function.update_of_ne h ..

variable {d} in
/-- Induction over the sentences of one form: those inside may be taken to be words of `L`. -/
theorem sentences_form_le {f : Form} {L : Language Token}
    (h : rules d (narrowed (sentences d) f L) f ≤ L) : sentences d f ≤ L := by
  have hrules : rules d (narrowed (sentences d) f L) ≤ sentences d :=
    (rules_le narrowed_le).trans (rules_sentences d).le
  have hle : sentences d ≤ narrowed (sentences d) f L :=
    sentences_le (le_update_iff.2 ⟨le_inf (hrules f) h, fun g _ => hrules g⟩)
  calc sentences d f ≤ sentences d f ⊓ L := (hle f).trans narrowed_self.le
    _ ≤ L := inf_le_right

end Botscript.Grammar
