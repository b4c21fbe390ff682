/-!
# Command lines

`Arguments.read?` sorts the words of a command line into operands and options. Options may stand
anywhere up to a word `--`; an option with a value takes it from the same word or from the next. A
word with a dash in front that is no option is refused.
-/

namespace Botscript.Cli

/-- An option of a command. -/
structure Flag where
  /-- The name behind two dashes. -/
  long : String
  /-- The letter behind one dash. -/
  short : Option Char
  takesValue : Bool
  repeatable : Bool
deriving DecidableEq, Repr

/-- Words of a command line, sorted. A use of an option without a value has an empty one. -/
structure Arguments where
  operands : List String
  uses : List (Flag × String)
deriving DecidableEq, Repr

namespace Arguments

/-- What a word is where options may stand. -/
inductive Word where
  | operand
  | endOfOptions
  /-- An option with the value that stands in the same word. -/
  | option (flag : Flag) (value : Option String)
  | unknown
deriving DecidableEq, Repr

/-- The parts of a name around its first equals sign. -/
def splitValue (text : List Char) : List Char × Option String :=
  match text.dropWhile (· ≠ '=') with
  | [] => (text, none)
  | _ :: value => (text.takeWhile (· ≠ '='), some (String.ofList value))

/-- The option that a flag makes with a value, or without one. -/
def Word.ofFlag (flag? : Option Flag) (value : Option String) : Word :=
  match flag? with
  | some flag => if value.isSome ∧ !flag.takesValue then unknown else option flag value
  | none => unknown

/-- Tells what a word is. A dash alone is an operand. -/
def Word.classify (flags : List Flag) (word : String) : Word :=
  match word.toList with
  | ['-', '-'] => endOfOptions
  | '-' :: '-' :: text =>
    let (name, value) := splitValue text
    ofFlag (flags.find? (·.long.toList = name)) value
  | '-' :: letter :: value =>
    let value? :=
      match value with
      | [] => none
      | '=' :: value => some (String.ofList value)
      | value => some (String.ofList value)
    ofFlag (flags.find? (·.short = some letter)) value?
  | _ => operand

/-- Sorts words behind an option that still needs a value, if `pending` is one. -/
def sort? (flags : List Flag) (pending : Option Flag) : List String → Option Arguments
  | [] => if pending.isSome then none else some ⟨[], []⟩
  | word :: rest =>
    match Word.classify flags word, pending with
    | .operand, some flag =>
      (sort? flags none rest).map fun sorted => { sorted with uses := (flag, word) :: sorted.uses }
    | .operand, none =>
      (sort? flags none rest).map fun sorted => { sorted with operands := word :: sorted.operands }
    | _, some _ => none
    | .endOfOptions, none => some ⟨rest, []⟩
    | .unknown, none => none
    | .option flag value?, none =>
      match value?, flag.takesValue with
      | none, true => sort? flags (some flag) rest
      | value?, _ =>
        (sort? flags none rest).map fun sorted =>
          { sorted with uses := (flag, value?.getD "") :: sorted.uses }

/-- How often an option is used. -/
def count (args : Arguments) (flag : Flag) : Nat := (args.uses.filter (·.1 = flag)).length

/-- The values of an option, in order. -/
def values (args : Arguments) (flag : Flag) : List String :=
  (args.uses.filter (·.1 = flag)).map Prod.snd

/-- Sorts the words of a command line, and refuses an option that is used too often. -/
def read? (flags : List Flag) (words : List String) : Option Arguments :=
  (sort? flags none words).filter fun args =>
    flags.all fun flag => flag.repeatable || args.count flag ≤ 1

end Arguments

end Botscript.Cli
