import Botscript.Cli.Arguments
import Botscript.Cli.Outcome
import Botscript.Parse.Program
import Botscript.Program.Document
import Botscript.Program.Printer

/-!
# The command that formats a program

`format FILE [-f NAME]… [--json]` prints the program in a file in canonical form, or its tree as
JSON. Each `-f` or `--function` names a function that the program may call.
-/

namespace Botscript.Cli.Format

/-- Names a function that the program may call. -/
def functionFlag : Flag := ⟨"function", some 'f', true, true⟩

/-- Asks for the tree as JSON. -/
def jsonFlag : Flag := ⟨"json", none, false, false⟩

/-- What is printed of the program in a source text. -/
def print (args : Arguments) (file source : String) : Outcome :=
  match parse source (FunctionTable.withNames (args.values functionFlag)).registry with
  | .error e => .noProgram file e.message
  | .ok program =>
    .printed (if args.count jsonFlag = 0 then program.text else program.toJson.pretty ++ "\n")

/-- Runs the command. -/
def run {m : Type → Type} [Monad m] (readFile : ReadFile m) (words : List String) : m Outcome :=
  match Arguments.read? [functionFlag, jsonFlag] words with
  | some args =>
    match args.operands with
    | [file] => do
      match ← readFile file with
      | .ok source => return print args file source
      | .error e => return .unreadable file e
    | _ => return .misused
  | none => return .misused

end Botscript.Cli.Format
