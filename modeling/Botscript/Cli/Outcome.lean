import Botscript.Json.Reader

/-!
# What a command ends with

An `Outcome` is what a command prints, or why it prints nothing; it settles the exit code and both
output texts.
-/

namespace Botscript.Cli

/-- Why a file cannot be read. -/
inductive ReadError where
  | missing
  | notText
deriving DecidableEq, Repr

/-- The message of the operating system. -/
def ReadError.message : ReadError → String
  | missing => "No such file or directory (os error 2)"
  | notText => "stream did not contain valid UTF-8"

/-- What a command ends with. -/
inductive Outcome where
  | printed (text : String)
  /-- The command line is refused. -/
  | misused
  | unreadable (file : String) (error : ReadError)
  /-- A program file does not hold a program. -/
  | noProgram (file message : String)
  /-- A profile does not describe a firmware. -/
  | noProfile (file : String) (fault : Json.Fault)
deriving DecidableEq, Repr

namespace Outcome

/-- The exit code: `1` for a bad program, `2` for anything else that fails. -/
def exitCode : Outcome → Nat
  | printed _ => 0
  | noProgram .. => 1
  | misused | unreadable .. | noProfile .. => 2

/-- What is printed. -/
def stdout : Outcome → String
  | printed text => text
  | _ => ""

/-- What is complained of. -/
def stderr : Outcome → String
  | printed _ => ""
  | misused => "usage"
  | unreadable file error => file ++ ": " ++ error.message ++ "\n"
  | noProgram file message => file ++ ": " ++ message ++ "\n"
  | noProfile .. => "bad table"

end Outcome

/-- How a command reads a file. -/
abbrev ReadFile (m : Type → Type) := String → m (Except ReadError String)

end Botscript.Cli
