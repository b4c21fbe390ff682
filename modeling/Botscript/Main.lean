import Botscript.Cli.Format
import Botscript.Cli.Message

/-!
# The program

`format` and `message` are the commands. Only this module reads files and prints.
-/

namespace Botscript.Cli

/-- Reads a file of text. -/
def readTextFile : ReadFile IO := fun file => do
  try
    let bytes ← IO.FS.readBinFile file
    match String.fromUTF8? bytes with
    | some text => return .ok text
    | none => return .error .notText
  catch _ => return .error .missing

/-- Runs the command that the first word names. -/
def runCommand : List String → IO Outcome
  | "format" :: words => Format.run readTextFile words
  | "message" :: words => Message.run readTextFile words
  | _ => return .misused

end Botscript.Cli

/-- Runs the command and prints what it ends with. -/
def main (args : List String) : IO UInt32 := do
  let outcome ← Botscript.Cli.runCommand args
  (← IO.getStdout).putStr outcome.stdout
  (← IO.getStderr).putStr outcome.stderr
  return .ofNat outcome.exitCode
