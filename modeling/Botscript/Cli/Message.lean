import Botscript.Cli.Arguments
import Botscript.Cli.Outcome
import Botscript.Robot.Message
import Botscript.Robot.Profile
import Botscript.Text.Quoted

/-!
# The command that builds a message

`message COMMAND DEVICE [PAYLOAD]… [--table FILE]` prints the bytes of one message in hexadecimal.
The payload bytes are decimal, or hexadecimal behind `0x`; the file is a firmware profile.
-/

namespace Botscript.Cli.Message

/-! ## Operands -/

/-- A text that is no payload byte, and why. -/
structure InvalidByte where
  text : String
  fault : Numeral.Fault
deriving DecidableEq, Repr

/-- The message of the fault. -/
def InvalidByte.message (e : InvalidByte) : String :=
  "invalid byte " ++ quotedText e.text ++ ": " ++ e.fault.message

/-- Reads a payload byte. -/
def readByte (text : String) : Except InvalidByte UInt8 :=
  let numeral :=
    match text.toList with
    | '0' :: 'x' :: digits => Numeral.read 16 255 digits
    | digits => Numeral.read 10 255 digits
  match numeral with
  | .ok n => .ok (.ofNat n)
  | .error fault => .error ⟨text, fault⟩

/-- Reads a device id. Any sign may stand in front, but of negative numbers only zero is one. -/
def readDevice? (text : String) : Option UInt8 :=
  let numeral :=
    match text.toList with
    | '-' :: digit :: digits => Numeral.readDigits 10 0 0 (digit :: digits)
    | digits => Numeral.read 10 255 digits
  numeral.toOption.map .ofNat

/-- What the operands ask for. -/
def readMessage? : List String → Option Botscript.Message
  | opcode :: device :: payload =>
    match Opcode.ofName? opcode, readDevice? device, payload.mapM readByte with
    | some opcode, some device, .ok payload => some ⟨opcode, device, payload⟩
    | _, _, _ => none
  | _ => none

/-! ## The command -/

/-- Names the file of a firmware profile. -/
def tableFlag : Flag := ⟨"table", none, true, false⟩

/-- The bytes of a message, between spaces. -/
def print (fw : Firmware) (message : Botscript.Message) : Outcome :=
  .printed (" ".intercalate ((message.bytes fw).map Numeral.hexByte) ++ "\n")

/-- Runs the command. -/
def run {m : Type → Type} [Monad m] (readFile : ReadFile m) (words : List String) : m Outcome :=
  match Arguments.read? [tableFlag] words with
  | none => return .misused
  | some args =>
    match readMessage? args.operands, args.values tableFlag with
    | none, _ => return .misused
    | some message, [] => return print .standard message
    | some message, file :: _ => do
      match ← readFile file with
      | .error e => return .unreadable file e
      | .ok text =>
        match Firmware.ofProfile text with
        | .error fault => return .noProfile file fault
        | .ok fw => return print fw message

end Botscript.Cli.Message
