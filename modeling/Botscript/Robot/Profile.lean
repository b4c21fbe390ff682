import Botscript.Json.Skip
import Botscript.Robot.Firmware

/-!
# Firmware profiles

A profile is a JSON text that gives the bytes of opcodes: an object with the names of opcodes as
keys, or a list of bytes in the order of the opcodes. What a profile leaves out stays as it is in
the standard firmware. `Firmware.ofProfile` reads one, from left to right up to the first fault.
-/

namespace Botscript.Firmware

open Json Json.Reader

/-- Bytes for opcodes in order, up to the end of the list, when `separator` stands before the
first. -/
def readList (separator : Reader Unit) (fw : Firmware) : List Opcode → Reader Firmware
  | [] => do
    mark ']'
    return fw
  | op :: rest => do
    if (← ahead) = ']' then
      skip
      return fw
    else
      separator
      readList (mark ',') (fw.withByte op (← byteValue)) rest

/-- A key, a colon and a value. Each opcode may come once; the value of any other key is passed
over. -/
def readMember (state : Firmware × List Opcode) : Reader (Firmware × List Opcode) := do
  let (fw, seen) := state
  if (← ahead) ≠ '"' then throw .malformed
  let key ← string true
  match Opcode.ofName? (String.ofList key) with
  | some op =>
    if op ∈ seen then throw .unsuitable
    mark ':'
    return (fw.withByte op (← byteValue), op :: seen)
  | none =>
    mark ':'
    skipValue
    return state

/-- A profile with nothing but blanks around it. -/
def readProfile : Reader Firmware := do
  let c ← ahead
  let fw ←
    if c = '[' then
      skip
      readList (pure ()) standard Opcode.all
    else if c = '\x7b' then
      skip
      Prod.fst <$> items '\x7d' readMember (standard, [])
    else refuseValue
  let _ ← takeWhile isBlank
  match ← peek with
  | none => return fw
  | some _ => throw .malformed

/-- The firmware of a profile. -/
def ofProfile (text : String) : Except Fault Firmware := readProfile.run' text.toList

end Botscript.Firmware
