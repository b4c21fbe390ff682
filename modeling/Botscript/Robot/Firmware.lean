/-!
# Opcodes and firmware

The first byte of a message says what is to be done. Which byte stands for which `Opcode` depends
on the revision of the robot's `Firmware`. Two opcodes may share a byte; `Firmware.opcode?` then
answers the first, and it undoes `Firmware.byte` if no byte is shared (`opcode?_byte`).
-/

namespace Botscript

/-- What a message asks for or reports. -/
inductive Opcode where
  | stop | echo | print | get | set | reset | done | add
deriving DecidableEq, Repr, Inhabited

namespace Opcode

/-- Every opcode, in order. -/
def all : List Opcode := [stop, echo, print, get, set, reset, done, add]

theorem mem_all (op : Opcode) : op ∈ all := by cases op <;> decide

/-- The name of an opcode in commands and profiles. -/
def name : Opcode → String
  | stop => "stop" | echo => "echo" | print => "print" | get => "get"
  | set => "set" | reset => "reset" | done => "done" | add => "add"

/-- The opcode with a name. -/
def ofName? (text : String) : Option Opcode := all.find? (·.name = text)

theorem ofName?_name (op : Opcode) : ofName? op.name = some op := by cases op <;> decide

theorem name_of_ofName? {text : String} {op : Opcode} (h : ofName? text = some op) :
    text = op.name := by
  rw [ofName?] at h
  simpa [eq_comm] using List.find?_some h

/-- The name with a capital letter, as events show it. -/
def title (op : Opcode) : String := op.name.capitalize

end Opcode

/-- The byte of each opcode in one revision of the firmware. -/
structure Firmware where
  stop : UInt8
  echo : UInt8
  print : UInt8
  get : UInt8
  set : UInt8
  reset : UInt8
  done : UInt8
  add : UInt8
deriving DecidableEq, Repr

namespace Firmware

/-- The bytes count from one in the order of the opcodes. -/
def standard : Firmware := ⟨1, 2, 3, 4, 5, 6, 7, 8⟩

instance : Inhabited Firmware := ⟨standard⟩

/-- The byte of an opcode. -/
def byte (fw : Firmware) : Opcode → UInt8
  | .stop => fw.stop | .echo => fw.echo | .print => fw.print | .get => fw.get
  | .set => fw.set | .reset => fw.reset | .done => fw.done | .add => fw.add

/-- The firmware with another byte for an opcode. -/
def withByte (fw : Firmware) (op : Opcode) (b : UInt8) : Firmware :=
  match op with
  | .stop => { fw with stop := b }
  | .echo => { fw with echo := b }
  | .print => { fw with print := b }
  | .get => { fw with get := b }
  | .set => { fw with set := b }
  | .reset => { fw with reset := b }
  | .done => { fw with done := b }
  | .add => { fw with add := b }

/-- The first opcode with a byte. -/
def opcode? (fw : Firmware) (b : UInt8) : Option Opcode := Opcode.all.find? (fw.byte · = b)

theorem byte_withByte (fw : Firmware) (op other : Opcode) (b : UInt8) :
    (fw.withByte op b).byte other = if other = op then b else fw.byte other := by
  cases op <;> cases other <;> rfl

theorem byte_of_opcode? {fw : Firmware} {b : UInt8} {op : Opcode} (h : fw.opcode? b = some op) :
    fw.byte op = b := by
  simpa using List.find?_some h

theorem opcode?_byte {fw : Firmware} (distinct : ∀ op op', fw.byte op = fw.byte op' → op = op')
    (op : Opcode) : fw.opcode? (fw.byte op) = some op := by
  cases h : fw.opcode? (fw.byte op) with
  | none => simpa using List.find?_eq_none.1 h op op.mem_all
  | some op' => rw [distinct op' op (byte_of_opcode? h)]

end Firmware

end Botscript
