import Botscript.Robot.Message
import Botscript.Text.Numeral

/-!
# Devices

A `Device` is what is known of the state of a device of the robot: the speeds of a two-wheel motor
driver, or the last payload of any other device. `Device.accept?` takes in a payload that the device
was sent or has reported, and refuses one that does not fit.
-/

namespace Botscript

/-- The speeds of a two-wheel motor driver. -/
structure HBridge where
  left : Int8
  right : Int8
deriving DecidableEq, Repr, Inhabited

namespace HBridge

/-- Both wheels at rest. -/
def halted : HBridge := ⟨0, 0⟩

/-- Motor zero is the left one; every other number is the right one. -/
def withSpeed (h : HBridge) (motor : UInt8) (speed : Int8) : HBridge :=
  if motor = 0 then { h with left := speed } else { h with right := speed }

/-- The message that gives one motor of the device `id` a speed. -/
def speedMessage (id motor : UInt8) (speed : Int8) : Message :=
  ⟨.set, id, [motor, speed.toUInt8]⟩

/-- Gives one motor a speed: the new state, and the message to be sent. -/
def setMotor (h : HBridge) (id motor : UInt8) (speed : Int8) : HBridge × Message :=
  (h.withSpeed motor speed, speedMessage id motor speed)

/-- Gives both motors a speed: the new state, and the messages to be sent. -/
def setFullState (_ : HBridge) (id : UInt8) (left right : Int8) : HBridge × List Message :=
  (⟨left, right⟩, [speedMessage id 0 left, speedMessage id 1 right])

end HBridge

/-- What is known of a device. -/
inductive Device where
  | hbridge (speeds : HBridge)
  | raw (classId : UInt8) (state : Bytes)
deriving DecidableEq, Repr

namespace Device

/-- The class of motor drivers. -/
def hbridgeClass : UInt8 := 2

/-- A device of a class, as it is before anything is known of it. -/
def ofClass (classId : UInt8) : Device :=
  if classId = hbridgeClass then hbridge .halted else raw classId []

/-- The class that a device belongs to. -/
def classId : Device → UInt8
  | hbridge _ => hbridgeClass
  | raw classId _ => classId

/-- The sort of a device. -/
def name : Device → String
  | hbridge _ => "hbridge"
  | raw .. => "raw"

/-- The device after a payload. A motor driver takes a motor and a speed, any other device takes
whatever a message can hold. -/
def accept? : Device → Bytes → Option Device
  | hbridge h, [motor, speed] => some (hbridge (h.withSpeed motor speed.toInt8))
  | hbridge _, _ => none
  | raw classId _, payload => if payload.length ≤ 255 then some (raw classId payload) else none

/-- The bytes of the state. -/
def state : Device → Bytes
  | hbridge h => [h.left.toUInt8, h.right.toUInt8]
  | raw _ state => state

/-- The state behind its length in one byte. -/
def snapshot (d : Device) : Bytes := UInt8.ofNat d.state.length :: d.state

/-- Puts the length of the state and the state behind what is in a buffer. -/
def putSnapshot (buffer : Bytes) : Device → Bytes
  | hbridge h => buffer ++ [2] ++ [h.left.toUInt8] ++ [h.right.toUInt8]
  | raw _ state => buffer ++ [UInt8.ofNat state.length] ++ state

theorem putSnapshot_eq (buffer : Bytes) (d : Device) :
    d.putSnapshot buffer = buffer ++ d.snapshot := by
  cases d <;> simp [putSnapshot, snapshot, state]

/-- The state in words. -/
def describe : Device → String
  | hbridge h => "left: " ++ toString h.left ++ ", right: " ++ toString h.right
  | raw _ state => "[" ++ " ".intercalate (state.map Numeral.hexByte) ++ "]"

/-- The device without what was known of its state. -/
def reset : Device → Device
  | hbridge _ => hbridge .halted
  | raw classId _ => raw classId []

end Device

end Botscript
