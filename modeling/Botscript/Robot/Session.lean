import Botscript.Robot.Basic

/-!
# Driving a robot

A `Session` is a robot that is driven by orders: requests for a new state, and speeds that are given
to a motor driver itself. All messages of a session go into one buffer.
-/

namespace Botscript

/-- Something that is done with a robot while it is driven. A motor driver may be given speeds
directly; then its message is put into the buffer that also takes what the robot sends. -/
inductive Order where
  | set (id : UInt8) (payload : { payload : Bytes // payload.length ≤ 255 })
  | motor (id motor : UInt8) (speed : Int8)
  | fullState (id : UInt8) (left right : Int8)

/-- A robot that is driven, the bytes in the buffer, and how many messages were put there. -/
structure Session where
  robot : Robot
  sent : Bytes
  frames : Nat

namespace Session

/-- A robot with an empty buffer. -/
def start (robot : Robot) : Session := ⟨robot, [], 0⟩

/-- Gives a motor driver that is known new speeds, and puts its messages into the buffer. -/
def steer (s : Session) (id : UInt8) (f : HBridge → HBridge × List Message) : Session :=
  match s.robot.fleet.get? id with
  | some (.hbridge h) =>
    let (speeds, messages) := f h
    ⟨s.robot.adjust id fun _ => .hbridge speeds,
      s.sent ++ messages.flatMap (Message.bytes s.robot.firmware), s.frames + messages.length⟩
  | _ => s

/-- Follows an order. -/
def perform (s : Session) : Order → Session
  | .set id payload =>
    let outcome := s.robot.set .accepted id payload
    ⟨outcome.robot, s.sent ++ outcome.sent, s.frames + outcome.handed.toList.length⟩
  | .motor id motor speed =>
    s.steer id fun h =>
      let (speeds, message) := h.setMotor id motor speed
      (speeds, [message])
  | .fullState id left right => s.steer id fun h => h.setFullState id left right

end Session

end Botscript
