import Botscript.Robot.Fleet

/-!
# Talking to a robot

A `Robot` keeps the devices of a robot as they were last known, with a tally of what was received.
Requests (`Robot.add`, `Robot.set`, `Robot.poll`) are handed to a transport that may refuse them;
a refused request leaves the robot as it was. `Robot.receive` takes in bytes from the robot and
never fails: what cannot be used is counted and reported.
-/

namespace Botscript

/-- Counts of what was received. -/
structure Tally where
  /-- States taken in by a device. -/
  applied : Nat
  /-- Times that bytes were thrown away. -/
  dropped : Nat
  /-- Reports that something was done. -/
  acknowledged : Nat
deriving DecidableEq, Repr, Inhabited

/-- What is known of a robot. -/
structure Robot where
  firmware : Firmware
  fleet : Fleet
  tally : Tally
deriving DecidableEq

/-- What the transport does with a message. -/
inductive Reply where
  | accepted
  | refused (cause : String)
deriving DecidableEq, Repr

/-- Why a request failed. -/
inductive RequestError where
  | unknownDevice (id : UInt8)
  | refused (cause : String)
deriving DecidableEq, Repr

namespace RequestError

/-- The message of an error. -/
def message : RequestError → String
  | unknownDevice id => "No device with id " ++ toString id ++ " is registered"
  | refused cause => "Sending to the robot failed: " ++ cause

/-- What the transport said, if the transport was asked. -/
def cause? : RequestError → Option String
  | unknownDevice _ => none
  | refused cause => some cause

end RequestError

/-- What comes of a request. -/
structure Outcome where
  robot : Robot
  result : Except RequestError Unit
  /-- What was handed to the transport, if anything was. -/
  handed : Option Bytes
  events : List Event

/-- The bytes that the transport took. -/
def Outcome.sent (outcome : Outcome) : Bytes :=
  match outcome.result with
  | .ok _ => outcome.handed.getD []
  | .error _ => []

namespace Robot

/-- A robot without devices. -/
def new (firmware : Firmware) : Robot := ⟨firmware, .empty, ⟨0, 0, 0⟩⟩

/-! ## Requests -/

/-- Hands a request to the transport. If it is accepted, the robot becomes `robot'`, and `events`
are to be reported. -/
def request (robot : Robot) (reply : Reply) (request : Request) (robot' : Robot)
    (events : List Event) : Outcome :=
  let message := request.message
  let bytes := message.bytes robot.firmware
  match reply with
  | .accepted => ⟨robot', .ok (), some bytes, message.events ++ events⟩
  | .refused cause => ⟨robot, .error (.refused cause), some bytes, message.events⟩

/-- A request to a device that is not there; the transport is not asked. -/
def reject (robot : Robot) (id : UInt8) : Outcome :=
  ⟨robot, .error (.unknownDevice id), none, []⟩

/-- Registers a device and begins to keep track of it. -/
def add (robot : Robot) (reply : Reply) (id : UInt8) (device : Device) (config : Bytes) :
    Outcome :=
  robot.request reply (.add id config) { robot with fleet := robot.fleet.insert id device }
    [.added id device.classId]

/-- Gives a device a new state, and takes the state for granted once the message is accepted. -/
def set (robot : Robot) (reply : Reply) (id : UInt8) (payload : Bytes) : Outcome :=
  match robot.fleet.get? id with
  | none => robot.reject id
  | some device =>
    let request := Request.set id payload
    match device.accept? payload with
    | some device =>
      robot.request reply request { robot with fleet := robot.fleet.insert id device } []
    | none => robot.request reply request robot [.misfit id payload.length]

/-- Asks a device for its state. -/
def poll (robot : Robot) (reply : Reply) (id : UInt8) : Outcome :=
  match robot.fleet.get? id with
  | none => robot.reject id
  | some _ => robot.request reply (.get id) robot []

/-- Forgets the states of all devices. -/
def reset (robot : Robot) : Robot := { robot with fleet := robot.fleet.map Device.reset }

/-- Changes one device. -/
def adjust (robot : Robot) (id : UInt8) (f : Device → Device) : Robot :=
  { robot with fleet := robot.fleet.adjust id f }

/-! ## Received bytes -/

/-- Throws bytes away. -/
def drop (robot : Robot) (device : Option UInt8) (reason : Refusal) : Robot × List Event :=
  let total := robot.tally.dropped + 1
  ({ robot with tally.dropped := total }, [.dropped device reason total])

/-- Takes in a frame. Answers to `set` and `get` carry the state of a device; `done` is counted;
all else is ignored. -/
def handle (robot : Robot) (f : Frame) : Robot × List Event :=
  match robot.firmware.opcode? f.command with
  | some .set | some .get =>
    match robot.fleet.get? f.device with
    | none => robot.drop (some f.device) .unknownDevice
    | some device =>
      match device.accept? f.payload with
      | none => robot.drop (some f.device) .malformedState
      | some device =>
        ({ robot with
            fleet := robot.fleet.insert f.device device
            tally.applied := robot.tally.applied + 1 }, [])
  | some .done => ({ robot with tally.acknowledged := robot.tally.acknowledged + 1 }, [])
  | opcode => (robot, [.ignored f.command opcode])

/-- Takes in frames one after another. -/
def handleAll (robot : Robot) : List Frame → Robot × List Event
  | [] => (robot, [])
  | f :: rest =>
    let (robot, events) := robot.handle f
    let (robot, later) := robot.handleAll rest
    (robot, events ++ later)

/-- Takes in bytes. If they end in the middle of a frame, its beginning is thrown away. -/
def receive (robot : Robot) (bytes : Bytes) : Robot × List Event :=
  let (frames, left) := Frame.splitAll bytes
  let (robot, events) := robot.handleAll frames
  match left with
  | [] => (robot, events)
  | _ :: _ =>
    let (robot, last) := robot.drop left[1]? .truncatedFrame
    (robot, events ++ last)

/-! ## Reports -/

/-- The id and the snapshot of every device, in the order of the ids. -/
def snapshot (robot : Robot) : Bytes :=
  robot.fleet.toList.flatMap fun (id, device) => id :: device.snapshot

/-- Puts the id and the snapshot of every device behind what is in a buffer. -/
def putSnapshot (robot : Robot) (buffer : Bytes) : Bytes :=
  robot.fleet.toList.foldl (fun buffer (id, device) => device.putSnapshot (buffer ++ [id])) buffer

theorem putSnapshot_eq (robot : Robot) (buffer : Bytes) :
    robot.putSnapshot buffer = buffer ++ robot.snapshot := by
  unfold putSnapshot snapshot
  induction robot.fleet.toList generalizing buffer with
  | nil => simp
  | cons p rest ih =>
    rw [List.foldl_cons, ih, List.flatMap_cons]
    show p.2.putSnapshot (buffer ++ [p.1]) ++ _ = buffer ++ (p.1 :: p.2.snapshot ++ _)
    rw [Device.putSnapshot_eq]
    simp

/-- A line for every device, in the order of the ids. -/
def describe (robot : Robot) : String :=
  String.join (robot.fleet.toList.map fun (id, device) =>
    toString id ++ " " ++ device.name ++ ": " ++ device.describe ++ "\n")

end Robot

end Botscript
