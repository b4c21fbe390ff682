import Botscript.Robot.Firmware

/-!
# Events

What talking to a robot gives cause to report. `Event.line` is an event as it stands in a log: its
level, what happened, and the values that belong to it. Each line begins with the level of its event
(`Event.opens_line`).
-/

namespace Botscript

/-- Why inbound bytes were thrown away. -/
inductive Refusal where
  | malformedState
  | unknownDevice
  | truncatedFrame
deriving DecidableEq, Repr

/-- A reason in words. -/
def Refusal.text : Refusal → String
  | malformedState => "malformed state"
  | unknownDevice => "unknown device"
  | truncatedFrame => "truncated frame"

/-- How serious an event is. -/
inductive Level where
  | debug | warn
deriving DecidableEq, Repr

namespace Level

/-- A level as it stands in a log. -/
def text : Level → String
  | debug => "DEBUG"
  | warn => "WARN"

/-- A line begins with a level and a blank. -/
def Opens (level : Level) (line : String) : Prop := ∃ rest, line = level.text ++ " " ++ rest

theorem Opens.append {level : Level} {line : String} (h : level.Opens line) (more : String) :
    level.Opens (line ++ more) := by
  obtain ⟨rest, rfl⟩ := h
  exact ⟨rest ++ more, String.append_assoc ..⟩

end Level

/-- Something worth reporting. -/
inductive Event where
  /-- A payload whose length does not fit its byte. -/
  | oversized (device : UInt8) (length : Nat)
  /-- A device was registered. -/
  | added (device classId : UInt8)
  /-- A payload was sent that the device itself cannot hold. -/
  | misfit (device : UInt8) (length : Nat)
  /-- A frame whose opcode means nothing here, or that has none. -/
  | ignored (command : UInt8) (opcode : Option Opcode)
  /-- Bytes were thrown away; `total` counts this and all earlier times. -/
  | dropped (device : Option UInt8) (reason : Refusal) (total : Nat)
deriving DecidableEq, Repr

namespace Event

/-- The level of an event: what is lost is worth a warning. -/
def level : Event → Level
  | oversized .. | dropped .. => .warn
  | added .. | misfit .. | ignored .. => .debug

/-- The total of a report of lost bytes. -/
def total? : Event → Option Nat
  | dropped _ _ total => some total
  | _ => none

/-- A value that may be missing. -/
def optional (value : Option String) : String :=
  match value with
  | some text => "Some(" ++ text ++ ")"
  | none => "None"

/-- An event as a line of a log. -/
def line : Event → String
  | oversized device length =>
    "WARN payload too long, length byte truncated device_id=" ++ toString device ++
      " len=" ++ toString length
  | added device classId =>
    "DEBUG added device id=" ++ toString device ++ " class=" ++ toString classId
  | misfit device length =>
    "DEBUG payload does not fit the mirror, left unchanged id=" ++ toString device ++
      " len=" ++ toString length
  | ignored command opcode =>
    "DEBUG ignoring frame command=" ++ toString command ++
      " kind=" ++ optional (opcode.map Opcode.title)
  | dropped device reason total =>
    "WARN dropped inbound frame device_id=" ++ optional (device.map toString) ++
      " reason=" ++ reason.text ++ " dropped=" ++ toString total

/-- A line of the log begins with the level. -/
theorem opens_line (e : Event) : e.level.Opens e.line := by
  cases e with
  | oversized device length =>
    have h : Level.warn.Opens "WARN payload too long, length byte truncated device_id=" :=
      ⟨"payload too long, length byte truncated device_id=", rfl⟩
    exact ((h.append _).append _).append _
  | added device classId =>
    have h : Level.debug.Opens "DEBUG added device id=" := ⟨"added device id=", rfl⟩
    exact ((h.append _).append _).append _
  | misfit device length =>
    have h : Level.debug.Opens "DEBUG payload does not fit the mirror, left unchanged id=" :=
      ⟨"payload does not fit the mirror, left unchanged id=", rfl⟩
    exact ((h.append _).append _).append _
  | ignored command opcode =>
    have h : Level.debug.Opens "DEBUG ignoring frame command=" :=
      ⟨"ignoring frame command=", rfl⟩
    exact ((h.append _).append _).append _
  | dropped device reason total =>
    have h : Level.warn.Opens "WARN dropped inbound frame device_id=" :=
      ⟨"dropped inbound frame device_id=", rfl⟩
    exact ((((h.append _).append _).append _).append _).append _

end Event

end Botscript
