import Botscript.Robot.Basic

/-!
# Runs

A `Step` is anything that is done with a robot, and `Robot.run` does several in turn. Running two
lists of steps in turn is running both (`run_append`).
-/

namespace Botscript

/-- Something that is done with a robot. A request comes with the reply of the transport. -/
inductive Step where
  | add (reply : Reply) (id : UInt8) (device : Device) (config : Bytes)
  | set (reply : Reply) (id : UInt8) (payload : Bytes)
  | poll (reply : Reply) (id : UInt8)
  | receive (bytes : Bytes)
  | reset
deriving DecidableEq, Repr

namespace Robot

/-- Does a step. Receiving and resetting always succeed and send nothing. -/
def step (robot : Robot) : Step → Outcome
  | .add reply id device config => robot.add reply id device config
  | .set reply id payload => robot.set reply id payload
  | .poll reply id => robot.poll reply id
  | .receive bytes =>
    let (robot, events) := robot.receive bytes
    ⟨robot, .ok (), none, events⟩
  | .reset => ⟨robot.reset, .ok (), none, []⟩

/-- What comes of each of several steps. -/
def outcomes (robot : Robot) : List Step → List Outcome
  | [] => []
  | s :: rest => robot.step s :: (robot.step s).robot.outcomes rest

/-- The robot after several steps. -/
def run (robot : Robot) (steps : List Step) : Robot :=
  steps.foldl (fun robot s => (robot.step s).robot) robot

theorem run_append (robot : Robot) (front back : List Step) :
    robot.run (front ++ back) = (robot.run front).run back := List.foldl_append

theorem outcomes_append (robot : Robot) (front back : List Step) :
    robot.outcomes (front ++ back) = robot.outcomes front ++ (robot.run front).outcomes back := by
  induction front generalizing robot with
  | nil => rfl
  | cons s rest ih => rw [List.cons_append, outcomes, outcomes, ih]; rfl

end Robot

end Botscript
