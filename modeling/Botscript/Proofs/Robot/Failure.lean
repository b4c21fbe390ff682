import Botscript.Proofs.Robot.Writing

/-!
# Requests that fail

A request fails if the transport refuses it or if it is for a device that is not known, and then the
robot stays as it is (`Robot.robot_step_of_error`). So the steps of a run that fail may be left out:
the others come to the same, each by itself and all in all (`run_succeeding`).
-/

namespace Botscript

/-- Whether a step has done what was asked for. -/
def Outcome.succeeds (outcome : Outcome) : Bool := outcome.result.isOk

theorem Outcome.succeeds_of_ok {outcome : Outcome} (h : outcome.result = .ok ()) :
    outcome.succeeds = true := by
  rw [succeeds, h]
  rfl

theorem Outcome.succeeds_of_error {outcome : Outcome} {e : RequestError}
    (h : outcome.result = .error e) : outcome.succeeds = false := by
  rw [succeeds, h]
  rfl

/-- The transport takes nothing of a request that fails. -/
theorem Outcome.sent_of_error {outcome : Outcome} {e : RequestError}
    (h : outcome.result = .error e) : outcome.sent = [] := by
  rw [sent, h]

/-- The same step with another reply of the transport. -/
def Step.answered (reply : Reply) : Step → Step
  | add _ id device config => add reply id device config
  | set _ id payload => set reply id payload
  | poll _ id => poll reply id
  | receive bytes => receive bytes
  | reset => reset

namespace Robot

variable {robot : Robot} {s : Step} {e : RequestError}

/-! ## One step -/

/-- A request that is handed to the transport fails if it is refused. -/
theorem request_of_error {reply : Reply} {request : Request} {robot' : Robot} {events : List Event}
    (h : (robot.request reply request robot' events).result = .error e) :
    (robot.request reply request robot' events).robot = robot ∧ ∀ id, e ≠ .unknownDevice id := by
  cases reply with
  | accepted => cases h
  | refused cause =>
    obtain rfl : .refused cause = e := Except.error.inj h
    exact ⟨rfl, fun id he => by cases he⟩

/-- A state is handed to the transport if its device is known, whether or not it fits. -/
theorem set_eq_request {id : UInt8} {d : Device} (h : robot.fleet.get? id = some d)
    (payload : Bytes) : ∃ robot' events, ∀ reply,
      robot.set reply id payload = robot.request reply (.set id payload) robot' events := by
  cases ha : d.accept? payload with
  | none =>
    refine ⟨robot, [.misfit id payload.length], fun reply => ?_⟩
    simp only [set, h, ha]
  | some d' =>
    refine ⟨{ robot with fleet := robot.fleet.insert id d' }, [], fun reply => ?_⟩
    simp only [set, h, ha]

/-- What a step does: it succeeds without a request, or a request is handed to the transport, or
it is for a device that is not known, whatever the transport would reply. -/
inductive Attempt (robot : Robot) (s : Step) : Prop
  | done (h : (robot.step s).result = .ok ())
  | handed (reply : Reply) (request : Request) (robot' : Robot) (events : List Event)
    (h : robot.step s = robot.request reply request robot' events)
  | rejected (id : UInt8) (h : robot.step s = robot.reject id)
    (hreply : ∀ reply, robot.step (s.answered reply) = robot.reject id)

theorem attempt (robot : Robot) (s : Step) : robot.Attempt s := by
  cases s with
  | add reply id device config => exact .handed reply _ _ _ rfl
  | set reply id payload =>
    cases h : robot.fleet.get? id with
    | none =>
      exact .rejected id (set_of_unknown h reply payload) fun reply =>
        set_of_unknown h reply payload
    | some d =>
      obtain ⟨robot', events, heq⟩ := set_eq_request h payload
      exact .handed reply _ robot' events (heq reply)
  | poll reply id =>
    cases h : robot.fleet.get? id with
    | none =>
      have hreject : ∀ reply, robot.poll reply id = robot.reject id := fun reply => by
        simp only [poll, h]
      exact .rejected id (hreject reply) hreject
    | some d =>
      have hrequest : robot.poll reply id = robot.request reply (.get id) robot [] := by
        simp only [poll, h]
      exact .handed reply _ _ _ hrequest
  | receive bytes => exact .done rfl
  | reset => exact .done rfl

/-- A step that fails leaves the robot as it was. -/
theorem robot_step_of_error (h : (robot.step s).result = .error e) :
    (robot.step s).robot = robot := by
  cases robot.attempt s with
  | done hok => rw [hok] at h; cases h
  | handed reply request robot' events heq =>
    rw [heq] at h ⊢
    exact (request_of_error h).1
  | rejected id heq _ => rw [heq]; rfl

/-- The transport is not asked for a device that is not known, whatever it would reply. -/
theorem handed_of_unknownDevice {id : UInt8}
    (h : (robot.step s).result = .error (.unknownDevice id)) :
    (robot.step s).handed = none ∧ ∀ reply, robot.step (s.answered reply) = robot.step s := by
  cases robot.attempt s with
  | done hok => rw [hok] at h; cases h
  | handed reply request robot' events heq =>
    rw [heq] at h
    exact absurd rfl ((request_of_error h).2 id)
  | rejected other heq hreply => exact ⟨by rw [heq]; rfl, fun reply => by rw [hreply, heq]⟩

/-! ## Runs -/

/-- Those of some steps that succeed when all of them are done. -/
def succeeding (robot : Robot) (steps : List Step) : List Step :=
  ((steps.zip (robot.outcomes steps)).filter fun p => p.2.succeeds).map Prod.fst

theorem succeeding_cons_of_ok (h : (robot.step s).result = .ok ()) (steps : List Step) :
    robot.succeeding (s :: steps) = s :: (robot.step s).robot.succeeding steps := by
  rw [succeeding, outcomes, List.zip_cons_cons, List.filter_cons,
    if_pos (Outcome.succeeds_of_ok h), List.map_cons]
  rfl

theorem succeeding_cons_of_error (h : (robot.step s).result = .error e) (steps : List Step) :
    robot.succeeding (s :: steps) = robot.succeeding steps := by
  rw [succeeding, outcomes, List.zip_cons_cons, List.filter_cons,
    if_neg (by simp [Outcome.succeeds_of_error h]), robot_step_of_error h]
  rfl

/-- The steps that succeed come to the same without the others. -/
theorem outcomes_succeeding (robot : Robot) (steps : List Step) :
    robot.outcomes (robot.succeeding steps) = (robot.outcomes steps).filter Outcome.succeeds := by
  induction steps generalizing robot with
  | nil => rfl
  | cons s steps ih =>
    cases h : (robot.step s).result with
    | ok _ =>
      rw [succeeding_cons_of_ok h, outcomes, outcomes,
        List.filter_cons_of_pos (Outcome.succeeds_of_ok h), ih]
    | error e =>
      rw [succeeding_cons_of_error h, outcomes,
        List.filter_cons_of_neg (by simp [Outcome.succeeds_of_error h]), robot_step_of_error h, ih]

theorem robot_run_succeeding (robot : Robot) (steps : List Step) :
    robot.run (robot.succeeding steps) = robot.run steps := by
  induction steps generalizing robot with
  | nil => rfl
  | cons s steps ih =>
    cases h : (robot.step s).result with
    | ok _ =>
      rw [succeeding_cons_of_ok h]
      exact ih (robot.step s).robot
    | error e =>
      rw [succeeding_cons_of_error h, ih]
      show robot.run steps = (robot.step s).robot.run steps
      rw [robot_step_of_error h]

/-- The bytes that the transport takes are those of steps that succeed. -/
theorem sent_filter_succeeds (outcomes : List Outcome) :
    (outcomes.filter Outcome.succeeds).flatMap Outcome.sent = outcomes.flatMap Outcome.sent := by
  induction outcomes with
  | nil => rfl
  | cons outcome outcomes ih =>
    cases h : outcome.result with
    | ok _ =>
      rw [List.filter_cons_of_pos (Outcome.succeeds_of_ok h), List.flatMap_cons, List.flatMap_cons,
        ih]
    | error e =>
      rw [List.filter_cons_of_neg (by simp [Outcome.succeeds_of_error h]), List.flatMap_cons,
        Outcome.sent_of_error h, List.nil_append, ih]

/-- Steps that fail may be left out of a run: neither the outcomes of the others nor the bytes that
are sent change, nor what the robot comes to know and to count. A device that is not known is
never asked for anything. -/
theorem run_succeeding (robot : Robot) (steps : List Step) :
    robot.outcomes (robot.succeeding steps) = (robot.outcomes steps).filter Outcome.succeeds ∧
    (robot.outcomes (robot.succeeding steps)).flatMap Outcome.sent =
      (robot.outcomes steps).flatMap Outcome.sent ∧
    robot.run (robot.succeeding steps) = robot.run steps ∧
    (robot.run (robot.succeeding steps)).snapshot = (robot.run steps).snapshot ∧
    ∀ s id, ((robot.run steps).step s).result = .error (.unknownDevice id) →
      ((robot.run steps).step s).handed = none ∧
        ∀ reply, (robot.run steps).step (s.answered reply) = (robot.run steps).step s := by
  have hrun := robot.robot_run_succeeding steps
  refine ⟨robot.outcomes_succeeding steps, ?_, hrun, by rw [hrun], fun s id h =>
    handed_of_unknownDevice h⟩
  rw [outcomes_succeeding, sent_filter_succeeds]

/-- A device that is added at the second attempt, a state that comes too early, one that is refused,
and a device that is not there. -/
theorem run_succeeding_retry :
    ((new .standard).step (.set .accepted 1 [0, 5])).result = .error (.unknownDevice 1) ∧
    ((new .standard).step (.set .accepted 1 [0, 5])).handed = none ∧
    ∃ steps kept : List Step,
      steps = [.add (.refused "cable unplugged") 1 (.hbridge .halted) [2], .set .accepted 1 [0, 5],
        .add .accepted 1 (.hbridge .halted) [2], .set .accepted 1 [0, 7],
        .set (.refused "cable unplugged") 1 [0, 9], .receive [4, 1, 2, 1, 3], .poll .accepted 9] ∧
      kept = [.add .accepted 1 (.hbridge .halted) [2], .set .accepted 1 [0, 7],
        .receive [4, 1, 2, 1, 3]] ∧
      (new .standard).succeeding steps = kept ∧
      (new .standard).run kept = (new .standard).run steps := by
  have hunknown : ((new .standard).step (.set .accepted 1 [0, 5])).result =
      .error (.unknownDevice 1) := by decide +kernel
  obtain ⟨-, -, -, -, hasked⟩ := (new .standard).run_succeeding []
  refine ⟨hunknown, (hasked _ _ hunknown).1, _, _, rfl, rfl, ?_⟩
  have hkept : (new .standard).succeeding [.add (.refused "cable unplugged") 1 (.hbridge .halted)
      [2], .set .accepted 1 [0, 5], .add .accepted 1 (.hbridge .halted) [2],
      .set .accepted 1 [0, 7], .set (.refused "cable unplugged") 1 [0, 9],
      .receive [4, 1, 2, 1, 3], .poll .accepted 9] =
      [.add .accepted 1 (.hbridge .halted) [2], .set .accepted 1 [0, 7],
        .receive [4, 1, 2, 1, 3]] := by decide +kernel
  exact ⟨hkept, hkept ▸ ((new .standard).run_succeeding _).2.2.1⟩

end Robot

end Botscript
