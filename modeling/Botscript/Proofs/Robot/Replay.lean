import Mathlib.Data.List.DropRight
import Mathlib.Data.List.Induction
import Botscript.Proofs.Robot.Writing

/-!
# What a run leaves of a device

What a robot knows of a device is the device as it was added last, after what was done to it since
then: resets, states that were sent, and frames that told one (`get?_run`). The speeds of a motor
driver are those that were given last, and the state of any other device is the last payload, unless
a reset came later (`Device.replay_eq_latest`). No other step of a run matters (`run_replays`).
-/

namespace Botscript

/-! ## Changes of a device -/

/-- Something that changes the state of a device. -/
inductive Change where
  | write (payload : Bytes)
  | reset
deriving DecidableEq, Repr

namespace Change

/-- The payload of a change, if it is no reset. -/
def payload? : Change → Option Bytes
  | write payload => some payload
  | reset => none

/-- A reset suits every device, a payload the devices that it fits. -/
def Suits (d : Device) : Change → Prop
  | write payload => d.Fits payload
  | reset => True

instance (d : Device) (c : Change) : Decidable (c.Suits d) :=
  match c with
  | write payload => inferInstanceAs (Decidable (d.Fits payload))
  | reset => inferInstanceAs (Decidable True)

/-- The payloads that were written after the last reset. -/
def recent (changes : List Change) : List Bytes :=
  (changes.rtakeWhile fun c => c.payload?.isSome).filterMap payload?

theorem recent_concat_write (changes : List Change) (payload : Bytes) :
    recent (changes ++ [write payload]) = recent changes ++ [payload] := by
  rw [recent, List.rtakeWhile_concat_pos _ _ _ rfl, List.filterMap_append]
  rfl

theorem recent_concat_reset (changes : List Change) : recent (changes ++ [reset]) = [] := by
  rw [recent, List.rtakeWhile_concat_neg _ _ _ (by simp [payload?])]
  rfl

end Change

/-- The speed that a payload gives to a motor of one side. -/
def speed? (side : UInt8 → Bool) : Bytes → Option Int8
  | [motor, speed] => if side motor then some speed.toInt8 else none
  | _ => none

/-- The speed that was given last to a motor of one side, since the last reset. -/
def lastSpeed? (side : UInt8 → Bool) (changes : List Change) : Option Int8 :=
  ((Change.recent changes).filterMap (speed? side)).getLast?

theorem lastSpeed?_concat_write (side : UInt8 → Bool) (changes : List Change)
    (motor speed : UInt8) :
    lastSpeed? side (changes ++ [.write [motor, speed]]) =
      if side motor then some speed.toInt8 else lastSpeed? side changes := by
  unfold lastSpeed?
  rw [Change.recent_concat_write, List.filterMap_append]
  by_cases h : side motor
  · simp [speed?, h]
  · simp [speed?, h]

theorem lastSpeed?_concat_reset (side : UInt8 → Bool) (changes : List Change) :
    lastSpeed? side (changes ++ [.reset]) = none := by
  rw [lastSpeed?, Change.recent_concat_reset]
  rfl

namespace Device

/-- A device after a change. -/
def change (d : Device) : Change → Device
  | .write payload => d.write payload
  | .reset => d.reset

/-- A device after some changes. -/
def replay (d : Device) (changes : List Change) : Device := changes.foldl change d

/-- Those of the changes that the device takes. -/
def taken (d : Device) (changes : List Change) : List Change := changes.filter fun c => c.Suits d

/-- What the last of some changes leave of a device. -/
def latest : Device → List Change → Device
  | hbridge h, changes =>
    let rest := if .reset ∈ changes then HBridge.halted else h
    hbridge ⟨(lastSpeed? (· = 0) changes).getD rest.left,
      (lastSpeed? (· ≠ 0) changes).getD rest.right⟩
  | raw classId state, changes =>
    let rest := if .reset ∈ changes then [] else state
    raw classId ((Change.recent changes).getLast?.getD rest)

variable {d : Device} {changes : List Change}

theorem replay_append (d : Device) (changes later : List Change) :
    d.replay (changes ++ later) = (d.replay changes).replay later := List.foldl_append

theorem fits_change (d : Device) (c : Change) : (d.change c).Fits = d.Fits := by
  cases c with
  | write payload => exact fits_write d payload
  | reset => exact fits_reset d

theorem suits_change (d : Device) (c c' : Change) : c'.Suits (d.change c) ↔ c'.Suits d := by
  cases c' with
  | write payload =>
    show (d.change c).Fits payload ↔ d.Fits payload
    rw [fits_change]
  | reset => exact Iff.rfl

theorem taken_change (d : Device) (c : Change) (changes : List Change) :
    (d.change c).taken changes = d.taken changes := by
  unfold taken
  simp only [suits_change]

/-- Payloads that do not fit may be left out. -/
theorem replay_taken (d : Device) (changes : List Change) :
    d.replay (d.taken changes) = d.replay changes := by
  induction changes generalizing d with
  | nil => rfl
  | cons c changes ih =>
    by_cases hc : c.Suits d
    · have hkeep : d.taken (c :: changes) = c :: d.taken changes :=
        List.filter_cons_of_pos (decide_eq_true hc)
      rw [hkeep, ← taken_change d c]
      exact ih (d.change c)
    · have hpass : d.taken (c :: changes) = d.taken changes :=
        List.filter_cons_of_neg (by simpa using hc)
      have hsame : d.change c = d := by
        cases c with
        | write payload => exact write_of_not_fits hc
        | reset => exact absurd trivial hc
      rw [hpass, ih d]
      show d.replay changes = (d.change c).replay changes
      rw [hsame]

/-- The last changes are all that counts. -/
theorem replay_eq_latest (h : ∀ c ∈ changes, c.Suits d) : d.replay changes = d.latest changes := by
  -- from the end, since a later change settles what earlier ones did
  induction changes using List.reverseRecOn with
  | nil => cases d <;> rfl
  | append_singleton changes c ih =>
    have hc : c.Suits d := h c (by simp)
    have hrest : ∀ c ∈ changes, c.Suits d := fun c hc => h c (List.mem_append_left _ hc)
    rw [replay_append, ih hrest]
    show (d.latest changes).change c = _
    cases c with
    | reset =>
      cases d with
      | hbridge speeds => simp [latest, change, reset, lastSpeed?_concat_reset]
      | raw classId state => simp [latest, change, reset, Change.recent_concat_reset]
    | write payload =>
      have hmem : (.reset ∈ changes ++ [.write payload]) = (.reset ∈ changes) := by simp
      cases d with
      | hbridge speeds =>
        obtain ⟨motor, speed, rfl⟩ := List.length_eq_two.1 hc
        simp only [latest, hmem, lastSpeed?_concat_write]
        by_cases hm : motor = 0
        · simp [change, write, accept?, HBridge.withSpeed, hm]
        · simp [change, write, accept?, HBridge.withSpeed, hm]
      | raw classId state =>
        have hle : payload.length ≤ 255 := hc
        simp [latest, change, write_raw, hle, Change.recent_concat_write]

theorem suits_of_mem_taken (d : Device) (changes : List Change) :
    ∀ c ∈ d.taken changes, c.Suits d := by
  intro c hc
  simpa using (List.mem_filter.1 hc).2

end Device

/-! ## Steps -/

namespace Step

/-- The device that a step adds under an id, if the transport takes the request. -/
def added? (id : UInt8) : Step → Option Device
  | add .accepted other device _ => if other = id then some device else none
  | _ => none

/-- What a step does to the device that is known under an id: a state that the transport takes,
frames that tell its state, or a reset. -/
def changes (fw : Firmware) (id : UInt8) : Step → List Change
  | set .accepted other payload => if other = id then [.write payload] else []
  | receive bytes =>
    ((Frame.splitAll bytes).1.filter fun f => f.Tells fw ∧ f.device = id).map fun f =>
      .write f.payload
  | reset => [.reset]
  | _ => []

/-- A step that is not for the device of an id. -/
def Spares (id : UInt8) : Step → Prop
  | add _ other _ _ => other ≠ id
  | set _ other _ => other ≠ id
  | poll .. => True
  | receive bytes => ∀ f ∈ (Frame.splitAll bytes).1, f.device ≠ id
  | reset => False

theorem Spares.added?_eq_none {id : UInt8} {s : Step} (h : s.Spares id) : s.added? id = none := by
  cases s with
  | add reply other device config =>
    cases reply with
    | accepted => exact if_neg h
    | refused cause => rfl
  | _ => rfl

theorem Spares.changes_eq_nil {id : UInt8} {s : Step} (h : s.Spares id) (fw : Firmware) :
    s.changes fw id = [] := by
  cases s with
  | set reply other payload =>
    cases reply with
    | accepted => exact if_neg h
    | refused cause => rfl
  | receive bytes =>
    rw [changes, List.map_eq_nil_iff, List.filter_eq_nil_iff]
    intro f hf
    have hne := h f hf
    simp [hne]
  | reset => exact h.elim
  | _ => rfl

theorem isSome_added?_iff {id : UInt8} {s : Step} :
    (s.added? id).isSome ↔ ∃ device config, s = .add .accepted id device config := by
  constructor
  · intro h
    cases s with
    | add reply other device config =>
      cases reply with
      | accepted =>
        by_cases ho : other = id
        · exact ⟨device, config, by rw [ho]⟩
        · simp [added?, ho] at h
      | refused cause => cases h
    | _ => cases h
  · rintro ⟨device, config, rfl⟩
    simp [added?]

end Step

namespace Robot

/-- What is known of a device after a step. -/
theorem get?_step (robot : Robot) (s : Step) (id : UInt8) :
    (robot.step s).robot.fleet.get? id =
      (s.added? id).or
        ((robot.fleet.get? id).map fun d => d.replay (s.changes robot.firmware id)) := by
  cases s with
  | add reply other device config =>
    cases reply with
    | accepted =>
      show (robot.fleet.insert other device).get? id = _
      rw [Fleet.get?_insert]
      by_cases h : other = id
      · simp [Step.added?, h]
      · simp [Step.added?, Step.changes, Device.replay, h]
    | refused cause => simp [step, add, request, Step.added?, Step.changes, Device.replay]
  | set reply other payload =>
    show (robot.set reply other payload).robot.fleet.get? id = _
    cases reply with
    | accepted =>
      rw [fleet_set, Fleet.get?_write]
      by_cases h : other = id
      · simp [Step.added?, Step.changes, Device.replay, Device.change, h]
      · simp [Step.added?, Step.changes, Device.replay, h]
    | refused cause =>
      rw [robot_set_refused]
      simp [Step.added?, Step.changes, Device.replay]
  | poll reply other =>
    show (robot.poll reply other).robot.fleet.get? id = _
    rw [robot_poll]
    simp [Step.added?, Step.changes, Device.replay]
  | receive bytes =>
    show (robot.receive bytes).1.fleet.get? id = _
    rw [fleet_receive, Fleet.get?_foldl_take]
    simp only [Step.added?, Step.changes, Option.none_or, Device.replay, List.foldl_map,
      Device.change]
  | reset =>
    show (robot.fleet.map Device.reset).get? id = _
    rw [Fleet.get?_map]
    rfl

/-- What is known of a device after a run in which it is not added. -/
theorem get?_run {steps : List Step} {id : UInt8} (h : ∀ s ∈ steps, s.added? id = none)
    (robot : Robot) :
    (robot.run steps).fleet.get? id = (robot.fleet.get? id).map fun d =>
      d.replay (steps.flatMap (Step.changes robot.firmware id)) := by
  induction steps generalizing robot with
  | nil => simp [run, Device.replay]
  | cons s steps ih =>
    show ((robot.step s).robot.run steps).fleet.get? id = _
    rw [ih (fun s hs => h s (List.mem_cons_of_mem _ hs)), firmware_step, get?_step,
      h s List.mem_cons_self, Option.none_or, Option.map_map, List.flatMap_cons]
    simp only [Function.comp_def, Device.replay_append]

theorem firmware_run (robot : Robot) (steps : List Step) :
    (robot.run steps).firmware = robot.firmware := by
  induction steps generalizing robot with
  | nil => rfl
  | cons s steps ih => exact (ih _).trans (firmware_step robot s)

theorem isSome_get?_run (robot : Robot) (steps : List Step) (id : UInt8) :
    ((robot.run steps).fleet.get? id).isSome ↔
      (robot.fleet.get? id).isSome ∨ ∃ s ∈ steps, (s.added? id).isSome := by
  induction steps generalizing robot with
  | nil => simp [run]
  | cons s steps ih =>
    show (((robot.step s).robot.run steps).fleet.get? id).isSome ↔ _
    rw [ih, get?_step, Option.isSome_or, Option.isSome_map, Bool.or_eq_true]
    simp only [List.mem_cons, exists_eq_or_imp]
    exact or_right_comm.trans or_comm

/-- What is known of a device is what was written to it since it was added, and nothing else. -/
theorem run_replays (fw : Firmware) (steps : List Step) (id : UInt8) :
    ((((new fw).run steps).fleet.get? id).isSome ↔
      ∃ device config, Step.add .accepted id device config ∈ steps) ∧
    (∀ front device config back, steps = front ++ .add .accepted id device config :: back →
      (∀ device' config', Step.add .accepted id device' config' ∉ back) →
      let changes := device.taken (back.flatMap (Step.changes fw id))
      ((new fw).run steps).fleet.get? id = some (device.replay changes) ∧
        device.replay changes = device.latest changes) ∧
    ∀ s, Step.Spares id s →
      ((new fw).run (steps ++ [s])).fleet.get? id = ((new fw).run steps).fleet.get? id := by
  refine ⟨?_, ?_, ?_⟩
  · rw [isSome_get?_run, new, Fleet.get?_empty]
    simp only [Option.isSome_none, Bool.false_eq_true, false_or, Step.isSome_added?_iff]
    constructor
    · rintro ⟨s, hs, device, config, rfl⟩
      exact ⟨device, config, hs⟩
    · rintro ⟨device, config, hs⟩
      exact ⟨_, hs, device, config, rfl⟩
  · rintro front device config back rfl hback
    refine ⟨?_, Device.replay_eq_latest (Device.suits_of_mem_taken device _)⟩
    -- behind the addition the device is there, so nothing but changes can reach it
    have hnone : ∀ s ∈ back, s.added? id = none := by
      intro s hs
      rw [← Option.not_isSome_iff_eq_none, Step.isSome_added?_iff]
      rintro ⟨device', config', rfl⟩
      exact hback device' config' hs
    have hadded :
        ((((new fw).run front).step (.add .accepted id device config)).robot).fleet.get? id =
          some device := by
      rw [get?_step]
      simp [Step.added?]
    rw [run_append, Device.replay_taken]
    show ((((new fw).run front).step _).robot.run back).fleet.get? id = _
    rw [get?_run hnone, hadded, firmware_step, firmware_run]
    rfl
  · intro s hs
    rw [run_append]
    show (((new fw).run steps).step s).robot.fleet.get? id = _
    rw [get?_step, hs.added?_eq_none, hs.changes_eq_nil]
    simp [Device.replay]

/-- A state that is sent, one that is refused, one that does not fit, and frames. -/
theorem run_replays_wheels :
    (∀ device' config', Step.add .accepted 1 device' config' ∉
      [.set .accepted 1 [0, 5], .set (.refused "cable unplugged") 1 [0, 9], .set .accepted 1 [7, 3],
        .add .accepted 3 (.raw 9 []) [9], .receive [4, 1, 3, 0, 0, 0, 5, 1, 2, 0, 255, 5, 1]]) ∧
    ((new .standard).run
      [.add .accepted 1 (.hbridge .halted) [2], .set .accepted 1 [0, 5],
        .set (.refused "cable unplugged") 1 [0, 9], .set .accepted 1 [7, 3],
        .add .accepted 3 (.raw 9 []) [9],
        .receive [4, 1, 3, 0, 0, 0, 5, 1, 2, 0, 255, 5, 1]]).fleet.get? 1 =
      some (.hbridge ⟨-1, 3⟩) := by
  have hback : ∀ device' config', Step.add .accepted 1 device' config' ∉
      [.set .accepted 1 [0, 5], .set (.refused "cable unplugged") 1 [0, 9], .set .accepted 1 [7, 3],
        .add .accepted 3 (.raw 9 []) [9], .receive [4, 1, 3, 0, 0, 0, 5, 1, 2, 0, 255, 5, 1]] := by
    intro device' config'
    simp
  obtain ⟨hrun, hlatest⟩ :=
    (run_replays .standard _ 1).2.1 [] (.hbridge .halted) [2] _ rfl hback
  exact ⟨hback, (hrun.trans (congrArg some hlatest)).trans (by decide +kernel)⟩

end Robot

end Botscript
