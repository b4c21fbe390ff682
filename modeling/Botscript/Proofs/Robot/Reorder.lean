import Mathlib.Data.List.Count
import Botscript.Proofs.Robot.Account
import Botscript.Proofs.Robot.Replay

/-!
# Traffic of several devices

Devices do not depend on each other. What is sent to devices and received from them may come in any
order, as long as that of each single device keeps its order: a robot comes to know and to count the
same (`run_reordered`). What is known of a device hangs on its own traffic (`get?_run_traffic`), and
the counts hang on no order at all (`tally_run_traffic`).
-/

namespace Botscript

/-- Something that passes between a robot and one of its devices: a state that the transport takes,
or a whole frame that is received. -/
inductive Traffic where
  | sent (id : UInt8) (payload : Bytes)
  | received (f : Frame) (short : f.payload.length ≤ 255)
deriving DecidableEq

namespace Traffic

/-- The id that traffic is for. -/
def device : Traffic → UInt8
  | sent id _ => id
  | received f _ => f.device

/-- What is done with a robot. -/
def toStep : Traffic → Step
  | sent id payload => .set .accepted id payload
  | received f _ => .receive f.bytes

/-- The frame that is received. -/
def frame? : Traffic → Option Frame
  | sent .. => none
  | received f _ => some f

/-- A permutation that keeps the order of what is for one device: for each id it is the same, in the
same order. -/
def Reordered (traffic traffic' : List Traffic) : Prop :=
  ∀ id, traffic.filter (·.device = id) = traffic'.filter (·.device = id)

theorem Reordered.perm {traffic traffic' : List Traffic} (h : Reordered traffic traffic') :
    traffic.Perm traffic' := by
  rw [List.perm_iff_count]
  intro t
  have hcount : ∀ l : List Traffic, l.count t = (l.filter (·.device = t.device)).count t :=
    fun l => (List.count_filter (by simp)).symm
  rw [hcount traffic, hcount traffic', h]

/-! ## What is known of a device -/

theorem splitAll_bytes {f : Frame} (short : f.payload.length ≤ 255) :
    Frame.splitAll f.bytes = ([f], []) := by
  have h : Frame.splitAll ([f].flatMap Frame.bytes) = ([f], []) :=
    Frame.splitAll_flatMap_bytes (by simpa using short)
  rwa [List.flatMap_singleton] at h

theorem added?_toStep (t : Traffic) (id : UInt8) : t.toStep.added? id = none := by
  cases t <;> rfl

/-- Traffic is only for the device with its id. -/
theorem spares_toStep {t : Traffic} {id : UInt8} (h : t.device ≠ id) : t.toStep.Spares id := by
  cases t with
  | sent other payload => exact h
  | received f short =>
    show ∀ g ∈ (Frame.splitAll f.bytes).1, g.device ≠ id
    rw [splitAll_bytes short]
    intro g hg
    rw [List.mem_singleton.1 hg]
    exact h

theorem flatMap_changes (fw : Firmware) (id : UInt8) (traffic : List Traffic) :
    (traffic.map toStep).flatMap (Step.changes fw id) =
      ((traffic.filter (·.device = id)).map toStep).flatMap (Step.changes fw id) := by
  induction traffic with
  | nil => rfl
  | cons t traffic ih =>
    rw [List.map_cons, List.flatMap_cons, ih]
    by_cases h : t.device = id
    · rw [List.filter_cons_of_pos (by simpa using h), List.map_cons, List.flatMap_cons]
    · rw [List.filter_cons_of_neg (by simpa using h), (spares_toStep h).changes_eq_nil,
        List.nil_append]

end Traffic

namespace Robot

open Traffic

variable {robot : Robot}

/-- What is known of a device after some traffic comes of its own traffic alone. -/
theorem get?_run_traffic (robot : Robot) (traffic : List Traffic) (id : UInt8) :
    (robot.run (traffic.map toStep)).fleet.get? id = (robot.fleet.get? id).map fun d =>
      d.replay (((traffic.filter (·.device = id)).map toStep).flatMap
        (Step.changes robot.firmware id)) := by
  rw [← flatMap_changes]
  refine get?_run (fun s hs => ?_) robot
  obtain ⟨t, -, rfl⟩ := List.mem_map.1 hs
  exact added?_toStep t id

/-! ## What is counted -/

theorem receive_bytes (robot : Robot) {f : Frame} (short : f.payload.length ≤ 255) :
    robot.receive f.bytes = robot.handleAll [f] := by
  rw [receive_of_whole (by rw [splitAll_bytes short]), splitAll_bytes short]

/-- Traffic is counted if it is received. -/
theorem tally_step (robot : Robot) (t : Traffic) :
    (robot.step t.toStep).robot.tally = robot.tally + robot.account t.frame?.toList := by
  cases t with
  | sent id payload =>
    show (robot.set .accepted id payload).robot.tally = robot.tally
    cases h : robot.fleet.get? id with
    | none => rw [set_of_unknown h]; rfl
    | some d =>
      obtain ⟨events, heq⟩ := set_of_known h payload
      rw [heq]
  | received f short =>
    show (robot.receive f.bytes).1.tally = _
    rw [receive_bytes robot short]
    exact tally_handleAll robot [f]

/-- Traffic changes nothing that decides what is counted for later frames. -/
theorem account_step (robot : Robot) (t : Traffic) (frames : List Frame) :
    (robot.step t.toStep).robot.account frames = robot.account frames := by
  cases t with
  | sent id payload =>
    show (robot.set .accepted id payload).robot.account frames = _
    unfold account
    simp only [firmware_set, fleet_set, Fleet.fits_write]
  | received f short =>
    show (robot.receive f.bytes).1.account frames = _
    rw [receive_bytes robot short]
    exact account_handle robot f frames

theorem tally_run_traffic (robot : Robot) (traffic : List Traffic) :
    (robot.run (traffic.map toStep)).tally =
      robot.tally + robot.account (traffic.filterMap frame?) := by
  induction traffic generalizing robot with
  | nil => rfl
  | cons t traffic ih =>
    show ((robot.step t.toStep).robot.run (traffic.map toStep)).tally = _
    rw [ih, account_step, tally_step, Tally.add_assoc, ← account_append]
    cases t <;> rfl

/-- The order of frames does not matter for what is counted. -/
theorem account_perm {frames frames' : List Frame} (h : frames.Perm frames') :
    robot.account frames = robot.account frames' :=
  Tally.ext (h.countP_eq _) (h.countP_eq _) (h.countP_eq _)

/-- Traffic of different devices may be exchanged. -/
theorem run_reordered (robot : Robot) {traffic traffic' : List Traffic}
    (h : Reordered traffic traffic') :
    robot.run (traffic.map toStep) = robot.run (traffic'.map toStep) := by
  have hfirmware : (robot.run (traffic.map toStep)).firmware =
      (robot.run (traffic'.map toStep)).firmware := by
    rw [firmware_run, firmware_run]
  have hfleet :
      (robot.run (traffic.map toStep)).fleet = (robot.run (traffic'.map toStep)).fleet := by
    apply Fleet.ext_get?
    intro id
    rw [get?_run_traffic, get?_run_traffic, h id]
  have htally :
      (robot.run (traffic.map toStep)).tally = (robot.run (traffic'.map toStep)).tally := by
    rw [tally_run_traffic, tally_run_traffic, account_perm (h.perm.filterMap frame?)]
  generalize robot.run (traffic.map toStep) = final at *
  generalize robot.run (traffic'.map toStep) = final' at *
  cases final
  cases final'
  cases hfirmware
  cases hfleet
  cases htally
  rfl

/-- States for two devices, one that fits nobody, and an acknowledgement. -/
theorem run_reordered_wheels :
    Reordered [.sent 1 [0, 5], .received ⟨5, 3, [7]⟩ (by decide), .sent 3 [8],
        .received ⟨4, 1, [0]⟩ (by decide), .received ⟨7, 3, []⟩ (by decide), .sent 1 [1, 6]]
      [.received ⟨5, 3, [7]⟩ (by decide), .sent 3 [8], .sent 1 [0, 5],
        .received ⟨7, 3, []⟩ (by decide), .received ⟨4, 1, [0]⟩ (by decide), .sent 1 [1, 6]] ∧
    ∃ robot : Robot,
      robot = ⟨.standard, (Fleet.empty.insert 1 (.ofClass 2)).insert 3 (.ofClass 9), ⟨0, 0, 0⟩⟩ ∧
      robot.run ([.sent 1 [0, 5], .received ⟨5, 3, [7]⟩ (by decide), .sent 3 [8],
          .received ⟨4, 1, [0]⟩ (by decide), .received ⟨7, 3, []⟩ (by decide),
          .sent 1 [1, 6]].map Traffic.toStep) =
        robot.run ([.received ⟨5, 3, [7]⟩ (by decide), .sent 3 [8], .sent 1 [0, 5],
          .received ⟨7, 3, []⟩ (by decide), .received ⟨4, 1, [0]⟩ (by decide),
          .sent 1 [1, 6]].map Traffic.toStep) := by
  have h : Reordered [.sent 1 [0, 5], .received ⟨5, 3, [7]⟩ (by decide), .sent 3 [8],
        .received ⟨4, 1, [0]⟩ (by decide), .received ⟨7, 3, []⟩ (by decide), .sent 1 [1, 6]]
      [.received ⟨5, 3, [7]⟩ (by decide), .sent 3 [8], .sent 1 [0, 5],
        .received ⟨7, 3, []⟩ (by decide), .received ⟨4, 1, [0]⟩ (by decide), .sent 1 [1, 6]] := by
    intro id
    by_cases h1 : id = 1
    · rw [h1]
      decide
    · by_cases h3 : id = 3
      · rw [h3]
        decide
      · simp [device, Ne.symm h1, Ne.symm h3]
  exact ⟨h, _, rfl, run_reordered _ h⟩

end Robot

end Botscript
