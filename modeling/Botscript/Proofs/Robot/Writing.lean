import Mathlib.Data.List.Basic
import Botscript.Robot.Run

/-!
# What is written to devices

A payload fits a device or it does not (`Device.Fits`), whatever the state of the device is, and one
that does not fit changes nothing. What becomes of a frame is told in four cases (`Robot.handled`).
All that reaches single devices of a robot while it is driven comes to `Fleet.write`: a state that
is sent (`Robot.fleet_set`) and the frames that tell one (`Robot.fleet_receive`).
-/

namespace Botscript

/-! ## One device -/

namespace Device

/-- A motor driver takes a motor and a speed; any other device takes up to 255 bytes. -/
def Fits : Device → Bytes → Prop
  | hbridge _, payload => payload.length = 2
  | raw .., payload => payload.length ≤ 255

instance (d : Device) (payload : Bytes) : Decidable (d.Fits payload) :=
  match d with
  | hbridge _ => inferInstanceAs (Decidable (payload.length = 2))
  | raw .. => inferInstanceAs (Decidable (payload.length ≤ 255))

/-- The device after a payload; one that does not fit is passed over. -/
def write (d : Device) (payload : Bytes) : Device := (d.accept? payload).getD d

variable {d : Device} {payload : Bytes}

theorem write_raw (classId : UInt8) (state : Bytes) (h : payload.length ≤ 255) :
    (raw classId state).write payload = raw classId payload := by
  rw [write, accept?, if_pos h]
  rfl

theorem accept?_of_fits (h : d.Fits payload) : d.accept? payload = some (d.write payload) := by
  cases d with
  | hbridge speeds =>
    obtain ⟨motor, speed, rfl⟩ := List.length_eq_two.1 h
    rfl
  | raw classId state =>
    have hle : payload.length ≤ 255 := h
    rw [write_raw classId state hle, accept?, if_pos hle]

theorem accept?_of_not_fits (h : ¬ d.Fits payload) : d.accept? payload = none := by
  cases d with
  | hbridge speeds =>
    rcases payload with _ | ⟨_, _ | ⟨_, _ | _⟩⟩
    · rfl
    · rfl
    · exact absurd rfl h
    · rfl
  | raw classId state => exact if_neg h

theorem write_of_not_fits (h : ¬ d.Fits payload) : d.write payload = d := by
  rw [write, accept?_of_not_fits h]
  rfl

/-- What fits a device does not hang on its state. -/
theorem fits_write (d : Device) (payload : Bytes) : (d.write payload).Fits = d.Fits := by
  by_cases h : d.Fits payload
  · cases d with
    | hbridge speeds =>
      obtain ⟨motor, speed, rfl⟩ := List.length_eq_two.1 h
      rfl
    | raw classId state => rw [write_raw classId state h]; rfl
  · rw [write_of_not_fits h]

theorem fits_reset (d : Device) : d.reset.Fits = d.Fits := by cases d <;> rfl

end Device

/-! ## A fleet -/

namespace Fleet

/-- Some device has the id, and the payload fits it. -/
def Fits (fleet : Fleet) (id : UInt8) (payload : Bytes) : Prop :=
  ∃ d ∈ fleet.get? id, d.Fits payload

instance (fleet : Fleet) (id : UInt8) (payload : Bytes) : Decidable (fleet.Fits id payload) :=
  inferInstanceAs (Decidable (∃ d ∈ fleet.get? id, d.Fits payload))

/-- The fleet after a payload for the device with an id, if there is one. -/
def write (fleet : Fleet) (id : UInt8) (payload : Bytes) : Fleet :=
  fleet.adjust id (·.write payload)

variable {fleet : Fleet} {id : UInt8} {d : Device} {payload : Bytes}

theorem fits_iff (h : fleet.get? id = some d) : fleet.Fits id payload ↔ d.Fits payload := by
  unfold Fits
  simp only [h, Option.mem_some_iff, exists_eq_left']

theorem not_fits_of_unknown (h : fleet.get? id = none) : ¬ fleet.Fits id payload := by
  unfold Fits
  simp only [h, Option.not_mem_none, false_and, exists_false, not_false_eq_true]

theorem get?_insert (fleet : Fleet) (id other : UInt8) (d : Device) :
    (fleet.insert id d).get? other = if id = other then some d else fleet.get? other :=
  get?_put fleet id other (some d)

theorem get?_write (fleet : Fleet) (id other : UInt8) (payload : Bytes) :
    (fleet.write id payload).get? other =
      (fleet.get? other).map fun d => if id = other then d.write payload else d := by
  rw [write, adjust, get?_put]
  by_cases h : id = other
  · subst h
    simp only [if_true]
  · simp only [if_neg h, Option.map_id']

theorem write_of_not_fits (h : ¬ fleet.Fits id payload) : fleet.write id payload = fleet := by
  refine ext_get? fun other => ?_
  rw [get?_write]
  cases hd : fleet.get? other with
  | none => rfl
  | some d =>
    by_cases ho : id = other
    · have hfits : ¬ d.Fits payload := fun hf => h ⟨d, ho ▸ hd, hf⟩
      rw [Option.map_some, if_pos ho, Device.write_of_not_fits hfits]
    · rw [Option.map_some, if_neg ho]

theorem write_of_unknown (h : fleet.get? id = none) : fleet.write id payload = fleet :=
  write_of_not_fits (not_fits_of_unknown h)

theorem insert_write (h : fleet.get? id = some d) :
    fleet.insert id (d.write payload) = fleet.write id payload := by
  refine ext_get? fun other => ?_
  rw [get?_insert, get?_write]
  by_cases ho : id = other
  · subst ho
    rw [h, Option.map_some, if_pos rfl, if_pos rfl]
  · simp only [if_neg ho, Option.map_id']

/-- A payload changes neither which devices there are nor what fits them. -/
theorem fits_write (fleet : Fleet) (id : UInt8) (payload : Bytes) :
    (fleet.write id payload).Fits = fleet.Fits := by
  funext other p
  unfold Fits
  rw [get?_write]
  cases fleet.get? other with
  | none => rfl
  | some d =>
    by_cases h : id = other
    · simp [h, Device.fits_write]
    · simp [h]

end Fleet

/-! ## Frames -/

/-- A frame tells a state if its opcode byte stands for `set` or `get`. -/
def Frame.Tells (fw : Firmware) (f : Frame) : Prop :=
  fw.opcode? f.command = some .set ∨ fw.opcode? f.command = some .get

instance (fw : Firmware) (f : Frame) : Decidable (f.Tells fw) :=
  inferInstanceAs (Decidable (_ ∨ _))

/-- A frame acknowledges if its opcode byte stands for `done`. -/
def Frame.Acknowledges (fw : Firmware) (f : Frame) : Prop := fw.opcode? f.command = some .done

instance (fw : Firmware) (f : Frame) : Decidable (f.Acknowledges fw) :=
  inferInstanceAs (Decidable (_ = _))

theorem Frame.not_tells_of_acknowledges {fw : Firmware} {f : Frame} (h : f.Acknowledges fw) :
    ¬ f.Tells fw := by
  unfold Acknowledges at h
  simp [Tells, h]

/-- The fleet after a frame. -/
def Fleet.take (fw : Firmware) (fleet : Fleet) (f : Frame) : Fleet :=
  if f.Tells fw then fleet.write f.device f.payload else fleet

theorem Fleet.get?_take (fw : Firmware) (fleet : Fleet) (f : Frame) (id : UInt8) :
    (fleet.take fw f).get? id = (fleet.get? id).map fun d =>
      if f.Tells fw ∧ f.device = id then d.write f.payload else d := by
  unfold take
  by_cases h : f.Tells fw
  · simp only [h, if_true, true_and, get?_write]
  · simp only [h, if_false, false_and, Option.map_id']

/-- The device of an id after some frames: those that tell its state are written to it. -/
theorem Fleet.get?_foldl_take (fw : Firmware) (frames : List Frame) (fleet : Fleet) (id : UInt8) :
    (frames.foldl (Fleet.take fw) fleet).get? id = (fleet.get? id).map fun d =>
      ((frames.filter fun f => f.Tells fw ∧ f.device = id).map Frame.payload).foldl
        Device.write d := by
  induction frames generalizing fleet with
  | nil => simp
  | cons f frames ih =>
    rw [List.foldl_cons, ih, get?_take, Option.map_map]
    congr 1
    funext d
    by_cases h : f.Tells fw ∧ f.device = id
    · simp [h]
    · simp [h]

theorem Fleet.fits_take (fw : Firmware) (fleet : Fleet) (f : Frame) :
    (fleet.take fw f).Fits = fleet.Fits := by
  unfold take
  split
  · exact fits_write ..
  · rfl

namespace Robot

/-- What becomes of a robot and a frame. -/
inductive Handled (robot : Robot) (f : Frame) : Robot × List Event → Prop
  | applied (h : f.Tells robot.firmware) (hf : robot.fleet.Fits f.device f.payload) :
    Handled robot f ({ robot with
      fleet := robot.fleet.write f.device f.payload
      tally.applied := robot.tally.applied + 1 }, [])
  | dropped (h : f.Tells robot.firmware) (hf : ¬ robot.fleet.Fits f.device f.payload)
    (reason : Refusal) : Handled robot f (robot.drop (some f.device) reason)
  | acknowledged (h : f.Acknowledges robot.firmware) :
    Handled robot f ({ robot with tally.acknowledged := robot.tally.acknowledged + 1 }, [])
  | ignored (h : ¬ f.Tells robot.firmware) (ha : ¬ f.Acknowledges robot.firmware) :
    Handled robot f (robot, [.ignored f.command (robot.firmware.opcode? f.command)])

theorem handled_of_tells {robot : Robot} {f : Frame} (h : f.Tells robot.firmware) :
    robot.Handled f (robot.handle f) := by
  cases hd : robot.fleet.get? f.device with
  | none =>
    have heq : robot.handle f = robot.drop (some f.device) .unknownDevice := by
      rcases h with h | h <;> simp only [handle, h, hd]
    rw [heq]
    exact .dropped h (Fleet.not_fits_of_unknown hd) _
  | some d =>
    by_cases hf : d.Fits f.payload
    · have heq : robot.handle f = ({ robot with
          fleet := robot.fleet.write f.device f.payload
          tally.applied := robot.tally.applied + 1 }, []) := by
        rcases h with h | h <;>
          simp only [handle, h, hd, Device.accept?_of_fits hf, Fleet.insert_write hd]
      rw [heq]
      exact .applied h ((Fleet.fits_iff hd).2 hf)
    · have heq : robot.handle f = robot.drop (some f.device) .malformedState := by
        rcases h with h | h <;> simp only [handle, h, hd, Device.accept?_of_not_fits hf]
      rw [heq]
      exact .dropped h (fun hf' => hf ((Fleet.fits_iff hd).1 hf')) _

theorem handled (robot : Robot) (f : Frame) : robot.Handled f (robot.handle f) := by
  by_cases h : f.Tells robot.firmware
  · exact handled_of_tells h
  by_cases ha : f.Acknowledges robot.firmware
  · have heq : robot.handle f =
        ({ robot with tally.acknowledged := robot.tally.acknowledged + 1 }, []) := by
      rw [Frame.Acknowledges] at ha
      simp only [handle, ha]
    rw [heq]
    exact .acknowledged ha
  · have heq : robot.handle f =
        (robot, [.ignored f.command (robot.firmware.opcode? f.command)]) := by
      unfold handle
      split
      · exact absurd (.inl ‹_›) h
      · exact absurd (.inr ‹_›) h
      · exact absurd ‹_› ha
      · rfl
    rw [heq]
    exact .ignored h ha

theorem firmware_handle (robot : Robot) (f : Frame) :
    (robot.handle f).1.firmware = robot.firmware := by
  have h := robot.handled f
  generalize robot.handle f = result at h ⊢
  cases h <;> rfl

theorem fleet_handle (robot : Robot) (f : Frame) :
    (robot.handle f).1.fleet = robot.fleet.take robot.firmware f := by
  have h := robot.handled f
  generalize robot.handle f = result at h ⊢
  cases h with
  | applied h hf => exact (if_pos h).symm
  | dropped h hf reason =>
    rw [Fleet.take, if_pos h, Fleet.write_of_not_fits hf]
    rfl
  | acknowledged h => exact (if_neg (Frame.not_tells_of_acknowledges h)).symm
  | ignored h ha => exact (if_neg h).symm

/-! ## Received bytes -/

theorem handleAll_append (robot : Robot) (front back : List Frame) :
    robot.handleAll (front ++ back) =
      (((robot.handleAll front).1.handleAll back).1,
        (robot.handleAll front).2 ++ ((robot.handleAll front).1.handleAll back).2) := by
  induction front generalizing robot with
  | nil => rfl
  | cons f front ih => simp only [List.cons_append, handleAll, ih, List.append_assoc]

theorem firmware_handleAll (robot : Robot) (frames : List Frame) :
    (robot.handleAll frames).1.firmware = robot.firmware := by
  induction frames generalizing robot with
  | nil => rfl
  | cons f frames ih => exact (ih _).trans (firmware_handle robot f)

theorem fleet_handleAll (robot : Robot) (frames : List Frame) :
    (robot.handleAll frames).1.fleet = frames.foldl (Fleet.take robot.firmware) robot.fleet := by
  induction frames generalizing robot with
  | nil => rfl
  | cons f frames ih =>
    show ((robot.handle f).1.handleAll frames).1.fleet = _
    rw [ih, firmware_handle, fleet_handle, List.foldl_cons]

theorem receive_of_whole {bytes : Bytes} (h : (Frame.splitAll bytes).2 = []) (robot : Robot) :
    robot.receive bytes = robot.handleAll (Frame.splitAll bytes).1 := by
  simp only [receive, h]

theorem receive_of_cut {bytes : Bytes} (h : (Frame.splitAll bytes).2 ≠ []) (robot : Robot) :
    robot.receive bytes =
      (((robot.handleAll (Frame.splitAll bytes).1).1.drop (Frame.splitAll bytes).2[1]?
          .truncatedFrame).1,
        (robot.handleAll (Frame.splitAll bytes).1).2 ++
          ((robot.handleAll (Frame.splitAll bytes).1).1.drop (Frame.splitAll bytes).2[1]?
            .truncatedFrame).2) := by
  obtain ⟨b, rest, hleft⟩ := List.exists_cons_of_ne_nil h
  simp only [receive, hleft]

theorem fleet_receive (robot : Robot) (bytes : Bytes) :
    (robot.receive bytes).1.fleet =
      (Frame.splitAll bytes).1.foldl (Fleet.take robot.firmware) robot.fleet := by
  rw [← fleet_handleAll]
  by_cases h : (Frame.splitAll bytes).2 = []
  · rw [receive_of_whole h]
  · rw [receive_of_cut h]
    rfl

theorem firmware_receive (robot : Robot) (bytes : Bytes) :
    (robot.receive bytes).1.firmware = robot.firmware := by
  rw [← firmware_handleAll robot (Frame.splitAll bytes).1]
  by_cases h : (Frame.splitAll bytes).2 = []
  · rw [receive_of_whole h]
  · rw [receive_of_cut h]
    rfl

/-! ## Requests -/

theorem set_of_unknown {robot : Robot} {id : UInt8} (h : robot.fleet.get? id = none)
    (reply : Reply) (payload : Bytes) : robot.set reply id payload = robot.reject id := by
  simp only [set, h]

/-- A state that the transport takes is taken for granted. -/
theorem set_of_known {robot : Robot} {id : UInt8} {d : Device} (h : robot.fleet.get? id = some d)
    (payload : Bytes) :
    ∃ events, robot.set .accepted id payload =
      ⟨{ robot with fleet := robot.fleet.write id payload }, .ok (),
        some ((Request.set id payload).message.bytes robot.firmware), events⟩ := by
  by_cases hf : d.Fits payload
  · refine ⟨(Request.set id payload).message.events ++ [], ?_⟩
    simp only [set, h, Device.accept?_of_fits hf, Fleet.insert_write h, request]
  · have hsame : robot.fleet.write id payload = robot.fleet :=
      Fleet.write_of_not_fits fun hf' => hf ((Fleet.fits_iff h).1 hf')
    refine ⟨(Request.set id payload).message.events ++ [.misfit id payload.length], ?_⟩
    simp only [set, h, Device.accept?_of_not_fits hf, hsame, request]

/-- A state that the transport refuses is not taken for granted. -/
theorem robot_set_refused (robot : Robot) (cause : String) (id : UInt8) (payload : Bytes) :
    (robot.set (.refused cause) id payload).robot = robot := by
  unfold set
  split
  · rfl
  · split <;> rfl

theorem robot_poll (robot : Robot) (reply : Reply) (id : UInt8) :
    (robot.poll reply id).robot = robot := by
  unfold poll
  split
  · rfl
  · cases reply <;> rfl

theorem fleet_set (robot : Robot) (id : UInt8) (payload : Bytes) :
    (robot.set .accepted id payload).robot.fleet = robot.fleet.write id payload := by
  cases h : robot.fleet.get? id with
  | none => rw [set_of_unknown h, Fleet.write_of_unknown h]; rfl
  | some d =>
    -- a payload that does not fit is sent all the same, and writing it changes nothing
    obtain ⟨events, heq⟩ := set_of_known h payload
    rw [heq]

theorem firmware_set (robot : Robot) (reply : Reply) (id : UInt8) (payload : Bytes) :
    (robot.set reply id payload).robot.firmware = robot.firmware := by
  cases reply with
  | accepted =>
    cases h : robot.fleet.get? id with
    | none => rw [set_of_unknown h]; rfl
    | some d =>
      obtain ⟨events, heq⟩ := set_of_known h payload
      rw [heq]
  | refused cause => rw [robot_set_refused]

/-- The firmware of a robot stays as it is. -/
theorem firmware_step (robot : Robot) (s : Step) :
    (robot.step s).robot.firmware = robot.firmware := by
  cases s with
  | add reply id device config => cases reply <;> rfl
  | set reply id payload => exact firmware_set robot reply id payload
  | poll reply id =>
    show (robot.poll reply id).robot.firmware = robot.firmware
    rw [robot_poll]
  | receive bytes => exact firmware_receive robot bytes
  | reset => rfl

end Robot

end Botscript
