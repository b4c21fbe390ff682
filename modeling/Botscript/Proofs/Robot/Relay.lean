import Botscript.Proofs.Robot.Account
import Botscript.Robot.Session

/-!
# A second robot

While a robot is driven its orders are put into one buffer, and what it knows of its devices is
changed at once. A second robot that knew the same and receives the buffer comes to know the same
(`receive_relayed`): each order is a list of frames that are written to the devices one by one
(`Session.Relays`), by the one robot when they are sent, by the other when they are received.
-/

namespace Botscript

/-! ## Speeds as payloads -/

theorem HBridge.length_payload_le (id motor : UInt8) (speed : Int8) :
    (speedMessage id motor speed).payload.length ≤ 255 := by
  simp [speedMessage]

namespace Fleet

variable {fleet : Fleet}

theorem get?_write_hbridge {id : UInt8} {h : HBridge} (hd : fleet.get? id = some (.hbridge h))
    (motor : UInt8) (speed : Int8) :
    (fleet.write id [motor, speed.toUInt8]).get? id =
      some (.hbridge (h.withSpeed motor speed)) := by
  rw [get?_write, hd]
  simp [Device.write, Device.accept?]

theorem adjust_eq_write {id : UInt8} {h : HBridge} (hd : fleet.get? id = some (.hbridge h))
    (motor : UInt8) (speed : Int8) :
    (fleet.adjust id fun _ => .hbridge (h.withSpeed motor speed)) =
      fleet.write id [motor, speed.toUInt8] := by
  refine ext_get? fun other => ?_
  by_cases ho : id = other
  · subst ho
    rw [get?_write_hbridge hd, adjust, get?_put, if_pos rfl, hd]
    rfl
  · rw [get?_write, adjust, get?_put, if_neg ho]
    simp only [if_neg ho, Option.map_id']

theorem adjust_eq_write_write {id : UInt8} {h : HBridge}
    (hd : fleet.get? id = some (.hbridge h)) (left right : Int8) :
    (fleet.adjust id fun _ => .hbridge ⟨left, right⟩) =
      (fleet.write id [0, left.toUInt8]).write id [1, right.toUInt8] := by
  rw [← adjust_eq_write (get?_write_hbridge hd 0 left), ← adjust_eq_write hd]
  refine ext_get? fun other => ?_
  simp only [adjust, get?_put]
  by_cases ho : id = other
  · subst ho
    simp only [if_true, hd]
    rfl
  · simp only [if_neg ho]

end Fleet

/-! ## Driving a robot -/

namespace Session

/-- Some frames are what a session has put into the buffer since its devices were as in `fleet`, and
also what has become of them. -/
structure Relays (fw : Firmware) (fleet : Fleet) (s : Session) (frames : List Frame) : Prop where
  firmware : s.robot.firmware = fw
  sent : s.sent = frames.flatMap Frame.bytes
  count : s.frames = frames.length
  short : ∀ f ∈ frames, f.payload.length ≤ 255
  tells : ∀ f ∈ frames, f.Tells fw
  fleet : s.robot.fleet = frames.foldl (Fleet.take fw) fleet

variable {fw : Firmware} {fleet : Fleet} {s : Session} {frames : List Frame}

theorem relays_start (robot : Robot) : Relays robot.firmware robot.fleet (start robot) [] where
  firmware := rfl
  sent := rfl
  count := rfl
  short _ hf := absurd hf List.not_mem_nil
  tells _ hf := absurd hf List.not_mem_nil
  fleet := rfl

/-- Only a motor driver can be given speeds. -/
theorem Relays.steer (h : Relays fw fleet s frames) {id : UInt8}
    {f : HBridge → HBridge × List Message}
    (hf : ∀ speeds, s.robot.fleet.get? id = some (.hbridge speeds) →
      ∃ frames, Relays fw fleet ⟨s.robot.adjust id fun _ => .hbridge (f speeds).1,
        s.sent ++ (f speeds).2.flatMap (Message.bytes fw), s.frames + (f speeds).2.length⟩ frames) :
    ∃ frames, Relays fw fleet (s.steer id f) frames := by
  obtain rfl := h.firmware
  unfold Session.steer
  split
  · exact hf _ ‹_›
  · exact ⟨frames, h⟩

/-! ### Orders -/

section Orders

variable (hset : fw.opcode? (fw.byte .set) = some .set ∨ fw.opcode? (fw.byte .set) = some .get)

include hset

theorem tells_frame {m : Message} (hop : m.opcode = .set) : (m.frame fw).Tells fw := by
  unfold Frame.Tells Message.frame
  rwa [hop]

/-- One more message with a state, which is written to the device at once. -/
theorem Relays.send (h : Relays fw fleet s frames) {m : Message} (hop : m.opcode = .set)
    (hshort : m.payload.length ≤ 255) (robot : Robot) (hfw : robot.firmware = fw)
    (hfleet : robot.fleet = s.robot.fleet.write m.device m.payload) :
    Relays fw fleet ⟨robot, s.sent ++ m.bytes fw, s.frames + 1⟩ (frames ++ [m.frame fw]) where
  firmware := hfw
  sent := by simp [h.sent, Frame.bytes_frame]
  count := by simp [h.count]
  short f hf := by
    rcases List.mem_append.1 hf with hf | hf
    · exact h.short f hf
    · rw [List.mem_singleton.1 hf]
      exact hshort
  tells f hf := by
    rcases List.mem_append.1 hf with hf | hf
    · exact h.tells f hf
    · rw [List.mem_singleton.1 hf]
      exact tells_frame hset hop
  fleet := by
    rw [hfleet, h.fleet, List.foldl_concat]
    exact (if_pos (tells_frame hset hop)).symm

theorem Relays.set (h : Relays fw fleet s frames) (id : UInt8)
    (payload : { payload : Bytes // payload.length ≤ 255 }) :
    ∃ frames, Relays fw fleet (s.perform (.set id payload)) frames := by
  obtain ⟨robot, sent, count⟩ := s
  obtain rfl : robot.firmware = fw := h.firmware
  cases hd : robot.fleet.get? id with
  | none =>
    -- the transport is not asked, so there is nothing for the other robot to drop
    have hsame : perform ⟨robot, sent, count⟩ (.set id payload) = ⟨robot, sent, count⟩ := by
      simp [perform, Robot.set_of_unknown hd, Robot.reject, Outcome.sent]
    rw [hsame]
    exact ⟨frames, h⟩
  | some d =>
    obtain ⟨events, heq⟩ := Robot.set_of_known hd payload
    have hput : perform ⟨robot, sent, count⟩ (.set id payload) =
        ⟨{ robot with fleet := robot.fleet.write id payload },
          sent ++ (Request.set id payload).message.bytes robot.firmware, count + 1⟩ := by
      simp only [perform, heq, Outcome.sent]
      rfl
    rw [hput]
    exact ⟨_, h.send hset rfl payload.2 _ rfl rfl⟩

theorem Relays.motor (h : Relays fw fleet s frames) (id motor : UInt8) (speed : Int8) :
    ∃ frames, Relays fw fleet (s.perform (.motor id motor speed)) frames := by
  show ∃ frames, Relays fw fleet (s.steer id fun speeds =>
    (speeds.withSpeed motor speed, [HBridge.speedMessage id motor speed])) frames
  refine h.steer fun speeds hd => ?_
  have hput := h.send hset rfl (HBridge.length_payload_le id motor speed)
    (s.robot.adjust id fun _ => .hbridge (speeds.withSpeed motor speed)) h.firmware
    (Fleet.adjust_eq_write hd motor speed)
  simp only [List.flatMap_singleton]
  exact ⟨_, hput⟩

theorem Relays.fullState (h : Relays fw fleet s frames) (id : UInt8) (left right : Int8) :
    ∃ frames, Relays fw fleet (s.perform (.fullState id left right)) frames := by
  show ∃ frames, Relays fw fleet (s.steer id fun _ =>
    (⟨left, right⟩, [HBridge.speedMessage id 0 left, HBridge.speedMessage id 1 right])) frames
  refine h.steer fun speeds hd => ?_
  -- the first message is followed by a robot that knows the left speed only
  have hleft := h.send hset rfl (HBridge.length_payload_le id 0 left)
    { s.robot with fleet := s.robot.fleet.write id [0, left.toUInt8] } h.firmware rfl
  have hright := hleft.send hset rfl (HBridge.length_payload_le id 1 right)
    (s.robot.adjust id fun _ => .hbridge ⟨left, right⟩) h.firmware
    (Fleet.adjust_eq_write_write hd left right)
  rw [List.append_assoc] at hright
  simp only [List.flatMap_cons, List.flatMap_nil, List.append_nil]
  exact ⟨_, hright⟩

theorem Relays.perform (h : Relays fw fleet s frames) (order : Order) :
    ∃ frames, Relays fw fleet (s.perform order) frames := by
  cases order with
  | set id payload => exact h.set hset id payload
  | motor id motor speed => exact h.motor hset id motor speed
  | fullState id left right => exact h.fullState hset id left right

theorem exists_relays (orders : List Order) (h : Relays fw fleet s frames) :
    ∃ frames, Relays fw fleet (orders.foldl perform s) frames := by
  induction orders generalizing s frames with
  | nil => exact ⟨frames, h⟩
  | cons order orders ih =>
    obtain ⟨_, h'⟩ := h.perform hset order
    exact ih h'

end Orders

end Session

/-! ## The second robot -/

/-- All frames that tell a state are applied or dropped. -/
theorem Robot.account_of_tells {robot : Robot} {frames : List Frame}
    (h : ∀ f ∈ frames, f.Tells robot.firmware) :
    (robot.account frames).applied + (robot.account frames).dropped = frames.length := by
  have happlied : (robot.account frames).applied =
      frames.countP fun f => robot.fleet.Fits f.device f.payload :=
    List.countP_congr fun f hf => by simp [h f hf]
  have hdropped : (robot.account frames).dropped =
      frames.countP fun f => ¬ decide (robot.fleet.Fits f.device f.payload) :=
    List.countP_congr fun f hf => by simp [h f hf]
  rw [happlied, hdropped, ← List.length_eq_countP_add_countP]

/-- A second robot that receives the buffer comes to know the same of its devices, and it counts
each message that was put there once. -/
theorem receive_relayed (robot peer : Robot)
    (hset : robot.firmware.opcode? (robot.firmware.byte .set) = some .set ∨
      robot.firmware.opcode? (robot.firmware.byte .set) = some .get)
    (hfw : peer.firmware = robot.firmware) (hfleet : peer.fleet = robot.fleet)
    (orders : List Order) :
    let session := orders.foldl Session.perform (.start robot)
    let peer' := (peer.receive session.sent).1
    peer'.fleet = session.robot.fleet ∧
      peer'.tally.applied + peer'.tally.dropped =
        peer.tally.applied + peer.tally.dropped + session.frames := by
  intro session peer'
  obtain ⟨frames, h⟩ := Session.exists_relays hset orders (Session.relays_start robot)
  have hsplit : Frame.splitAll session.sent = (frames, []) := by
    rw [h.sent]
    exact Frame.splitAll_flatMap_bytes h.short
  constructor
  · rw [h.fleet, ← hfleet, ← hfw]
    show (peer.receive session.sent).1.fleet = _
    rw [Robot.fleet_receive, hsplit]
  · have htells : ∀ f ∈ frames, f.Tells peer.firmware := by
      rw [hfw]
      exact h.tells
    have hcount := Robot.account_of_tells htells
    have htally := peer.tally_receive hsplit
    rw [h.count, ← hcount]
    show (peer.receive session.sent).1.tally.applied + (peer.receive session.sent).1.tally.dropped
      = _
    rw [htally, Tally.lost, if_pos rfl]
    simp only [Tally.applied_add, Tally.dropped_add]
    omega

/-- Speeds, a state for nobody, states that fit and that do not, and speeds for both motors. -/
theorem receive_relayed_orders : ∃ robot peer : Robot,
    robot = ⟨.standard, (Fleet.empty.insert 1 (.ofClass 2)).insert 3 (.ofClass 9), ⟨0, 0, 0⟩⟩ ∧
    peer = { robot with tally := ⟨7, 1, 0⟩ } ∧
    ∃ session, [Order.motor 1 0 (-3), .set 9 ⟨[1], by decide⟩, .set 3 ⟨[1, 2], by decide⟩,
        .set 1 ⟨[1, 2, 3], by decide⟩, .fullState 1 4 5].foldl Session.perform (.start robot) =
          session ∧
      (peer.receive session.sent).1.fleet = session.robot.fleet ∧
      (peer.receive session.sent).1.tally.applied + (peer.receive session.sent).1.tally.dropped =
        13 := by
  refine ⟨_, _, rfl, rfl, _, rfl, ?_⟩
  obtain ⟨hfleet, htally⟩ := receive_relayed
    ⟨.standard, (Fleet.empty.insert 1 (.ofClass 2)).insert 3 (.ofClass 9), ⟨0, 0, 0⟩⟩
    ⟨.standard, (Fleet.empty.insert 1 (.ofClass 2)).insert 3 (.ofClass 9), ⟨7, 1, 0⟩⟩
    (.inl (by decide)) rfl rfl [.motor 1 0 (-3), .set 9 ⟨[1], by decide⟩,
      .set 3 ⟨[1, 2], by decide⟩, .set 1 ⟨[1, 2, 3], by decide⟩, .fullState 1 4 5]
  exact ⟨hfleet, htally.trans (by decide +kernel)⟩

end Botscript
