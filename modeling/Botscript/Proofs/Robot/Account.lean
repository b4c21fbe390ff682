import Botscript.Proofs.Robot.Stream
import Botscript.Proofs.Robot.Writing

/-!
# What becomes of received bytes

Each frame that is received is applied, dropped, counted as acknowledgement or ignored, and each
time that something is dropped is reported once (`receive_account`). Bytes that are frames to the
end may be received apart from what follows them (`receive_append`).
-/

namespace Botscript

/-! ## Counts -/

attribute [ext] Tally

namespace Tally

instance : Add Tally where
  add t u := ⟨t.applied + u.applied, t.dropped + u.dropped, t.acknowledged + u.acknowledged⟩

@[simp] theorem applied_add (t u : Tally) : (t + u).applied = t.applied + u.applied := rfl

@[simp] theorem dropped_add (t u : Tally) : (t + u).dropped = t.dropped + u.dropped := rfl

@[simp] theorem acknowledged_add (t u : Tally) :
    (t + u).acknowledged = t.acknowledged + u.acknowledged := rfl

theorem add_assoc (t u v : Tally) : t + u + v = t + (u + v) :=
  Tally.ext (Nat.add_assoc ..) (Nat.add_assoc ..) (Nat.add_assoc ..)

/-- Bytes that are thrown away, or none. -/
def lost (bytes : Bytes) : Tally := ⟨0, if bytes = [] then 0 else 1, 0⟩

end Tally

namespace Robot

/-- What a robot counts for some frames: states for known devices that fit them, all other states,
and acknowledgements. -/
def account (robot : Robot) (frames : List Frame) : Tally where
  applied := frames.countP fun f =>
    f.Tells robot.firmware ∧ robot.fleet.Fits f.device f.payload
  dropped := frames.countP fun f =>
    f.Tells robot.firmware ∧ ¬ robot.fleet.Fits f.device f.payload
  acknowledged := frames.countP fun f => f.Acknowledges robot.firmware

variable {robot : Robot}

/-- Frames change nothing that decides what is counted for later ones. -/
theorem account_handle (robot : Robot) (f : Frame) (frames : List Frame) :
    (robot.handle f).1.account frames = robot.account frames := by
  unfold account
  simp only [firmware_handle, fleet_handle, Fleet.fits_take]

theorem account_append (robot : Robot) (front back : List Frame) :
    robot.account (front ++ back) = robot.account front + robot.account back :=
  Tally.ext List.countP_append List.countP_append List.countP_append

theorem account_cons (robot : Robot) (f : Frame) (frames : List Frame) :
    robot.account (f :: frames) = robot.account [f] + robot.account frames :=
  robot.account_append [f] frames

theorem account_of_fits {f : Frame} (h : f.Tells robot.firmware)
    (hf : robot.fleet.Fits f.device f.payload) : robot.account [f] = ⟨1, 0, 0⟩ := by
  have ha : ¬ f.Acknowledges robot.firmware := fun ha => Frame.not_tells_of_acknowledges ha h
  simp [account, h, hf, ha]

theorem account_of_not_fits {f : Frame} (h : f.Tells robot.firmware)
    (hf : ¬ robot.fleet.Fits f.device f.payload) : robot.account [f] = ⟨0, 1, 0⟩ := by
  have ha : ¬ f.Acknowledges robot.firmware := fun ha => Frame.not_tells_of_acknowledges ha h
  simp [account, h, hf, ha]

theorem account_of_acknowledges {f : Frame} (ha : f.Acknowledges robot.firmware) :
    robot.account [f] = ⟨0, 0, 1⟩ := by
  have h : ¬ f.Tells robot.firmware := Frame.not_tells_of_acknowledges ha
  simp [account, h, ha]

theorem account_of_ignored {f : Frame} (h : ¬ f.Tells robot.firmware)
    (ha : ¬ f.Acknowledges robot.firmware) : robot.account [f] = ⟨0, 0, 0⟩ := by
  simp [account, h, ha]

/-- A frame is counted once. -/
theorem tally_handle (robot : Robot) (f : Frame) :
    (robot.handle f).1.tally = robot.tally + robot.account [f] := by
  have hr := robot.handled f
  generalize robot.handle f = result at hr ⊢
  cases hr with
  | applied h hf => rw [account_of_fits h hf]; rfl
  | dropped h hf reason => rw [account_of_not_fits h hf]; rfl
  | acknowledged ha => rw [account_of_acknowledges ha]; rfl
  | ignored h ha => rw [account_of_ignored h ha]; rfl

theorem tally_handleAll (robot : Robot) (frames : List Frame) :
    (robot.handleAll frames).1.tally = robot.tally + robot.account frames := by
  induction frames generalizing robot with
  | nil => rfl
  | cons f frames ih =>
    show ((robot.handle f).1.handleAll frames).1.tally = _
    rw [ih, account_handle, tally_handle, account_cons robot f frames, Tally.add_assoc]

/-! ## Reports -/

/-- The totals of the warnings among some events, as far as these tell any. -/
def warnings (events : List Event) : List (Option Nat) :=
  (events.filter fun e => e.level = .warn).map Event.total?

theorem warnings_append (events later : List Event) :
    warnings (events ++ later) = warnings events ++ warnings later := by
  unfold warnings
  rw [List.filter_append, List.map_append]

/-- A frame that is dropped is reported with the new total. -/
theorem warnings_handle (robot : Robot) (f : Frame) :
    warnings (robot.handle f).2 =
      (List.range' (robot.tally.dropped + 1) (robot.account [f]).dropped).map some := by
  have hr := robot.handled f
  generalize robot.handle f = result at hr ⊢
  cases hr with
  | applied h hf => rw [account_of_fits h hf]; rfl
  | dropped h hf reason => rw [account_of_not_fits h hf]; rfl
  | acknowledged ha => rw [account_of_acknowledges ha]; rfl
  | ignored h ha => rw [account_of_ignored h ha]; rfl

theorem warnings_handleAll (robot : Robot) (frames : List Frame) :
    warnings (robot.handleAll frames).2 =
      (List.range' (robot.tally.dropped + 1) (robot.account frames).dropped).map some := by
  induction frames generalizing robot with
  | nil => rfl
  | cons f frames ih =>
    show warnings ((robot.handle f).2 ++ ((robot.handle f).1.handleAll frames).2) = _
    rw [warnings_append, warnings_handle, ih, account_handle, tally_handle,
      account_cons robot f frames, Tally.dropped_add, Tally.dropped_add, Nat.add_right_comm _ _ 1,
      ← List.map_append, List.range'_append_1]

/-! ## Received bytes -/

variable {bytes left : Bytes} {frames : List Frame}

/-- What is received in front of other bytes may be received apart, if it is frames to the end. -/
theorem receive_append (robot : Robot) {front : Bytes} (h : (Frame.splitAll front).2 = [])
    (back : Bytes) :
    robot.receive (front ++ back) =
      (((robot.receive front).1.receive back).1,
        (robot.receive front).2 ++ ((robot.receive front).1.receive back).2) := by
  have hsplit := (Frame.decodes_splitAll front).splitAll_append h back
  rw [receive_of_whole h]
  by_cases hb : (Frame.splitAll back).2 = []
  · rw [receive_of_whole hb, receive_of_whole (by rw [hsplit]; exact hb), hsplit,
      handleAll_append]
  · rw [receive_of_cut hb, receive_of_cut (by rw [hsplit]; exact hb), hsplit, handleAll_append]
    simp only [List.append_assoc]

/-- What is counted for received bytes. -/
theorem tally_receive (robot : Robot) (h : Frame.splitAll bytes = (frames, left)) :
    (robot.receive bytes).1.tally = robot.tally + robot.account frames + .lost left := by
  by_cases hl : left = []
  · rw [receive_of_whole (by rw [h]; exact hl), h, tally_handleAll, hl]
    rfl
  · rw [receive_of_cut (by rw [h]; exact hl), h, ← tally_handleAll, Tally.lost, if_neg hl]
    rfl

theorem warnings_receive (robot : Robot) (h : Frame.splitAll bytes = (frames, left)) :
    warnings (robot.receive bytes).2 =
      (List.range' (robot.tally.dropped + 1)
        (robot.account frames + .lost left).dropped).map some := by
  by_cases hl : left = []
  · rw [receive_of_whole (by rw [h]; exact hl), h, warnings_handleAll, hl]
    rfl
  · -- the report of what is left carries the total after all frames
    rw [receive_of_cut (by rw [h]; exact hl), h, warnings_append, warnings_handleAll, Tally.lost,
      if_neg hl, Tally.dropped_add, List.range'_1_concat, List.map_append, drop, tally_handleAll,
      Tally.dropped_add, Nat.add_right_comm]
    rfl

theorem isSome_get?_receive (robot : Robot) (bytes : Bytes) (id : UInt8) :
    ((robot.receive bytes).1.fleet.get? id).isSome = (robot.fleet.get? id).isSome := by
  rw [fleet_receive, Fleet.get?_foldl_take, Option.isSome_map]

end Robot

/-- A frame whose opcode byte stands for nothing, or for something that is not taken in. -/
def Frame.Ignored (fw : Firmware) (f : Frame) : Prop :=
  ∀ op, fw.opcode? f.command = some op → op ≠ .set ∧ op ≠ .get ∧ op ≠ .done

theorem Frame.ignored_iff {fw : Firmware} {f : Frame} :
    f.Ignored fw ↔ ¬ f.Tells fw ∧ ¬ f.Acknowledges fw := by
  unfold Ignored Tells Acknowledges
  constructor
  · intro h
    exact ⟨fun ht => ht.elim (fun hs => (h _ hs).1 rfl) fun hg => (h _ hg).2.1 rfl,
      fun ha => (h _ ha).2.2 rfl⟩
  · rintro ⟨ht, ha⟩ op hop
    refine ⟨?_, ?_, ?_⟩
    · rintro rfl; exact ht (.inl hop)
    · rintro rfl; exact ht (.inr hop)
    · rintro rfl; exact ha hop

variable {bytes left : Bytes} {frames : List Frame}

/-- All bytes that are received are accounted for once. -/
theorem receive_account (robot : Robot) (h : Frame.Decodes bytes frames left) :
    (robot.receive bytes).1.tally.applied = robot.tally.applied +
      frames.countP (fun f => f.Tells robot.firmware ∧ robot.fleet.Fits f.device f.payload) ∧
    (robot.receive bytes).1.tally.acknowledged = robot.tally.acknowledged +
      frames.countP (fun f => f.Acknowledges robot.firmware) ∧
    (robot.receive bytes).1.tally.dropped = robot.tally.dropped +
      frames.countP (fun f => f.Tells robot.firmware ∧ ¬ robot.fleet.Fits f.device f.payload) +
      (if left = [] then 0 else 1) ∧
    (∀ f : Frame, f.Ignored robot.firmware ↔
      ¬ (f.Tells robot.firmware ∧ robot.fleet.Fits f.device f.payload) ∧
      ¬ (f.Tells robot.firmware ∧ ¬ robot.fleet.Fits f.device f.payload) ∧
      ¬ f.Acknowledges robot.firmware) ∧
    ((robot.receive bytes).2.filter fun e => e.level = .warn).map Event.total? =
      (List.range' (robot.tally.dropped + 1)
        ((robot.receive bytes).1.tally.dropped - robot.tally.dropped)).map some ∧
    (∀ id, ((robot.receive bytes).1.fleet.get? id).isSome = (robot.fleet.get? id).isSome) ∧
    (left = [] → ∀ more,
      (robot.receive (bytes ++ more)).1 = ((robot.receive bytes).1.receive more).1) := by
  have hs := h.splitAll_eq
  have htally := robot.tally_receive hs
  refine ⟨?_, ?_, ?_, ?_, ?_, robot.isSome_get?_receive bytes, ?_⟩
  · rw [htally]; rfl
  · rw [htally]; rfl
  · rw [htally]; rfl
  · intro f
    rw [Frame.ignored_iff]
    by_cases ht : f.Tells robot.firmware <;> by_cases hf : robot.fleet.Fits f.device f.payload <;>
      simp [ht, hf]
  · have hgrown : (robot.receive bytes).1.tally.dropped - robot.tally.dropped =
        (robot.account frames + .lost left).dropped := by
      rw [htally, Tally.add_assoc, Tally.dropped_add]
      omega
    rw [hgrown]
    exact robot.warnings_receive hs
  · intro hl more
    have hfront : (Frame.splitAll bytes).2 = [] := by rw [hs]; exact hl
    rw [robot.receive_append hfront]

/-- A state, one that does not fit, one for nobody, an acknowledgement, a command, and a frame that
is cut off. -/
theorem receive_account_mixed :
    Frame.Decodes [5, 1, 2, 0, 127, 4, 1, 3, 0, 0, 0, 5, 9, 0, 7, 1, 0, 1, 1, 0, 5, 1, 5]
      [⟨5, 1, [0, 127]⟩, ⟨4, 1, [0, 0, 0]⟩, ⟨5, 9, []⟩, ⟨7, 1, []⟩, ⟨1, 1, []⟩] [5, 1, 5] ∧
    ∃ robot : Robot, robot = ⟨.standard, Fleet.empty.insert 1 (.ofClass 2), ⟨0, 0, 0⟩⟩ ∧
      ∃ robot', (robot.receive [5, 1, 2, 0, 127, 4, 1, 3, 0, 0, 0, 5, 9, 0, 7, 1, 0, 1, 1, 0, 5,
          1, 5]).1 = robot' ∧
        robot'.tally.applied = 1 ∧ robot'.tally.dropped = 3 ∧ robot'.tally.acknowledged = 1 := by
  have hd : Frame.Decodes [5, 1, 2, 0, 127, 4, 1, 3, 0, 0, 0, 5, 9, 0, 7, 1, 0, 1, 1, 0, 5, 1, 5]
      [⟨5, 1, [0, 127]⟩, ⟨4, 1, [0, 0, 0]⟩, ⟨5, 9, []⟩, ⟨7, 1, []⟩, ⟨1, 1, []⟩] [5, 1, 5] :=
    Frame.decodes_iff.2 (by decide)
  obtain ⟨happlied, hacknowledged, hdropped, -⟩ :=
    receive_account ⟨.standard, Fleet.empty.insert 1 (.ofClass 2), ⟨0, 0, 0⟩⟩ hd
  refine ⟨hd, _, rfl, _, rfl, happlied.trans ?_, hdropped.trans ?_, hacknowledged.trans ?_⟩
  · decide +kernel
  · decide +kernel
  · decide +kernel

end Botscript
