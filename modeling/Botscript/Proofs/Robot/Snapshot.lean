import Botscript.Proofs.Robot.Replay

/-!
# Reading snapshots

A snapshot is a list of entries, each an id, the length of a state and the state. Such bytes can be
read in one way only (`Entries.unique`). The lengths are true as long as no device is added whose
state does not fit behind its length (`Robot.short_run`), so what is known of the devices can be
told from a snapshot (`snapshot_entries`).
-/

namespace Botscript

/-! ## Entries -/

/-- Bytes that are entries to the end: an id, a length, and as many bytes. -/
inductive Entries : Bytes → List (UInt8 × Bytes) → Prop
  | nil : Entries [] []
  | cons {id length : UInt8} {state bytes : Bytes} {entries : List (UInt8 × Bytes)}
    (hlength : length.toNat = state.length) (h : Entries bytes entries) :
    Entries (id :: length :: (state ++ bytes)) ((id, state) :: entries)

/-- There is only one way to split bytes into entries. -/
theorem Entries.unique {bytes : Bytes} {entries entries' : List (UInt8 × Bytes)}
    (h : Entries bytes entries) (h' : Entries bytes entries') : entries = entries' := by
  induction h generalizing entries' with
  | nil => cases h'; rfl
  | @cons id length state bytes entries hlength h ih =>
    generalize hb : id :: length :: (state ++ bytes) = all at h'
    cases h' with
    | nil => cases hb
    | @cons id' length' state' bytes' entries' hlength' h' =>
      rw [List.cons.injEq, List.cons.injEq] at hb
      obtain ⟨hid, hl, hb⟩ := hb
      rw [hl, hlength'] at hlength
      obtain ⟨hstate, rfl⟩ := List.append_inj hb hlength.symm
      rw [hid, hstate, ih h']

namespace Device

/-- The length of the state fits into one byte. -/
def Short (d : Device) : Prop := d.state.length ≤ 255

instance (d : Device) : Decidable d.Short := inferInstanceAs (Decidable (_ ≤ _))

theorem short_hbridge (h : HBridge) : (hbridge h).Short := by simp [Short, state]

theorem short_ofClass (classId : UInt8) : (ofClass classId).Short := by
  unfold ofClass
  split
  · exact short_hbridge _
  · exact Nat.zero_le _

theorem short_write {d : Device} (h : d.Short) (payload : Bytes) : (d.write payload).Short := by
  by_cases hf : d.Fits payload
  · cases d with
    | hbridge speeds =>
      obtain ⟨motor, speed, rfl⟩ := List.length_eq_two.1 hf
      exact short_hbridge _
    | raw classId state =>
      rw [write_raw classId state hf]
      exact hf
  · rwa [write_of_not_fits hf]

theorem short_reset (d : Device) : d.reset.Short := by cases d <;> simp [reset, Short, state]

theorem short_change {d : Device} (h : d.Short) (c : Change) : (d.change c).Short := by
  cases c with
  | write payload => exact short_write h payload
  | reset => exact short_reset d

theorem short_replay {d : Device} (h : d.Short) (changes : List Change) :
    (d.replay changes).Short := by
  induction changes generalizing d with
  | nil => exact h
  | cons c changes ih => exact ih (short_change h c)

/-- Devices of one sort are told apart by their states. -/
theorem state_hbridge_inj {h h' : HBridge} (hs : (hbridge h).state = (hbridge h').state) :
    h = h' := by
  obtain ⟨left, right⟩ := h
  obtain ⟨left', right'⟩ := h'
  simp only [state, List.cons.injEq, and_true] at hs
  obtain ⟨hl, hr⟩ := hs
  have hl : left = left' := by simpa using congrArg UInt8.toInt8 hl
  have hr : right = right' := by simpa using congrArg UInt8.toInt8 hr
  rw [hl, hr]

end Device

namespace Fleet

variable {fleet : Fleet}

theorem mem_toList {id : UInt8} {d : Device} :
    (id, d) ∈ fleet.toList ↔ fleet.get? id = some d := by
  simp only [toList, List.mem_filterMap, List.mem_range, Option.map_eq_some_iff, Prod.mk.injEq]
  constructor
  · rintro ⟨n, -, d', hd, hid, rfl⟩
    rwa [hid] at hd
  · intro hd
    exact ⟨id.toNat, id.toNat_lt, d, by simpa using hd, by simp, rfl⟩

/-- The devices come in the order of their ids. -/
theorem pairwise_toList (fleet : Fleet) : (fleet.toList.map Prod.fst).Pairwise (· < ·) := by
  rw [List.pairwise_map, toList, List.pairwise_filterMap]
  refine (List.pairwise_lt_range (n := 256)).imp_of_mem fun {n m} hn hm hlt => ?_
  rintro p hp q hq
  obtain ⟨d, -, rfl⟩ := Option.map_eq_some_iff.1 hp
  obtain ⟨d', -, rfl⟩ := Option.map_eq_some_iff.1 hq
  have hn := List.mem_range.1 hn
  have hm := List.mem_range.1 hm
  show UInt8.ofNat n < UInt8.ofNat m
  rw [UInt8.lt_iff_toNat_lt]
  simpa [Nat.mod_eq_of_lt hn, Nat.mod_eq_of_lt hm] using hlt

/-- The ids and states of all devices. -/
def states (fleet : Fleet) : List (UInt8 × Bytes) :=
  fleet.toList.map fun p => (p.1, p.2.state)

theorem mem_states {id : UInt8} {state : Bytes} :
    (id, state) ∈ fleet.states ↔ ∃ d, fleet.get? id = some d ∧ d.state = state := by
  simp only [states, List.mem_map, Prod.mk.injEq, Prod.exists, mem_toList]
  constructor
  · rintro ⟨_, d, hd, rfl, hs⟩
    exact ⟨d, hd, hs⟩
  · rintro ⟨d, hd, hs⟩
    exact ⟨id, d, hd, rfl, hs⟩

theorem pairwise_states (fleet : Fleet) : (fleet.states.map Prod.fst).Pairwise (· < ·) := by
  have h := fleet.pairwise_toList
  rwa [states, List.map_map]

/-- What is known of devices can be told from the list of their states. -/
theorem map_state_eq {fleet fleet' : Fleet} (h : fleet.states = fleet'.states) (id : UInt8) :
    (fleet.get? id).map Device.state = (fleet'.get? id).map Device.state := by
  ext state
  rw [Option.map_eq_some_iff, Option.map_eq_some_iff, ← mem_states, ← mem_states, h]

/-- The states of all devices fit behind their lengths. -/
def Short (fleet : Fleet) : Prop := ∀ id d, fleet.get? id = some d → d.Short

end Fleet

/-- A step that adds no device whose state is too long. -/
def Step.Short : Step → Prop
  | add _ _ device _ => device.Short
  | _ => True

instance (s : Step) : Decidable s.Short :=
  match s with
  | .add _ _ device _ => inferInstanceAs (Decidable device.Short)
  | .set .. | .poll .. | .receive _ | .reset => inferInstanceAs (Decidable True)

theorem Step.Short.of_added {s : Step} (h : s.Short) {id : UInt8} {d : Device}
    (hd : s.added? id = some d) : d.Short := by
  obtain ⟨device, config, rfl⟩ := isSome_added?_iff.1 (by rw [hd]; rfl)
  rw [added?, if_pos rfl, Option.some.injEq] at hd
  exact hd ▸ h

namespace Robot

theorem short_step {robot : Robot} (h : robot.fleet.Short) {s : Step} (hs : s.Short) :
    (robot.step s).robot.fleet.Short := by
  intro id d hd
  rw [get?_step, Option.or_eq_some_iff] at hd
  obtain hd | ⟨-, hd⟩ := hd
  · exact hs.of_added hd
  · obtain ⟨d', hd', rfl⟩ := Option.map_eq_some_iff.1 hd
    exact Device.short_replay (h id d' hd') _

theorem short_run {robot : Robot} (h : robot.fleet.Short) {steps : List Step}
    (hs : ∀ s ∈ steps, s.Short) : (robot.run steps).fleet.Short := by
  induction steps generalizing robot with
  | nil => exact h
  | cons s steps ih =>
    exact ih (short_step h (hs s List.mem_cons_self)) fun s hm => hs s (List.mem_cons_of_mem _ hm)

theorem short_new (fw : Firmware) : (new fw).fleet.Short := by
  intro id d hd
  rw [new, Fleet.get?_empty] at hd
  cases hd

/-- A snapshot is the list of the states, if all of them are short. -/
theorem entries_snapshot {robot : Robot} (h : robot.fleet.Short) :
    Entries robot.snapshot robot.fleet.states := by
  have hmem : ∀ p ∈ robot.fleet.toList, p.2.Short := fun p hp => h p.1 p.2 (Fleet.mem_toList.1 hp)
  unfold snapshot Fleet.states
  generalize robot.fleet.toList = devices at hmem
  induction devices with
  | nil => exact .nil
  | cons p devices ih =>
    rw [List.flatMap_cons, List.map_cons]
    refine .cons ?_ (ih fun q hq => hmem q (List.mem_cons_of_mem _ hq))
    have hle : p.2.state.length ≤ 255 := hmem p List.mem_cons_self
    simp [Nat.mod_eq_of_lt (Nat.lt_succ_of_le hle)]

/-- A robot after a run from the start in which no device was added whose state is too long. -/
def Driven (robot : Robot) : Prop :=
  ∃ fw steps, (∀ s ∈ steps, Step.Short s) ∧ (new fw).run steps = robot

theorem Driven.short {robot : Robot} (h : robot.Driven) : robot.fleet.Short := by
  obtain ⟨fw, steps, hs, rfl⟩ := h
  exact short_run (short_new fw) hs

theorem Driven.entries {robot : Robot} (h : robot.Driven) :
    Entries robot.snapshot robot.fleet.states := entries_snapshot h.short

/-- A snapshot can be read back. It is put behind what is in a buffer, and it splits into entries in
one way: one for each device, in the order of the ids, with its state. So two robots with the same
snapshot know the same of their devices, but perhaps for the sort and class of these. -/
theorem snapshot_entries {robot : Robot} (h : robot.Driven) :
    (∀ classId, (Device.ofClass classId).Short) ∧
    (∀ id classId state, robot.fleet.get? id = some (.raw classId state) → state.length ≤ 255) ∧
    (∀ buffer, robot.putSnapshot buffer = buffer ++ robot.snapshot) ∧
    (∃ entries, Entries robot.snapshot entries ∧
      (∀ entries', Entries robot.snapshot entries' → entries' = entries) ∧
      (entries.map Prod.fst).Pairwise (· < ·) ∧
      ∀ id state, (id, state) ∈ entries ↔ ∃ d, robot.fleet.get? id = some d ∧ d.state = state) ∧
    ∀ robot' : Robot, robot'.Driven → robot'.snapshot = robot.snapshot → ∀ id,
      (robot'.fleet.get? id).isSome = (robot.fleet.get? id).isSome ∧
      (∀ speeds speeds', robot.fleet.get? id = some (.hbridge speeds) →
        robot'.fleet.get? id = some (.hbridge speeds') → speeds' = speeds) ∧
      ∀ classId classId' state state', robot.fleet.get? id = some (.raw classId state) →
        robot'.fleet.get? id = some (.raw classId' state') → state' = state := by
  refine ⟨Device.short_ofClass, fun id classId state hd => h.short id _ hd, putSnapshot_eq _,
    ⟨_, h.entries, fun entries' h' => h'.unique h.entries, Fleet.pairwise_states _,
      fun id state => Fleet.mem_states⟩, fun robot' h' hsnapshot id => ?_⟩
  have hentries' := h'.entries
  rw [hsnapshot] at hentries'
  have hstate := Fleet.map_state_eq (hentries'.unique h.entries) id
  refine ⟨by simpa using congrArg Option.isSome hstate, fun speeds speeds' hd hd' => ?_,
    fun classId classId' state state' hd hd' => ?_⟩
  · rw [hd, hd', Option.map_some, Option.map_some, Option.some.injEq] at hstate
    exact Device.state_hbridge_inj hstate
  · rw [hd, hd', Option.map_some, Option.map_some, Option.some.injEq] at hstate
    exact hstate

/-- A motor driver, and a device whose state was reported. -/
theorem snapshot_entries_wheels :
    ∃ robot : Robot, robot = (new .standard).run [.add .accepted 7 (.ofClass 2) [],
        .add .accepted 3 (.raw 9 [1, 2]) [], .set .accepted 7 [0, 200], .receive [4, 3, 1, 8],
        .add (.refused "cable unplugged") 4 (.ofClass 9) []] ∧
      robot.Driven ∧ robot.snapshot = [3, 1, 8, 7, 2, 200, 0] ∧
      ∀ entries, Entries [3, 1, 8, 7, 2, 200, 0] entries → entries = [(3, [8]), (7, [200, 0])] := by
  have hdriven : ((new .standard).run [.add .accepted 7 (.ofClass 2) [],
      .add .accepted 3 (.raw 9 [1, 2]) [], .set .accepted 7 [0, 200], .receive [4, 3, 1, 8],
      .add (.refused "cable unplugged") 4 (.ofClass 9) []]).Driven :=
    ⟨.standard, _, by decide, rfl⟩
  obtain ⟨-, -, -, ⟨entries, -, hunique, -⟩, -⟩ := snapshot_entries hdriven
  have hbytes : ((new .standard).run [.add .accepted 7 (.ofClass 2) [],
      .add .accepted 3 (.raw 9 [1, 2]) [], .set .accepted 7 [0, 200], .receive [4, 3, 1, 8],
      .add (.refused "cable unplugged") 4 (.ofClass 9) []]).snapshot =
      [3, 1, 8, 7, 2, 200, 0] := by decide +kernel
  rw [hbytes] at hunique
  have hlast : Entries (7 :: 2 :: ([200, 0] ++ [])) [(7, [200, 0])] := .cons rfl .nil
  have hentries : Entries (3 :: 1 :: ([8] ++ 7 :: 2 :: ([200, 0] ++ [])))
      [(3, [8]), (7, [200, 0])] := .cons rfl hlast
  exact ⟨_, rfl, hdriven, hbytes, fun entries' h => (hunique _ h).trans (hunique _ hentries).symm⟩

end Robot

end Botscript
