import Botscript.Robot.Device

/-!
# Fleets

A `Fleet` holds the devices of a robot by id, in one slot for each of the 256 ids. Two fleets that
answer alike for every id are equal (`ext_get?`).
-/

namespace Botscript

/-- The devices of a robot by id. -/
structure Fleet where
  slots : Vector (Option Device) 256
deriving DecidableEq

namespace Fleet

/-- The fleet without devices. -/
def empty : Fleet := ⟨Vector.replicate 256 none⟩

/-- The device with an id. -/
def get? (fleet : Fleet) (id : UInt8) : Option Device :=
  have : id.toNat < 256 := id.toNat_lt
  fleet.slots[id.toNat]

/-- The fleet with another device in a slot. -/
def put (fleet : Fleet) (id : UInt8) (device : Option Device) : Fleet :=
  ⟨fleet.slots.set id.toNat device id.toNat_lt⟩

/-- Adds a device; one with the same id gives way. -/
def insert (fleet : Fleet) (id : UInt8) (device : Device) : Fleet := fleet.put id (some device)

/-- Changes the device with an id, if there is one. -/
def adjust (fleet : Fleet) (id : UInt8) (f : Device → Device) : Fleet :=
  fleet.put id ((fleet.get? id).map f)

/-- Changes every device. -/
def map (fleet : Fleet) (f : Device → Device) : Fleet := ⟨fleet.slots.map (Option.map f)⟩

/-- The devices with their ids, in the order of the ids. -/
def toList (fleet : Fleet) : List (UInt8 × Device) :=
  (List.range 256).filterMap fun n => (fleet.get? (.ofNat n)).map (UInt8.ofNat n, ·)

theorem ext_get? {fleet fleet' : Fleet} (h : ∀ id, fleet.get? id = fleet'.get? id) :
    fleet = fleet' := by
  obtain ⟨slots⟩ := fleet
  obtain ⟨slots'⟩ := fleet'
  congr 1
  ext1 i hi
  simpa [get?, Nat.mod_eq_of_lt hi] using h (.ofNat i)

@[simp] theorem get?_empty (id : UInt8) : empty.get? id = none := by simp [get?, empty]

theorem get?_put (fleet : Fleet) (id other : UInt8) (device : Option Device) :
    (fleet.put id device).get? other = if id = other then device else fleet.get? other := by
  simp only [get?, put, Vector.getElem_set, UInt8.toNat_inj]

@[simp] theorem get?_map (fleet : Fleet) (f : Device → Device) (id : UInt8) :
    (fleet.map f).get? id = (fleet.get? id).map f := by
  simp [get?, map]

end Fleet

end Botscript
