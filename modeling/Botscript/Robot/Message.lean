import Botscript.Robot.Event

/-!
# Messages and frames

A message on the wire is an opcode byte, a device id, the length of the payload in one byte, and
the payload. `Message.bytes` writes one and `Frame.split?` takes one off the front of received
bytes; `Frame.splitAll` goes on until what is left holds no whole frame. A frame is split off again
whatever follows it (`split?_bytes_append`), and splitting loses nothing (`bytes_splitAll`).
-/

namespace Botscript

/-- Bytes as they are sent and received. -/
abbrev Bytes := List UInt8

/-! ## Messages -/

/-- What is to be told to a device. -/
structure Message where
  opcode : Opcode
  device : UInt8
  payload : Bytes
deriving DecidableEq, Repr

namespace Message

/-- The bytes of a message. The length byte holds the length modulo 256. -/
def bytes (fw : Firmware) (m : Message) : Bytes :=
  fw.byte m.opcode :: m.device :: UInt8.ofNat m.payload.length :: m.payload

/-- Writes a message at the end of a buffer. -/
def put (fw : Firmware) (buffer : Bytes) (m : Message) : Bytes := buffer ++ m.bytes fw

/-- What is to be reported when a message is written. -/
def events (m : Message) : List Event :=
  if 255 < m.payload.length then [.oversized m.device m.payload.length] else []

end Message

/-- What may be asked of a device by id. -/
inductive Request where
  /-- Give the device a new state. -/
  | set (device : UInt8) (payload : Bytes)
  /-- Register the device, with bytes that only the robot understands. -/
  | add (device : UInt8) (config : Bytes)
  /-- Have the device report its state. -/
  | get (device : UInt8)
deriving DecidableEq, Repr

/-- The message that carries a request. -/
def Request.message : Request → Message
  | set device payload => ⟨.set, device, payload⟩
  | add device config => ⟨.add, device, config⟩
  | get device => ⟨.get, device, []⟩

/-- Writes the message of a request at the end of a buffer. -/
def Request.put (fw : Firmware) (buffer : Bytes) (r : Request) : Bytes := r.message.put fw buffer

/-- Writes a message or a request at the end of a buffer. -/
def putEither (fw : Firmware) (buffer : Bytes) : Message ⊕ Request → Bytes
  | .inl message => message.put fw buffer
  | .inr request => request.put fw buffer

/-! ## Frames -/

/-- A message as it is received: its opcode byte may mean nothing. -/
structure Frame where
  command : UInt8
  device : UInt8
  payload : Bytes
deriving DecidableEq, Repr

/-- The frame that a message is received as. -/
def Message.frame (fw : Firmware) (m : Message) : Frame := ⟨fw.byte m.opcode, m.device, m.payload⟩

namespace Frame

/-- The bytes that a frame was split off from. -/
def bytes (f : Frame) : Bytes :=
  f.command :: f.device :: UInt8.ofNat f.payload.length :: f.payload

theorem bytes_frame (fw : Firmware) (m : Message) : (m.frame fw).bytes = m.bytes fw := rfl

/-- The frame at the front and what follows it, if the front is a whole frame. -/
def split? : Bytes → Option (Frame × Bytes)
  | command :: device :: length :: rest =>
    if length.toNat ≤ rest.length then
      some (⟨command, device, rest.take length.toNat⟩, rest.drop length.toNat)
    else none
  | _ => none

/-- The frames after the first `skip` bytes, and what is left behind them. -/
def splitAllAfter : Nat → Bytes → List Frame × Bytes
  | _, [] => ([], [])
  | skip + 1, _ :: rest => splitAllAfter skip rest
  | 0, b :: rest =>
    match split? (b :: rest) with
    | none => ([], b :: rest)
    | some (f, _) =>
      let (frames, left) := splitAllAfter (f.payload.length + 2) rest
      (f :: frames, left)

/-- The frames at the front, and what is left behind them. -/
def splitAll (bytes : Bytes) : List Frame × Bytes := splitAllAfter 0 bytes

theorem splitAllAfter_eq_drop (skip : Nat) (bytes : Bytes) :
    splitAllAfter skip bytes = splitAll (bytes.drop skip) := by
  induction bytes generalizing skip with
  | nil => simp [splitAll, splitAllAfter]
  | cons b rest ih =>
    cases skip with
    | zero => rfl
    | succ skip => rw [splitAllAfter, ih, List.drop_succ_cons]

theorem split?_eq_some {bytes : Bytes} {f : Frame} {rest : Bytes}
    (h : split? bytes = some (f, rest)) :
    bytes = f.bytes ++ rest ∧ f.payload.length < 256 := by
  unfold split? at h
  split at h
  · rename_i command device length tail
    split at h
    · rename_i hle
      simp only [Option.some.injEq, Prod.mk.injEq] at h
      obtain ⟨rfl, rfl⟩ := h
      have hlen : (tail.take length.toNat).length = length.toNat := List.length_take_of_le hle
      refine ⟨?_, by simpa [hlen] using length.toNat_lt⟩
      simp only [Frame.bytes, hlen, List.cons_append, List.take_append_drop]
      simp
    · simp at h
  · simp at h

/-- A frame is split off whatever follows it. -/
theorem split?_bytes_append (f : Frame) (h : f.payload.length < 256) (rest : Bytes) :
    split? (f.bytes ++ rest) = some (f, rest) := by
  have hlen : (UInt8.ofNat f.payload.length).toNat = f.payload.length := by
    simp [Nat.mod_eq_of_lt h]
  simp only [bytes, List.cons_append, split?, hlen]
  simp

theorem splitAll_nil : splitAll [] = ([], []) := rfl

theorem splitAll_of_none {bytes : Bytes} (h : split? bytes = none) :
    splitAll bytes = ([], bytes) := by
  cases bytes with
  | nil => rfl
  | cons b rest => rw [splitAll, splitAllAfter, h]

theorem splitAll_of_some {bytes rest : Bytes} {f : Frame} (h : split? bytes = some (f, rest)) :
    splitAll bytes = (f :: (splitAll rest).1, (splitAll rest).2) := by
  cases bytes with
  | nil => simp [split?] at h
  | cons b tail =>
    obtain ⟨hb, -⟩ := split?_eq_some h
    have htail : tail.drop (f.payload.length + 2) = rest := by
      rw [bytes, List.cons_append, List.cons.injEq] at hb
      rw [hb.2]; simp
    rw [splitAll, splitAllAfter, h]
    simp only [splitAllAfter_eq_drop, htail]

/-- Splitting loses nothing. -/
theorem bytes_splitAll (input : Bytes) :
    (splitAll input).1.flatMap bytes ++ (splitAll input).2 = input := by
  induction h : input.length using Nat.strongRecOn generalizing input with
  | _ n ih =>
    cases hs : split? input with
    | none => simp [splitAll_of_none hs]
    | some pair =>
      obtain ⟨f, rest⟩ := pair
      obtain ⟨hb, -⟩ := split?_eq_some hs
      have hlt : rest.length < n := by rw [← h, hb]; simp [bytes]; omega
      rw [splitAll_of_some hs, List.flatMap_cons, List.append_assoc, ih _ hlt _ rfl, ← hb]

end Frame

end Botscript
