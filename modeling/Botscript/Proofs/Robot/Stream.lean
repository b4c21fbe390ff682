import Mathlib.Logic.Function.Defs
import Botscript.Robot.Message

/-!
# Streams of frames

`Frame.Decodes` takes frames off the front of bytes for as long as a whole frame stands there;
`Frame.splitAll` says what this comes to (`decodes_iff`). Bytes that are frames to the end may be
cut off from what follows them (`Decodes.splitAll_append`). Messages written one after another are
split up into themselves, and bytes are what the frames they are split up into are written as, with
the rest behind them (`stream_faithful`).
-/

namespace Botscript

namespace Frame

/-! ## Frame by frame -/

/-- Frames are taken off the front of bytes until no whole frame stands there. -/
inductive Decodes : Bytes → List Frame → Bytes → Prop
  | rest {bytes : Bytes} (h : split? bytes = none) : Decodes bytes [] bytes
  | frame {bytes tail rest : Bytes} {f : Frame} {frames : List Frame}
    (h : split? bytes = some (f, tail)) (ht : Decodes tail frames rest) :
    Decodes bytes (f :: frames) rest

variable {bytes front tail rest : Bytes} {f : Frame} {frames : List Frame}

theorem length_lt_of_split? (h : split? bytes = some (f, tail)) : tail.length < bytes.length := by
  obtain ⟨rfl, -⟩ := split?_eq_some h
  simp only [Frame.bytes, List.cons_append, List.length_cons, List.length_append]
  omega

theorem decodes_splitAll (bytes : Bytes) : Decodes bytes (splitAll bytes).1 (splitAll bytes).2 := by
  -- on the length, since a frame takes more than the first byte
  induction hn : bytes.length using Nat.strongRecOn generalizing bytes with
  | _ n ih =>
    cases h : split? bytes with
    | none =>
      rw [splitAll_of_none h]
      exact .rest h
    | some pair =>
      obtain ⟨f, tail⟩ := pair
      have hlt := length_lt_of_split? h
      rw [splitAll_of_some h]
      exact .frame h (ih tail.length (by omega) tail rfl)

theorem Decodes.splitAll_eq (h : Decodes bytes frames rest) : splitAll bytes = (frames, rest) := by
  induction h with
  | rest h => exact splitAll_of_none h
  | frame h _ ih => rw [splitAll_of_some h, ih]

theorem decodes_iff : Decodes bytes frames rest ↔ splitAll bytes = (frames, rest) := by
  constructor
  · exact Decodes.splitAll_eq
  · intro h
    have hd := decodes_splitAll bytes
    rwa [h] at hd

theorem Decodes.split?_rest (h : Decodes bytes frames rest) : split? rest = none := by
  induction h with
  | rest h => exact h
  | frame _ _ ih => exact ih

theorem Decodes.length_payload_le (h : Decodes bytes frames rest) :
    ∀ f ∈ frames, f.payload.length ≤ 255 := by
  induction h with
  | rest => exact fun f hf => absurd hf List.not_mem_nil
  | frame h _ ih =>
    intro f hf
    rcases List.mem_cons.1 hf with rfl | hf
    · have := (split?_eq_some h).2
      omega
    · exact ih f hf

/-- Bytes that are frames to the end are split up on their own. -/
theorem Decodes.splitAll_append (h : Decodes front frames rest) (hrest : rest = [])
    (back : Bytes) :
    splitAll (front ++ back) = (frames ++ (splitAll back).1, (splitAll back).2) := by
  induction h with
  | rest => subst hrest; rfl
  | frame h _ ih =>
    obtain ⟨rfl, hlt⟩ := split?_eq_some h
    rw [List.append_assoc, splitAll_of_some (split?_bytes_append _ hlt _), ih hrest]
    rfl

/-- Frames whose length fits its byte are split off again. -/
theorem splitAll_flatMap_bytes (h : ∀ f ∈ frames, f.payload.length ≤ 255) :
    splitAll (frames.flatMap Frame.bytes) = (frames, []) := by
  induction frames with
  | nil => exact splitAll_nil
  | cons f frames ih =>
    have hlt : f.payload.length < 256 := by
      have := h f List.mem_cons_self
      omega
    rw [List.flatMap_cons, splitAll_of_some (split?_bytes_append f hlt _),
      ih fun g hg => h g (List.mem_cons_of_mem _ hg)]

end Frame

/-! ## Messages in a buffer -/

namespace Message

theorem foldl_put (fw : Firmware) (buffer : Bytes) (messages : List Message) :
    messages.foldl (put fw) buffer =
      buffer ++ (messages.map (frame fw)).flatMap Frame.bytes := by
  induction messages generalizing buffer with
  | nil => simp
  | cons m messages ih =>
    rw [List.foldl_cons, ih, put, List.map_cons, List.flatMap_cons, Frame.bytes_frame,
      List.append_assoc]

theorem splitAll_foldl_put {messages : List Message}
    (h : ∀ m ∈ messages, m.payload.length ≤ 255) (fw : Firmware) :
    Frame.splitAll (messages.foldl (put fw) []) = (messages.map (frame fw), []) := by
  rw [foldl_put, List.nil_append]
  refine Frame.splitAll_flatMap_bytes fun f hf => ?_
  obtain ⟨m, hm, rfl⟩ := List.mem_map.1 hf
  exact h m hm

end Message

/-- What has to be read where a message or a request was written: an opcode, a device and a
payload. -/
def content : Message ⊕ Request → Option Opcode × UInt8 × Bytes
  | .inl message => (some message.opcode, message.device, message.payload)
  | .inr (.set device payload) => (some .set, device, payload)
  | .inr (.add device config) => (some .add, device, config)
  | .inr (.get device) => (some .get, device, [])

/-- Each item is written as one message, which holds what has to be read. -/
theorem exists_messages (fw : Firmware) (items : List (Message ⊕ Request)) :
    ∃ messages : List Message,
      (∀ buffer, items.foldl (putEither fw) buffer = messages.foldl (Message.put fw) buffer) ∧
      messages.map (fun m => (some m.opcode, m.device, m.payload)) = items.map content := by
  induction items with
  | nil => exact ⟨[], fun _ => rfl, rfl⟩
  | cons item items ih =>
    obtain ⟨messages, hput, hcontent⟩ := ih
    obtain ⟨message, hone, hread⟩ : ∃ m : Message,
        (∀ buffer, putEither fw buffer item = m.put fw buffer) ∧
        (some m.opcode, m.device, m.payload) = content item := by
      rcases item with m | ⟨device, payload⟩ | ⟨device, config⟩ | ⟨device⟩
      · exact ⟨m, fun _ => rfl, rfl⟩
      · exact ⟨⟨.set, device, payload⟩, fun _ => rfl, rfl⟩
      · exact ⟨⟨.add, device, config⟩, fun _ => rfl, rfl⟩
      · exact ⟨⟨.get, device, []⟩, fun _ => rfl, rfl⟩
    refine ⟨message :: messages, fun buffer => ?_, ?_⟩
    · rw [List.foldl_cons, List.foldl_cons, hone, hput]
    · rw [List.map_cons, List.map_cons, hread, hcontent]

/-- Decoding undoes encoding, and encoding undoes decoding. -/
theorem stream_faithful :
    (∀ fw : Firmware, Function.Injective fw.byte → ∀ items : List (Message ⊕ Request),
      (∀ item ∈ items, (content item).2.2.length ≤ 255) →
      ∃ frames, Frame.splitAll (items.foldl (putEither fw) []) = (frames, []) ∧
        frames.map (fun f => (fw.opcode? f.command, f.device, f.payload)) = items.map content) ∧
    ∀ bytes : Bytes,
      (∀ frames rest, Frame.Decodes bytes frames rest ↔ Frame.splitAll bytes = (frames, rest)) ∧
      (Frame.splitAll bytes).1.flatMap Frame.bytes ++ (Frame.splitAll bytes).2 = bytes ∧
      Frame.split? (Frame.splitAll bytes).2 = none ∧
      ∀ f ∈ (Frame.splitAll bytes).1, f.payload.length ≤ 255 := by
  constructor
  · intro fw hfw items hshort
    obtain ⟨messages, hput, hcontent⟩ := exists_messages fw items
    have hshort' : ∀ m ∈ messages, m.payload.length ≤ 255 := by
      intro m hm
      have hread : (some m.opcode, m.device, m.payload) ∈ items.map content := by
        rw [← hcontent]
        exact List.mem_map_of_mem hm
      obtain ⟨item, hitem, he⟩ := List.mem_map.1 hread
      have hlength := hshort item hitem
      rwa [he] at hlength
    have hop : ∀ op, fw.opcode? (fw.byte op) = some op :=
      Firmware.opcode?_byte fun _ _ h => hfw h
    refine ⟨messages.map (Message.frame fw), ?_, ?_⟩
    · rw [hput, Message.splitAll_foldl_put hshort']
    · rw [← hcontent, List.map_map]
      refine List.map_congr_left fun m _ => ?_
      show (fw.opcode? (fw.byte m.opcode), m.device, m.payload) = _
      rw [hop]
  · intro bytes
    have hd := Frame.decodes_splitAll bytes
    exact ⟨fun _ _ => Frame.decodes_iff, Frame.bytes_splitAll bytes, hd.split?_rest,
      hd.length_payload_le⟩

/-- A payload that looks like the head of a message, and a request of each sort. -/
theorem stream_faithful_head :
    Function.Injective Firmware.standard.byte ∧
    (∀ item ∈ [Sum.inl ⟨.print, 7, [5, 1, 2]⟩, Sum.inr (.set 1 [0, 200]), Sum.inr (.add 2 [9]),
      Sum.inr (.get 4)], (content item).2.2.length ≤ 255) ∧
    ∃ frames,
      Frame.splitAll ([Sum.inl ⟨.print, 7, [5, 1, 2]⟩, Sum.inr (.set 1 [0, 200]),
        Sum.inr (.add 2 [9]), Sum.inr (.get 4)].foldl (putEither .standard) []) = (frames, []) ∧
      frames.map (fun f => (Firmware.standard.opcode? f.command, f.device, f.payload)) =
        [(some .print, 7, [5, 1, 2]), (some .set, 1, [0, 200]), (some .add, 2, [9]),
          (some .get, 4, [])] := by
  have hinj : Function.Injective Firmware.standard.byte := by
    intro op op'
    cases op <;> cases op' <;> decide
  have hshort : ∀ item ∈ [Sum.inl ⟨.print, 7, [5, 1, 2]⟩, Sum.inr (.set 1 [0, 200]),
      Sum.inr (.add 2 [9]), Sum.inr (.get 4)], (content item).2.2.length ≤ 255 := by decide
  exact ⟨hinj, hshort, stream_faithful.1 .standard hinj _ hshort⟩

end Botscript
