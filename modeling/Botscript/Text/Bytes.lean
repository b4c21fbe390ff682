import Botscript.Text.Position

/-!
# Byte offsets

Positions count bytes of UTF-8, texts are lists of characters. `byteLength` measures a text,
`slice` cuts out the part between two offsets, and `Position.offset_advance` ties the two counts
together.
-/

namespace Botscript

/-- The number of bytes of a text in UTF-8. -/
def byteLength : List Char → Nat
  | [] => 0
  | c :: rest => c.utf8Size + byteLength rest

@[simp] theorem byteLength_nil : byteLength [] = 0 := rfl

@[simp] theorem byteLength_cons (c : Char) (text : List Char) :
    byteLength (c :: text) = c.utf8Size + byteLength text := rfl

theorem byteLength_append (front back : List Char) :
    byteLength (front ++ back) = byteLength front + byteLength back := by
  induction front with
  | nil => simp
  | cons c front ih => rw [List.cons_append, byteLength_cons, byteLength_cons, ih, Nat.add_assoc]

theorem byteLength_eq_utf8ByteSize (text : List Char) :
    byteLength text = (String.ofList text).utf8ByteSize := by
  induction text with
  | nil => simp
  | cons c rest ih =>
    rw [byteLength_cons, ih, ← String.utf8ByteSize_singleton, ← String.utf8ByteSize_append,
      String.singleton_eq_ofList, ← String.ofList_append, List.singleton_append]

/-- The text of a string has as many bytes as the string. -/
theorem byteLength_toList (s : String) : byteLength s.toList = s.utf8ByteSize := by
  rw [byteLength_eq_utf8ByteSize, String.ofList_toList]

theorem Position.offset_advance (p : Position) (text : List Char) :
    (p.advance text).offset = p.offset + byteLength text := by
  induction text generalizing p with
  | nil => rfl
  | cons c rest ih => rw [advance_cons, ih, next_offset, byteLength_cons, Nat.add_assoc]

/-- The text after its first `count` bytes. -/
def dropBytes (count : Nat) : List Char → List Char
  | [] => []
  | c :: rest => if count = 0 then c :: rest else dropBytes (count - c.utf8Size) rest

/-- The longest front of the text that fits into `count` bytes. -/
def takeBytes (count : Nat) : List Char → List Char
  | [] => []
  | c :: rest => if c.utf8Size ≤ count then c :: takeBytes (count - c.utf8Size) rest else []

/-- The part of a text between two byte offsets. -/
def slice (text : List Char) (start stop : Nat) : List Char :=
  takeBytes (stop - start) (dropBytes start text)

theorem dropBytes_byteLength_append (front back : List Char) :
    dropBytes (byteLength front) (front ++ back) = back := by
  induction front with
  | nil => cases back <;> rfl
  | cons c rest ih =>
    have h : c.utf8Size + byteLength rest ≠ 0 := by have := c.utf8Size_pos; omega
    rw [byteLength_cons, List.cons_append, dropBytes, if_neg h, Nat.add_sub_cancel_left, ih]

theorem takeBytes_byteLength_append (front back : List Char) :
    takeBytes (byteLength front) (front ++ back) = front := by
  induction front with
  | nil =>
    cases back with
    | nil => rfl
    | cons c rest => exact if_neg (by have := c.utf8Size_pos; simp; omega)
  | cons c rest ih =>
    rw [byteLength_cons, List.cons_append, takeBytes, if_pos (Nat.le_add_right ..),
      Nat.add_sub_cancel_left, ih]

/-- A slice cut at the ends of a part is that part. -/
theorem slice_append (before part after : List Char) :
    slice (before ++ part ++ after) (byteLength before) (byteLength before + byteLength part)
      = part := by
  rw [slice, List.append_assoc, dropBytes_byteLength_append, Nat.add_sub_cancel_left,
    takeBytes_byteLength_append]

end Botscript
