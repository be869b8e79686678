import ShapeCodec.Error.Basic

/-!
Bytes of a stream that have come in and are not decoded yet. Decoded bytes stay at the front of the
buffer until they are at least half of it.
-/

namespace ShapeCodec

abbrev ItemDecoder (α : Type) := Bytes → Except Error (α × Nat)

structure Pending where
  buffer : Bytes := []
  start : Nat := 0
  offset : Nat := 0
  count : Nat := 0

namespace Pending

def bytes (p : Pending) : Bytes :=
  p.buffer.drop p.start

def isEmpty (p : Pending) : Bool :=
  p.start == p.buffer.length

def length (p : Pending) : Nat :=
  p.buffer.length - p.start

def extend (p : Pending) (bs : Bytes) : Pending :=
  if 0 < p.start ∧ p.buffer.length / 2 ≤ p.start then
    { p with buffer := p.buffer.drop p.start ++ bs, start := 0 }
  else { p with buffer := p.buffer ++ bs }

def locate (p : Pending) (e : Error) : Error :=
  .nested p.offset (.stream p.count) e

def decode {α : Type} (decoder : ItemDecoder α) (p : Pending) : Except Error (α × Pending) :=
  match decoder p.bytes with
  | .error e => .error (p.locate e)
  | .ok (x, used) => .ok (x, ⟨p.buffer, p.start + used, p.offset + used, p.count + 1⟩)

/-- An item that is incomplete after more bytes than an encoding may have never ends. -/
def checkLimit (max : Nat) (p : Pending) : Except Error Unit :=
  if max < p.length then .error (p.locate (.tooLong max p.length)) else .ok ()

theorem length_bytes (p : Pending) : p.bytes.length = p.length :=
  List.length_drop

theorem isEmpty_iff {p : Pending} (h : p.start ≤ p.buffer.length) : p.isEmpty ↔ p.bytes = [] := by
  rw [isEmpty, bytes, beq_iff_eq, List.drop_eq_nil_iff]
  omega

theorem bytes_extend {p : Pending} (h : p.start ≤ p.buffer.length) (bs : Bytes) :
    (p.extend bs).bytes = p.bytes ++ bs := by
  rw [extend]
  split
  · rfl
  · exact List.drop_append_of_le_length h

theorem start_extend_le {p : Pending} (h : p.start ≤ p.buffer.length) (bs : Bytes) :
    (p.extend bs).start ≤ (p.extend bs).buffer.length := by
  rw [extend]
  split
  · exact Nat.zero_le _
  · exact Nat.le_trans h (List.sublist_append_left _ _).length_le

@[simp] theorem offset_extend (p : Pending) (bs : Bytes) : (p.extend bs).offset = p.offset := by
  rw [extend]
  split <;> rfl

@[simp] theorem count_extend (p : Pending) (bs : Bytes) : (p.extend bs).count = p.count := by
  rw [extend]
  split <;> rfl

end Pending

end ShapeCodec
