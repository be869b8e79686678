import ShapeCodec.Error.Basic

/-!
The limit on nesting. Sequences, maps, records and reference layers that are present count one level
each.
-/

namespace ShapeCodec

/-- How many more levels may be entered, out of a limit that only failures quote. -/
structure Depth where
  limit : Nat
  left : Nat
  deriving DecidableEq

namespace Depth

def upTo (limit : Nat) : Depth :=
  ⟨limit, limit⟩

def enter : Depth → Except Error Depth
  | ⟨limit, 0⟩ => .error (.depthExceeded limit)
  | ⟨limit, left + 1⟩ => .ok ⟨limit, left⟩

end Depth

end ShapeCodec
