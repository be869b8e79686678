import ShapeCodec.Wire.Primitive

/-!
Nil units. One unit stands for a whole stack of absent reference layers and carries their number;
layers that are present take no bytes.
-/

namespace ShapeCodec.Wire

def writeNil (depth : Nat) : Bytes :=
  if depth ≤ 1 then [(InfoByte.nil false false).toByte]
  else (InfoByte.nil false true).toByte :: writeInt (BitVec.ofNat 64 depth)

def skipExtensions : Bool → Bytes → Except Error Bytes
  | false, input => .ok input
  | true, [] => .error (.headerCutShort .nilExtension)
  | true, b :: rest => skipExtensions (InfoByte.isExtended b) rest

def readDepth (input : Bytes) : Except Error (Nat × Bytes) :=
  match readInt input with
  | .error e => .error (if e.isEof then .headerCutShort .nilDepth else .badNilDepth e)
  | .ok (bits, rest) =>
    if bits.toInt < 1 then .error (.malformed (.lowNilDepth bits.toInt))
    else .ok (bits.toNat, rest)

def readNil : Bytes → Except Error (Option (Nat × Bytes))
  | [] => .ok none
  | b :: rest =>
    match InfoByte.ofByte b with
    | .nil extended indirect => do
      let rest ← skipExtensions extended rest
      if indirect then (readDepth rest).map some else .ok (some (1, rest))
    | _ => .ok none

/-- Where no reference layer is expected, a nil unit of depth one means an absent blob or composite.
Gives what follows it, if there is one. -/
def readAbsent (input : Bytes) : Except Error (Option Bytes) := do
  match ← readNil input with
  | none => .ok none
  | some (1, rest) => .ok (some rest)
  | some (depth, _) => .error (.malformed (.nilOutsideLayers depth))

end ShapeCodec.Wire
