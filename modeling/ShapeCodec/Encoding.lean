import ShapeCodec.Depth
import ShapeCodec.Key
import ShapeCodec.Wire.Payload

/-!
Encoding a value by its shape. Maps are written in the order of their keys and records in the order
of their shape, so that values which differ in no more than those orders have one encoding.
-/

namespace ShapeCodec

namespace Wire

/-- Writes the parts of a payload one after another. `write i pos x` writes `x`, the `i`-th of them,
`pos` bytes into the payload. -/
def writeEach {α : Type} (write : Nat → Nat → α → Except Error Bytes) :
    Nat → Nat → List α → Except Error Bytes
  | _, _, [] => .ok []
  | i, pos, x :: xs => do
    let part ← write i pos x
    let parts ← writeEach write (i + 1) (pos + part.length) xs
    .ok (part ++ parts)

def writePair (key val : Value → Except Error Bytes) (i pos : Nat) (pair : Value × Value) :
    Except Error Bytes := do
  let k ← (key pair.1).mapError (.nested pos (.mapKey i))
  let v ← (val pair.2).mapError (.nested (pos + k.length) (.mapValue i))
  .ok (k ++ v)

def checkFields (known : List String) : List String → List (String × Value) → Except Error Unit
  | _, [] => .ok ()
  | before, (name, _) :: fields =>
    if !known.contains name then .error (.invalidType (.unknownField name))
    else if before.contains name then .error (.invalidType (.repeatedField name))
    else checkFields known (name :: before) fields

end Wire

open Wire

mutual

def encode (depth : Depth) : Shape → Value → Except Error Bytes
  | .optional inner, v =>
    match v with
    | .nil => .ok (writeNil (inner.layers + 1))
    | .ref v => do encode (← depth.enter) inner v
    | v => .error (.invalidType (.layerExpected (.optional inner) v.kind))
  | .bool, v =>
    match v with
    | .bool b => .ok (writeBool b)
    | v => .error (mismatch .bool v)
  | .int kind, v =>
    match v with
    | .int n =>
      if kind.contains n then .ok (writeInt n.bits)
      else .error (.invalidType (.outOfRange n.val kind))
    | v => .error (mismatch (.int kind) v)
  | .str, v =>
    match v with
    | .str s => .ok (writeStr s)
    | v => .error (mismatch .str v)
  | .blob, v =>
    match v with
    | .blob content => .ok (writeCounted content)
    | .nil => .ok (writeCounted none)
    | v => .error (mismatch .blob v)
  | .seq elem, v =>
    match v with
    | .nil => .ok (writeCounted none)
    | .seq items => do
      let depth ← depth.enter
      let payload ← writeEach (fun i pos v => (encode depth elem v).mapError
        (.nested pos (.element i))) 0 0 items
      .ok (writeCounted (some payload))
    | v => .error (mismatch (.seq elem) v)
  | .map key val, v => do
    key.checkKey
    match v with
    | .nil => .ok (writeCounted none)
    | .map pairs =>
      let sorted ← orderPairs key pairs
      let depth ← depth.enter
      let payload ← writeEach (writePair (encode depth key) (encode depth val)) 0 0 sorted
      .ok (writeCounted (some payload))
    | v => .error (mismatch (.map key val) v)
  | .record known, v =>
    match v with
    | .nil => .ok (writeCounted none)
    | .record fields => do
      checkFields (known.map (·.1)) [] fields
      let depth ← depth.enter
      let payload ← encodeFields depth fields 0 known
      .ok (writeCounted (some payload))
    | v => .error (mismatch (.record known) v)

def encodeFields (depth : Depth) (fields : List (String × Value)) :
    Nat → List (String × Shape) → Except Error Bytes
  | _, [] => .ok []
  | pos, (name, s) :: known =>
    match fields.lookup name with
    | none => encodeFields depth fields pos known
    | some v => do
      let pos := pos + (writeStr name).length
      let part ← (encode depth s v).mapError (.nested pos (.field name))
      let parts ← encodeFields depth fields (pos + part.length) known
      .ok (writeStr name ++ part ++ parts)

end

end ShapeCodec
