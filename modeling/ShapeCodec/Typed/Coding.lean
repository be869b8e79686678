import ShapeCodec.Config
import ShapeCodec.Typed.Read
import ShapeCodec.Typed.ShapeOf

namespace ShapeCodec

def encodeDatum (c : Config) (s : Shape) (d : Datum) : Except Error Bytes := do
  encodeValue c s (← d.toValue)

def decodeDatum (c : Config) (s : Shape) (t : Ty) (input : Bytes) :
    Except Error (Datum × Nat) := do
  let (v, used) ← decodeValue c s input
  .ok (← v.toDatum t, used)

def decodeDatumInto (c : Config) (s : Shape) (t : Ty) (input : Bytes) :
    EStateM Error Datum Nat := do
  let v ← ofExcept (← get).toValue
  match decodeValueInto c s input v with
  | .error e _ => throw e
  | .ok used v =>
    set (← ofExcept (v.toDatum t))
    return used

namespace Ty

def shape (t : Ty) : Except Error Shape :=
  let usual : Config := {}
  t.shapeWithin usual.maxDepth

def encode (t : Ty) (d : Datum) : Except Error Bytes := do
  encodeDatum {} (← t.shape) d

def decode (t : Ty) (input : Bytes) : Except Error (Datum × Nat) := do
  decodeDatum {} (← t.shape) t input

def decodeInto (t : Ty) (input : Bytes) : EStateM Error Datum Nat := do
  decodeDatumInto {} (← ofExcept t.shape) t input

end Ty

end ShapeCodec
