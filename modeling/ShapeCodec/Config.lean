import ShapeCodec.Encoding
import ShapeCodec.Decoding
import ShapeCodec.Frame.Compression

namespace ShapeCodec

structure Config where
  maxDepth : Nat := 64
  maxSize : Nat := 2 ^ 24
  compression : Frame.Compression := .none
  deriving DecidableEq

def encodeValue (c : Config) (s : Shape) (v : Value) : Except Error Bytes := do
  let encoded ← encode (.upTo c.maxDepth) s v
  if c.maxSize < encoded.length then .error (.tooLong c.maxSize encoded.length)
  else .ok encoded

def decodeValueInto (c : Config) (s : Shape) (input : Bytes) : EStateM Error Value Nat := do
  let rest ← decodeInto s (.upTo c.maxDepth) input
  return input.length - rest.length

def decodeValue (c : Config) (s : Shape) (input : Bytes) : Except Error (Value × Nat) :=
  match decodeValueInto c s input .nil with
  | .ok used v => .ok (v, used)
  | .error e _ => .error e

def decodeEach (c : Config) (s : Shape) : Nat → Bytes → List (Except Error (Value × Nat))
  | _, [] => []
  | 0, _ :: _ => []
  | fuel + 1, b :: input =>
    match decodeValue c s (b :: input) with
    | .error e => [.error e]
    | .ok (v, used) => .ok (v, used) :: decodeEach c s fuel ((b :: input).drop used)

/-- Every value takes a byte or more. -/
def decodeAll (c : Config) (s : Shape) (input : Bytes) : List (Except Error (Value × Nat)) :=
  decodeEach c s input.length input

structure Recoded where
  value : Value
  used : Nat
  encoded : Bytes
  same : Bool

def recode (c : Config) (s : Shape) (input : Bytes) : Except Error Recoded := do
  let (value, used) ← decodeValue c s input
  let encoded ← encodeValue c s value
  let (again, usedAgain) ← decodeValue c s encoded
  .ok ⟨value, used, encoded, again == value && usedAgain == encoded.length⟩

end ShapeCodec
