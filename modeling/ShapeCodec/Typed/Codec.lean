import ShapeCodec.Typed.Coding

namespace ShapeCodec

/-- A static type with a number of its own: types may be described alike and yet be different. -/
structure StaticType where
  id : Nat
  type : Ty

structure Codec where
  config : Config := {}
  shapes : List (Nat × Shape) := []

namespace Codec

def insert (t : StaticType) (s : Shape) (codec : Codec) : Codec :=
  { codec with shapes := (t.id, s) :: codec.shapes.filter (·.1 != t.id) }

def clear (codec : Codec) : Codec :=
  { codec with shapes := [] }

def shapeOf (t : StaticType) : EStateM Error Codec Shape := do
  let codec ← get
  match codec.shapes.lookup t.id with
  | some s => return s
  | none =>
    let s ← ofExcept (t.type.shapeWithin codec.config.maxDepth)
    set (codec.insert t s)
    return s

def encode (t : StaticType) (d : Datum) : EStateM Error Codec Bytes := do
  let s ← shapeOf t
  ofExcept (encodeDatum (← get).config s d)

def decode (t : StaticType) (input : Bytes) : EStateM Error Codec (Datum × Nat) := do
  let s ← shapeOf t
  ofExcept (decodeDatum (← get).config s t.type input)

def decodeInto (t : StaticType) (input : Bytes) : EStateM Error (Codec × Datum) Nat :=
  fun (codec, dst) =>
    match shapeOf t codec with
    | .error e codec => .error e (codec, dst)
    | .ok s codec =>
      match decodeDatumInto codec.config s t.type input dst with
      | .ok used dst => .ok used (codec, dst)
      | .error e dst => .error e (codec, dst)

def pack (zstd : Frame.Zstd.Engine) (t : StaticType) (d : Datum) : EStateM Error Codec Bytes := do
  let encoded ← encode t d
  ofExcept ((Frame.compress zstd (← get).config.compression encoded).mapError .frame)

def unpack (zstd : Frame.Zstd.Engine) (t : StaticType) (frame : Bytes) : EStateM Error Codec Datum := do
  let encoded ← ofExcept (Frame.decompress zstd (← get).config.maxSize frame)
  let (d, used) ← decode t encoded
  if used ≠ encoded.length then throw (.malformed (.trailing (encoded.length - used)))
  return d

end Codec

end ShapeCodec
