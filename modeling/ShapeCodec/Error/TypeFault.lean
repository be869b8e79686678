import ShapeCodec.Value.Render

namespace ShapeCodec

inductive TypeFault where
  | cannotEncode (found : Value.Kind) (shape : Shape)
  | layerExpected (shape : Shape) (found : Value.Kind)
  | outOfRange (n : Int) (kind : IntKind)
  | boolByte (b : UInt8)
  | nilForInteger
  | reservedForInteger (b : UInt8)
  | keyShape (shape : Shape)
  | repeatedKey (key : Value)
  | unknownField (name : String)
  | repeatedField (name : String)
  | blobExpected (found : Value.Kind)
  | cannotRepresent (what : String)
  | enumDecoded (name : String)
  | noShape (what : String)
  | enumShape (name : String)
  | selfDescribing
  | ignored
  | neverRequested
  | mixedTuple
  deriving DecidableEq

def TypeFault.message : TypeFault → String
  | cannotEncode found shape => "can't encode " ++ found.name ++ " as " ++ shape.render
  | layerExpected shape found =>
    "reference layer of " ++ shape.render ++ " needs Some or Nil, found " ++ found.name
  | outOfRange n kind => s!"integer {n} is out of range for " ++ kind.name
  | boolByte b => "expected bool byte 0x00 or 0x01, got 0x" ++ Text.hexPadded 2 b.toNat
  | nilForInteger => "expected integer, found nil marker"
  | reservedForInteger b =>
    "expected integer, found reserved marker 0x" ++ Text.hexPadded 2 b.toNat
  | keyShape shape => "map keys must be bool, integer, or string, not " ++ shape.render
  | repeatedKey key => "map contains the key " ++ key.render ++ " more than once"
  | unknownField name => "record has no field named `" ++ name ++ "`"
  | repeatedField name => "record contains the field `" ++ name ++ "` more than once"
  | blobExpected found => "expected blob, found " ++ found.name
  | cannotRepresent what => what ++ " values can't be encoded"
  | enumDecoded name => "enum " ++ name ++ " values can't be decoded"
  | noShape what => what ++ " values have no shape in this format"
  | enumShape name => "enum " ++ name ++ " has no shape in this format"
  | selfDescribing => "self-describing types have no static shape"
  | ignored => "ignored values have no static shape"
  | neverRequested => "type never requested a value"
  | mixedTuple => "tuples must hold a single element shape to be encoded as a sequence"

end ShapeCodec
