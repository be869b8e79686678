import ShapeCodec.Shape
import ShapeCodec.Text.Utf8

namespace ShapeCodec

inductive Composite where
  | sequence | map | record
  deriving DecidableEq

def Composite.name : Composite → String
  | sequence => "sequence"
  | map => "map"
  | record => "record"

inductive Step where
  | bool
  | intMarker
  | intMagnitude
  | stringLength
  | stringContent
  | blobLength
  | blobContent
  | nilExtension
  | nilDepth
  | content (of : Composite)
  deriving DecidableEq

def Step.text : Step → String
  | bool => "decode bool"
  | intMarker => "decode integer marker"
  | intMagnitude => "decode integer magnitude"
  | stringLength => "decode string length"
  | stringContent => "get string content"
  | blobLength => "decode blob length"
  | blobContent => "get blob content"
  | nilExtension => "skip nil header extension"
  | nilDepth => "decode indirection depth"
  | content c => "get " ++ c.name ++ " content"

inductive DataFault where
  | notShortest (length : Nat)
  | negativeLength (n : Int) (step : Step)
  | absentString
  | badText (fault : Text.Utf8.Fault)
  | lowNilDepth (n : Int)
  | nilPastLayers (depth : Nat) (shape : Shape)
  | nilOutsideLayers (depth : Nat)
  | unknownField (name : String)
  | trailing (count : Nat)
  deriving DecidableEq

def DataFault.message : DataFault → String
  | notShortest length =>
    s!"Got integer with {length} magnitude bytes. This is not the shortest encoding."
  | negativeLength n step => s!"negative length {n} on step [{step.text}]"
  | absentString => "string length can't be negative"
  | badText fault => fault.message
  | lowNilDepth n => s!"indirection depth must be at least 1, got {n}"
  | nilPastLayers depth shape =>
    s!"nil depth {depth} exceeds the {shape.layers} reference layers of " ++ shape.render
  | nilOutsideLayers depth => s!"nil depth {depth} where no reference layers are expected"
  | unknownField name => "record has no field named `" ++ name ++ "`"
  | trailing count => s!"{count} trailing bytes after packed value"

end ShapeCodec
