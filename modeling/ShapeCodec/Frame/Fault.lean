namespace ShapeCodec.Frame

inductive Fault where
  | missingMarker
  | unknownMarker
  | emptyHeader
  | checksumOrDictionary
  | missingSize
  | shortHeader
  | exceededSize (max actual : Nat)
  | zstd
  | sizeMismatch
  deriving DecidableEq

def Fault.message : Fault → String
  | missingMarker => "missing compression marker"
  | unknownMarker => "unrecognized compression marker"
  | emptyHeader => "not enough bytes in header"
  | checksumOrDictionary => "zstd frame header uses a checksum or dictionary"
  | missingSize => "Missing frame content size"
  | shortHeader => "Header isn't large enough"
  | exceededSize max actual =>
    s!"Decompressed size is {actual} bytes, larger than max of {max} bytes"
  | zstd => "zstd failure"
  | sizeMismatch => "Decompressed size doesn't match promised size"

end ShapeCodec.Frame
