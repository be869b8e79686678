import ShapeCodec.Error.Basic
import ShapeCodec.Frame.Zstd

/-!
Frames around encodings: a marker byte, and either the bytes as they are or a zstd frame. The size
that a frame declares is held against a limit before anything is unpacked.
-/

namespace ShapeCodec.Frame

inductive Compression where
  | none
  | general (level : Nat)
  deriving DecidableEq

def Compression.standard : Compression := .general 3

section

variable (zstd : Zstd.Engine)

/-- Compresses only what becomes smaller by it. -/
def compress : Compression → Bytes → Except Fault Bytes
  | .none, content => .ok (0 :: content)
  | .general level, content =>
    match zstd.pack level content with
    | .none => .error .zstd
    | some packed =>
      let frame := 1 :: packed
      if frame.length < content.length + 1 then .ok frame else .ok (0 :: content)

def unpack (max : Nat) (frame : Bytes) : Except Fault Bytes := do
  let size ← Zstd.contentSize frame
  if max < size then .error (.exceededSize max size)
  else
    match zstd.unpack size frame with
    | .none => .error .zstd
    | some content => if content.length = size then .ok content else .error .sizeMismatch

def decompress (max : Nat) : Bytes → Except Error Bytes
  | [] => .error (.frame .missingMarker)
  | marker :: rest =>
    if marker = 0 then
      if max < rest.length then .error (.tooLong max rest.length) else .ok rest
    else if marker = 1 then (unpack zstd max rest).mapError .frame
    else .error (.frame .unknownMarker)

end

end ShapeCodec.Frame
