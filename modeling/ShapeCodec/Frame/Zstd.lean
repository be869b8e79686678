import ShapeCodec.Frame.Fault
import ShapeCodec.Frame.Block

/-!
Zstd frames without their magic number: a descriptor byte, a window byte unless the frame is a
single segment, the size of the content, and blocks. What makes and opens them is an engine.
-/

namespace ShapeCodec.Frame

namespace Descriptor

def singleSegment (d : UInt8) : Bool :=
  d &&& 0x20 != 0

def hasChecksumOrDictionary (d : UInt8) : Bool :=
  d &&& 0x07 != 0

def isReserved (d : UInt8) : Bool :=
  d &&& 0x08 != 0

def sizeLength (d : UInt8) : Nat :=
  match (d >>> 6).toNat with
  | 0 => if singleSegment d then 1 else 0
  | 1 => 2
  | 2 => 4
  | _ => 8

def sizeStart (d : UInt8) : Nat :=
  if singleSegment d then 1 else 2

end Descriptor

namespace Zstd

/-- The size of the content that the header of a frame declares. Two bytes hold it less 256. -/
def contentSize : Bytes → Except Fault Nat
  | [] => .error .emptyHeader
  | d :: rest =>
    if Descriptor.hasChecksumOrDictionary d then .error .checksumOrDictionary
    else if Descriptor.sizeLength d = 0 then .error .missingSize
    else
      let field := ((d :: rest).drop (Descriptor.sizeStart d)).take (Descriptor.sizeLength d)
      if field.length < Descriptor.sizeLength d then .error .shortHeader
      else .ok (littleEndianValue field + if Descriptor.sizeLength d = 2 then 256 else 0)

/-- The largest window, in powers of two from the tenth on, that a window byte may ask for. -/
def windowFits (d : UInt8) (frame : Bytes) : Bool :=
  Descriptor.singleSegment d || frame[1]?.all fun w => w.toNat / 8 ≤ 21

def readFrame (size : Nat) (input : Bytes) : Option (Bytes × Bytes) :=
  match input with
  | [] => none
  | d :: _ =>
    if Descriptor.isReserved d || !windowFits d input then none
    else
      let blocks := input.drop (Descriptor.sizeStart d + Descriptor.sizeLength d)
      Block.readAll input.length size blocks

def skipEmptyFrame (input : Bytes) : Option Bytes :=
  match contentSize input with
  | .ok 0 | .error .missingSize => (readFrame 0 input).map (·.2)
  | _ => none

def onlyEmptyFrames : Nat → Bytes → Bool
  | _, [] => true
  | 0, _ :: _ => false
  | fuel + 1, b :: input =>
    match skipEmptyFrame (b :: input) with
    | some rest => onlyEmptyFrames fuel rest
    | none => false

def unpack (size : Nat) (frame : Bytes) : Option Bytes :=
  match readFrame size frame with
  | some (content, rest) => if onlyEmptyFrames rest.length rest then some content else none
  | none => none

def header (size : Nat) : Bytes :=
  if size < 256 then 0x20 :: littleEndian 1 size
  else if size < 256 + 2 ^ 16 then 0x60 :: littleEndian 2 (size - 256)
  else if size < 2 ^ 32 then 0xa0 :: littleEndian 4 size
  else 0xe0 :: littleEndian 8 size

def pack (content : Bytes) : Bytes :=
  header content.length ++ Block.writeAll (Block.split content)

/-- What packs contents into frames and unpacks frames again. -/
structure Engine where
  pack : Nat → Bytes → Option Bytes
  unpack : Nat → Bytes → Option Bytes

/-- Packs runs of bytes and nothing else. Runs leave nothing to choose, so that all levels give the
same frame. -/
def Engine.ofRuns : Engine where
  pack _ content := some (Zstd.pack content)
  unpack := Zstd.unpack

end Zstd

end ShapeCodec.Frame
