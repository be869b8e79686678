import ShapeCodec.Error.Basic

namespace ShapeCodec

/-- Conversions between what a value of the type holds and its bytes. Both may be absent. -/
structure Capability where
  name : String
  toBlob : Option Bytes → Except String (Option Bytes)
  ofBlob : Option Bytes → Except String (Option Bytes)

namespace Capability

def bytes : Capability where
  name := "bytes"
  toBlob content := .ok (some (content.getD []))
  ofBlob data := .ok (some (data.getD []))

def optionalBytes : Capability where
  name := "optional bytes"
  toBlob content := .ok content
  ofBlob data := .ok data

def color : Capability where
  name := "color"
  toBlob content := .ok content
  ofBlob
    | some [r, g, b] => .ok (some [r, g, b])
    | none | some [] => .ok (some [0, 0, 0])
    | some _ => .error "expected 3 color bytes"

def checksum (bs : Bytes) : UInt8 :=
  bs.foldl (· + ·) 0

def checked : Capability where
  name := "checked"
  toBlob
    | none | some [] => .ok (some [])
    | some bs => .ok (some (bs ++ [checksum bs]))
  ofBlob
    | none | some [] => .ok (some [])
    | some bs =>
      if bs.getLast? = some (checksum bs.dropLast) then .ok (some bs.dropLast)
      else .error "bad checksum"

def picky : Capability where
  name := "picky"
  toBlob
    | none | some [] => .ok none
    | some (b :: bs) => if b = 0xff then .error "picky: bad lead byte" else .ok (some (b :: bs))
  ofBlob
    | none => .error "picky: absent"
    | some [] => .error "picky: empty"
    | some bs => .ok (some bs)

end Capability

namespace Value

def ofCapability (cap : Capability) (content : Option Bytes) : Except Error Value :=
  ((cap.toBlob content).mapError .capability).map .blob

def toCapability (cap : Capability) : Value → Except Error (Option Bytes)
  | .blob data => (cap.ofBlob data).mapError .capability
  | .nil => (cap.ofBlob none).mapError .capability
  | v => .error (.invalidType (.blobExpected v.kind))

end Value

end ShapeCodec
