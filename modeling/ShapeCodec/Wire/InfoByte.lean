import ShapeCodec.Bytes

/-!
The first byte of a unit. Its bits are `SNEILLLL`: the sign of an integer, nil, extension, a depth
that follows, and the number of bytes of an integer.
-/

namespace ShapeCodec

inductive InfoByte where
  | int (negative : Bool) (length : Nat)
  | nil (extended indirect : Bool)
  | reserved (byte : UInt8)
  deriving DecidableEq

namespace InfoByte

def ofByte (b : UInt8) : InfoByte :=
  if b &&& 0x40 ≠ 0 then
    if b &&& 0x8f ≠ 0 then .reserved b
    else .nil (b &&& 0x20 != 0) (b &&& 0x10 != 0)
  else if b &&& 0x30 ≠ 0 ∨ 8 < b &&& 0x0f then .reserved b
  else .int (b &&& 0x80 != 0) (b &&& 0x0f).toNat

def toByte : InfoByte → UInt8
  | .int negative length => (if negative then 0x80 else 0) ||| (UInt8.ofNat length &&& 0x0f)
  | .nil extended indirect =>
    0x40 ||| (if extended then 0x20 else 0) ||| (if indirect then 0x10 else 0)
  | .reserved b => b

def isExtended (b : UInt8) : Bool :=
  b &&& 0x20 != 0

end InfoByte

end ShapeCodec
