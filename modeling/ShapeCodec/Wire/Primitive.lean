import ShapeCodec.Error.Basic
import ShapeCodec.Wire.InfoByte

namespace ShapeCodec.Wire

def take (step : Step) (n : Nat) (input : Bytes) : Except Error (Bytes × Bytes) :=
  if input.length < n then .error (.unexpectedEnd step input.length n)
  else .ok (input.take n, input.drop n)

def writeBool (b : Bool) : Bytes :=
  [if b then 1 else 0]

def readBool : Bytes → Except Error (Bool × Bytes)
  | [] => .error (.unexpectedEnd .bool 0 1)
  | b :: rest =>
    if b = 0 then .ok (false, rest)
    else if b = 1 then .ok (true, rest)
    else .error (.invalidType (.boolByte b))

def padding (negative : Bool) : UInt8 :=
  if negative then 0xff else 0

/-- An integer is its pattern, highest byte first, without the bytes that only repeat its sign. -/
def writeInt (bits : BitVec 64) : Bytes :=
  let magnitude := (bigEndian 8 bits.toNat).dropWhile (· == padding bits.msb)
  (InfoByte.int bits.msb magnitude.length).toByte :: magnitude

def extend (negative : Bool) (magnitude : Bytes) : BitVec 64 :=
  let fill := if negative then 2 ^ 64 - 256 ^ magnitude.length else 0
  BitVec.ofNat 64 (fill + bigEndianValue magnitude)

def readInt : Bytes → Except Error (BitVec 64 × Bytes)
  | [] => .error (.unexpectedEnd .intMarker 0 1)
  | b :: rest =>
    match InfoByte.ofByte b with
    | .nil .. => .error (.invalidType .nilForInteger)
    | .reserved b => .error (.invalidType (.reservedForInteger b))
    | .int negative length => do
      let (magnitude, rest) ← take .intMagnitude length rest
      if magnitude.head? = some (padding negative) then .error (.malformed (.notShortest length))
      else .ok (extend negative magnitude, rest)

def writeLength : Option Nat → Bytes
  | none => writeInt (BitVec.ofInt 64 (-1))
  | some n => writeInt (BitVec.ofNat 64 n)

def readLength (step : Step) (input : Bytes) : Except Error (Option Nat × Bytes) := do
  let (bits, rest) ← readInt input
  if bits.toInt = -1 then .ok (none, rest)
  else if bits.toInt < 0 then .error (.malformed (.negativeLength bits.toInt step))
  else .ok (some bits.toNat, rest)

def writeCounted : Option Bytes → Bytes
  | none => writeLength none
  | some content => writeLength (some content.length) ++ content

def writeStr (s : String) : Bytes :=
  writeCounted (some (Text.utf8 s))

def readStr (input : Bytes) : Except Error (String × Bytes) := do
  match ← readLength .stringLength input with
  | (none, _) => .error (.malformed .absentString)
  | (some n, rest) =>
    let (content, rest) ← take .stringContent n rest
    match Text.Utf8.decode content with
    | .ok s => .ok (s, rest)
    | .error fault => .error (.malformed (.badText fault))

def readBlob (input : Bytes) : Except Error (Option Bytes × Bytes) := do
  match ← readLength .blobLength input with
  | (none, rest) => .ok (none, rest)
  | (some n, rest) =>
    let (content, rest) ← take .blobContent n rest
    .ok (some content, rest)

end ShapeCodec.Wire
