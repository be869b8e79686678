import ShapeCodec.Typed.Ty

namespace ShapeCodec

inductive Datum where
  | bool (b : Bool)
  | int (n : Integer)
  | wide (signed : Bool) (n : Int)
  | float (format : FloatFormat) (bits : Nat)
  | char (c : Char)
  | str (s : String)
  | bytes (bs : Bytes)
  | unit
  | unitStruct (name : String)
  | enum (name : String)
  | keyless
  | blob (cap : Capability) (content : Option Bytes)
  | absent
  | present (d : Datum)
  | seq (items : List Datum)
  | map (pairs : List (Datum × Datum))
  /-- The fields that are there; those left out are not written. -/
  | struct (fields : List (String × Datum))
  | newtype (d : Datum)
  deriving Inhabited

namespace Datum

mutual

/-- A dynamic value as data. The names of record fields become texts, and an absent blob is no more
than absent. -/
def ofValue : Value → Datum
  | .nil => .absent
  | .ref v => .present (ofValue v)
  | .bool b => .bool b
  | .int n => .int n
  | .str s => .str s
  | .blob none => .absent
  | .blob (some bs) => .bytes bs
  | .seq items => .seq (ofItems items)
  | .map pairs => .map (ofPairs pairs)
  | .record fields => .map (ofFields fields)

def ofItems : List Value → List Datum
  | [] => []
  | v :: items => ofValue v :: ofItems items

def ofPairs : List (Value × Value) → List (Datum × Datum)
  | [] => []
  | (k, v) :: pairs => (ofValue k, ofValue v) :: ofPairs pairs

def ofFields : List (String × Value) → List (Datum × Datum)
  | [] => []
  | (name, v) :: fields => (.str name, ofValue v) :: ofFields fields

end

mutual

def toValue : Datum → Except Error Value
  | .bool b => .ok (.bool b)
  | .int n => .ok (.int n)
  | .wide signed _ => .error (.refused (.unsupported (Ty.wideName signed)))
  | .float format _ => .error (.invalidType (.cannotRepresent format.name))
  | .char c => .ok (.str c.toString)
  | .str s => .ok (.str s)
  | .bytes bs => .ok (.blob (some bs))
  | .unit => .error (.invalidType (.cannotRepresent "unit"))
  | .unitStruct name | .enum name => .error (.invalidType (.cannotRepresent name))
  | .keyless => .error (.refused .valueBeforeKey)
  | .blob cap content =>
    match cap.toBlob content with
    | .ok (some bs) => .ok (.blob (some bs))
    | .ok none => .ok .nil
    | .error text => .error (.refused (.custom text))
  | .absent => .ok .nil
  | .present d => d.toValue.map .ref
  | .seq items => (toItems items).map .seq
  | .map pairs => (toPairs pairs).map .map
  | .struct fields => (toFields fields).map .record
  | .newtype d => d.toValue

def toItems : List Datum → Except Error (List Value)
  | [] => .ok []
  | d :: items => do .ok ((← d.toValue) :: (← toItems items))

def toPairs : List (Datum × Datum) → Except Error (List (Value × Value))
  | [] => .ok []
  | (k, d) :: pairs => do .ok ((← k.toValue, ← d.toValue) :: (← toPairs pairs))

def toFields : List (String × Datum) → Except Error (List (String × Value))
  | [] => .ok []
  | (name, d) :: fields => do .ok ((name, ← d.toValue) :: (← toFields fields))

end

end Datum

end ShapeCodec
