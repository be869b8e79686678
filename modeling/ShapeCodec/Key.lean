import ShapeCodec.Error.Basic

/-!
Keys of maps. An encoding has them in ascending order and each of them once; a decoding takes them
in any order, and the last value of a key counts.
-/

namespace ShapeCodec

namespace Value

def isKeyOf : Value → Shape → Bool
  | .bool _, .bool | .int _, .int _ | .str _, .str => true
  | _, _ => false

/-- The order of keys of one kind: `false` first, integers by size, strings by their bytes. -/
def cmpKey : Value → Value → Option Ordering
  | .bool a, .bool b => some (compare a b)
  | .int a, .int b => some (compare a b)
  | .str a, .str b => some (compare (Text.utf8 a) (Text.utf8 b))
  | _, _ => none

end Value

def mismatch (s : Shape) (v : Value) : Error :=
  .invalidType (.cannotEncode v.kind s)

def Shape.checkKey (key : Shape) : Except Error Unit :=
  if key.isOrderable then .ok () else .error (.invalidType (.keyShape key))

def checkKeys (key : Shape) : Nat → List (Value × Value) → Except Error Unit
  | _, [] => .ok ()
  | i, (k, _) :: pairs =>
    if k.isKeyOf key then checkKeys key (i + 1) pairs
    else .error (.nested 0 (.mapKey i) (mismatch key k))

def sortPairs (pairs : List (Value × Value)) : List (Value × Value) :=
  pairs.mergeSort fun p q => p.1.cmpKey q.1 != some .gt

def repeatedKey? : List (Value × Value) → Option Value
  | p :: q :: pairs =>
    if p.1.cmpKey q.1 = some .eq then some p.1 else repeatedKey? (q :: pairs)
  | _ => none

def orderPairs (key : Shape) (pairs : List (Value × Value)) :
    Except Error (List (Value × Value)) := do
  checkKeys key 0 pairs
  let sorted := sortPairs pairs
  match repeatedKey? sorted with
  | some k => .error (.invalidType (.repeatedKey k))
  | none => .ok sorted

/-- The pairs of a map while it is decoded, in the order in which their keys came first, and the slot of
each key among them. -/
structure PairTable where
  pairs : Array (Value × Value) := #[]
  index : List (Value × Nat) := []

def PairTable.put (k v : Value) (t : PairTable) : PairTable :=
  match t.index.lookup k with
  | some slot => { t with pairs := t.pairs.modify slot fun p => (p.1, v) }
  | none => { pairs := t.pairs.push (k, v), index := (k, t.pairs.size) :: t.index }

end ShapeCodec
