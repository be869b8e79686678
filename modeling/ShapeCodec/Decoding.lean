import ShapeCodec.Depth
import ShapeCodec.Key
import ShapeCodec.Wire.Payload

/-!
Decoding over a destination. A record is merged into the record it finds there, a reference layer
that is present goes through to its target, and all else is replaced.
-/

namespace ShapeCodec

namespace Wire

/-- Reading a unit off the front of the input, over a destination, which is the state. The result is
what follows the unit. -/
abbrev Update := Bytes → EStateM Error Value Bytes

def replace (r : Except Error (Value × Bytes)) : EStateM Error Value Bytes := fun dst =>
  match r with
  | .ok (v, rest) => .ok rest v
  | .error e => .error e dst

def fresh (update : Update) (input : Bytes) : Except Error (Value × Bytes) :=
  match update input .nil with
  | .ok rest v => .ok (v, rest)
  | .error e _ => .error e

def throughLayer (update : Update) (input : Bytes) : EStateM Error Value Bytes := fun dst =>
  match dst with
  | .ref target =>
    match update input target with
    | .ok rest v => .ok rest (.ref v)
    | .error e v => .error e (.ref v)
  | dst =>
    match update input .nil with
    | .ok rest v => .ok rest (.ref v)
    | .error e _ => .error e dst

/-- Whether all reference layers of the shape are absent: gives what follows the nil unit that says
so. A nil unit of a smaller depth belongs to the layers below. -/
def readAbsentLayers (s : Shape) (input : Bytes) : Except Error (Option Bytes) := do
  match ← readNil input with
  | none => .ok none
  | some (depth, rest) =>
    if depth = s.layers then .ok (some rest)
    else if s.layers < depth then .error (.malformed (.nilPastLayers depth s))
    else .ok none

def readItem (elem : Update) (p : Payload) (i : Nat) (items : Array Value) (input : Bytes) :
    Except Error (Array Value × Bytes) := do
  let (v, rest) ← (fresh elem input).mapError
    (.within .sequence (p.position input) (.element i))
  .ok (items.push v, rest)

def readPair (key val : Update) (p : Payload) (i : Nat) (table : PairTable) (input : Bytes) :
    Except Error (PairTable × Bytes) := do
  let (k, rest) ← (fresh key input).mapError (.within .map (p.position input) (.mapKey i))
  let (v, after) ← (fresh val rest).mapError (.within .map (p.position rest) (.mapValue i))
  .ok (table.put k v, after)

/-- Reads a name and, over the field of that name, its value. `field` says how to read the value of
a field that the record has. -/
def readField (field : String → Option Update) (p : Payload) (i : Nat)
    (fields : List (String × Value)) (input : Bytes) :
    Except Error (List (String × Value) × Bytes) := do
  let start := p.position input
  let (name, rest) ← (readStr input).mapError (.within .record start (.fieldName i))
  match field name with
  | none => .error (.nested start (.fieldName i) (.malformed (.unknownField name)))
  | some update =>
    match update rest ((fields.lookup name).getD .nil) with
    | .ok after v => .ok (Value.putField name v fields, after)
    | .error e _ => .error (e.within .record (p.position rest) (.field name))

def readSeq (depth : Depth) (elem : Depth → Update) (input : Bytes) :
    Except Error (Value × Bytes) := do
  match ← openPayload .sequence input with
  | (none, rest) => .ok (.nil, rest)
  | (some p, rest) =>
    let items ← p.fold (readItem (elem (← depth.enter)) p) #[]
    .ok (.seq items.toList, rest)

def readMap (depth : Depth) (key val : Depth → Update) (input : Bytes) :
    Except Error (Value × Bytes) := do
  match ← openPayload .map input with
  | (none, rest) => .ok (.nil, rest)
  | (some p, rest) =>
    let depth ← depth.enter
    let table ← p.fold (readPair (key depth) (val depth) p) {}
    .ok (.map table.pairs.toList, rest)

def readRecord (depth : Depth) (field : Depth → String → Option Update)
    (fields : List (String × Value)) (input : Bytes) : Except Error (Value × Bytes) := do
  match ← openPayload .record input with
  | (none, rest) => .ok (.nil, rest)
  | (some p, rest) =>
    let fields ← p.fold (readField (field (← depth.enter)) p) fields
    .ok (.record fields, rest)

end Wire

open Wire

mutual

def decodeInto : Shape → Depth → Update
  | .optional inner, depth, input => fun dst =>
    match readAbsentLayers (.optional inner) input with
    | .error e => .error e dst
    | .ok (some rest) => .ok rest .nil
    | .ok none =>
      match depth.enter with
      | .error e => .error e dst
      | .ok depth => throughLayer (decodeInto inner depth) input dst
  | .bool, _, input => replace ((readBool input).map fun (b, rest) => (.bool b, rest))
  | .int kind, _, input => replace do
    let (bits, rest) ← readInt input
    match kind.ofBits? bits with
    | some n => .ok (.int n, rest)
    | none => .error (.invalidType (.outOfRange bits.toInt kind))
  | .str, _, input => replace ((readStr input).map fun (s, rest) => (.str s, rest))
  | .blob, _, input => replace do
    match ← readAbsent input with
    | some rest => .ok (.blob none, rest)
    | none => (readBlob input).map fun (content, rest) => (.blob content, rest)
  | .seq elem, depth, input => replace (readSeq depth (decodeInto elem) input)
  | .map key val, depth, input => replace do
    key.checkKey
    readMap depth (decodeInto key) (decodeInto val) input
  | .record known, depth, input => fun dst =>
    replace (readRecord depth (decodeField known) dst.fields input) dst

def decodeField : List (String × Shape) → Depth → String → Option Update
  | [], _, _ => none
  | (n, s) :: known, depth, name =>
    if n = name then some (decodeInto s depth) else decodeField known depth name

end

end ShapeCodec
