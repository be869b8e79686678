import ShapeCodec.Shape
import ShapeCodec.Bytes

namespace ShapeCodec

/-- Each reference layer of a shape has its own `nil` or `ref` in the value; `nil` also stands for
a sequence, map, record or blob that is absent. -/
inductive Value where
  | nil
  | ref (target : Value)
  | bool (b : Bool)
  | int (n : Integer)
  | str (s : String)
  | blob (content : Option Bytes)
  | seq (items : List Value)
  | map (pairs : List (Value × Value))
  | record (fields : List (String × Value))
  deriving Inhabited

namespace Value

mutual

def decEq : (v w : Value) → Decidable (v = w)
  | .nil, .nil => isTrue rfl
  | .ref v, .ref w => haveI := decEq v w; decidable_of_iff (v = w) (by simp)
  | .bool a, .bool b => decidable_of_iff (a = b) (by simp)
  | .int a, .int b => decidable_of_iff (a = b) (by simp)
  | .str a, .str b => decidable_of_iff (a = b) (by simp)
  | .blob a, .blob b => decidable_of_iff (a = b) (by simp)
  | .seq a, .seq b => haveI := decEqItems a b; decidable_of_iff (a = b) (by simp)
  | .map a, .map b => haveI := decEqPairs a b; decidable_of_iff (a = b) (by simp)
  | .record a, .record b => haveI := decEqFields a b; decidable_of_iff (a = b) (by simp)
  | .nil, .ref _ | .nil, .bool _ | .nil, .int _ | .nil, .str _ | .nil, .blob _ | .nil, .seq _
  | .nil, .map _ | .nil, .record _
  | .ref _, .nil | .ref _, .bool _ | .ref _, .int _ | .ref _, .str _ | .ref _, .blob _
  | .ref _, .seq _ | .ref _, .map _ | .ref _, .record _
  | .bool _, .nil | .bool _, .ref _ | .bool _, .int _ | .bool _, .str _ | .bool _, .blob _
  | .bool _, .seq _ | .bool _, .map _ | .bool _, .record _
  | .int _, .nil | .int _, .ref _ | .int _, .bool _ | .int _, .str _ | .int _, .blob _
  | .int _, .seq _ | .int _, .map _ | .int _, .record _
  | .str _, .nil | .str _, .ref _ | .str _, .bool _ | .str _, .int _ | .str _, .blob _
  | .str _, .seq _ | .str _, .map _ | .str _, .record _
  | .blob _, .nil | .blob _, .ref _ | .blob _, .bool _ | .blob _, .int _ | .blob _, .str _
  | .blob _, .seq _ | .blob _, .map _ | .blob _, .record _
  | .seq _, .nil | .seq _, .ref _ | .seq _, .bool _ | .seq _, .int _ | .seq _, .str _
  | .seq _, .blob _ | .seq _, .map _ | .seq _, .record _
  | .map _, .nil | .map _, .ref _ | .map _, .bool _ | .map _, .int _ | .map _, .str _
  | .map _, .blob _ | .map _, .seq _ | .map _, .record _
  | .record _, .nil | .record _, .ref _ | .record _, .bool _ | .record _, .int _
  | .record _, .str _ | .record _, .blob _ | .record _, .seq _ | .record _, .map _ =>
    isFalse (by simp)
termination_by structural v => v

def decEqItems : (vs ws : List Value) → Decidable (vs = ws)
  | [], [] => isTrue rfl
  | v :: vs, w :: ws =>
    haveI := decEq v w
    haveI := decEqItems vs ws
    decidable_of_iff (v = w ∧ vs = ws) (by simp)
  | [], _ :: _ | _ :: _, [] => isFalse (by simp)
termination_by structural vs => vs

def decEqPairs : (ps qs : List (Value × Value)) → Decidable (ps = qs)
  | [], [] => isTrue rfl
  | (a, b) :: ps, (c, d) :: qs =>
    haveI := decEq a c
    haveI := decEq b d
    haveI := decEqPairs ps qs
    decidable_of_iff ((a = c ∧ b = d) ∧ ps = qs) (by simp)
  | [], _ :: _ | _ :: _, [] => isFalse (by simp)
termination_by structural ps => ps

def decEqFields : (fs gs : List (String × Value)) → Decidable (fs = gs)
  | [], [] => isTrue rfl
  | (m, v) :: fs, (n, w) :: gs =>
    haveI := decEq v w
    haveI := decEqFields fs gs
    decidable_of_iff ((m = n ∧ v = w) ∧ fs = gs) (by simp)
  | [], _ :: _ | _ :: _, [] => isFalse (by simp)
termination_by structural fs => fs

end

instance : DecidableEq Value := decEq

inductive Kind where
  | nil | reference | bool | integer | string | blob | sequence | map | record
  deriving DecidableEq

def Kind.name : Kind → String
  | nil => "nil"
  | reference => "reference"
  | bool => "bool"
  | integer => "integer"
  | string => "string"
  | blob => "blob"
  | sequence => "sequence"
  | map => "map"
  | record => "record"

def kind : Value → Kind
  | .nil => .nil
  | .ref _ => .reference
  | .bool _ => .bool
  | .int _ => .integer
  | .str _ => .string
  | .blob _ => .blob
  | .seq _ => .sequence
  | .map _ => .map
  | .record _ => .record

def bool? : Value → Option Bool
  | .bool b => some b
  | _ => none

def int? : Value → Option Integer
  | .int n => some n
  | _ => none

def str? : Value → Option String
  | .str s => some s
  | _ => none

def blob? : Value → Option (Option Bytes)
  | .blob content => some content
  | _ => none

def seq? : Value → Option (List Value)
  | .seq items => some items
  | _ => none

def map? : Value → Option (List (Value × Value))
  | .map pairs => some pairs
  | _ => none

/-- What a map holds for a key: the last of its pairs with that key counts. -/
def get? (v key : Value) : Option Value :=
  match v with
  | .map pairs => (pairs.reverse.find? (·.1 == key)).map (·.2)
  | _ => none

def field? (name : String) : Value → Option Value
  | .record fields => fields.lookup name
  | _ => none

def putField (name : String) (v : Value) : List (String × Value) → List (String × Value)
  | [] => [(name, v)]
  | (n, w) :: fields => if n = name then (n, v) :: fields else (n, w) :: putField name v fields

def setField? (v : Value) (name : String) (content : Value) : Option Value :=
  match v with
  | .record fields => (fields.lookup name).map fun _ => .record (putField name content fields)
  | _ => none

def referent? : Value → Option Value
  | .nil => none
  | .ref v => v.referent?
  | v => some v

def fields : Value → List (String × Value)
  | .record fields => fields
  | _ => []

end Value

end ShapeCodec
