import ShapeCodec.Typed.Datum

namespace ShapeCodec

namespace Value

def shown : Value → Shown
  | .nil => .unit
  | .ref _ | .blob none => .option
  | .bool b => .bool b
  | .int n => .int n.val
  | .str s => .str s
  | .blob (some _) => .bytes
  | .seq _ => .sequence
  | .map _ | .record _ => .map

end Value

/-- A value that waits for the type as which to read it. -/
abbrev Reading := Ty → Except Error Datum

namespace Reading

def refuse (shown : Shown) (expected : String) {α : Type} : Except Error α :=
  .error (.refused (.invalidType shown expected))

def indifferent? : Ty → Option (Except Error Datum)
  | .nothing | .ignored => some (.ok .unit)
  | .keyless => some (.ok .keyless)
  | .enum name => some (.error (.invalidType (.enumDecoded name)))
  | _ => none

/-- Takes newtypes off, and options too if `bare` says that the value is no reference layer itself.
Names are read by `again`. -/
def unwrap (bare : Bool) (read : Reading) (again : String → Except Error Datum) : Reading
  | .newtype _ t => (unwrap bare read again t).map .newtype
  | .option t => if bare then (unwrap bare read again t).map .present else read (.option t)
  | .named name => again name
  | t => (indifferent? t).getD (read t)

def underWithin (env : Env) (bare : Bool) (read : Reading) : Nat → Reading
  | 0 => unwrap bare read fun _ => .error (.invalidType .neverRequested)
  | n + 1 => unwrap bare read fun name => underWithin env bare read n (env.meaning name)

/-- Reads with newtypes and names out of the way. A type that is nothing but names asks for nothing. -/
def under (env : Env) (bare : Bool) (read : Reading) : Reading :=
  underWithin env bare read (env.length + 1)

def ofBool (b : Bool) : Reading
  | .bool | .value => .ok (.bool b)
  | t => refuse (.bool b) t.expecting

def ofInt (n : Integer) : Reading
  | .int kind =>
    if kind.contains n then .ok (.int n)
    else .error (.refused (.invalidValue (.int n.val) kind.name))
  | .wide signed =>
    if signed || 0 ≤ n.val then .ok (.wide signed n.val)
    else .error (.refused (.invalidValue (.int n.val) (Ty.wideName signed)))
  | .float format => .ok (.float format (format.ofInt n.val))
  | .value => .ok (.int n)
  | t => refuse (.int n.val) t.expecting

def ofStr (s : String) : Reading
  | .char =>
    match s.toList with
    | [c] => .ok (.char c)
    | _ => .error (.refused (.invalidValue (.str s) (Ty.expecting .char)))
  | .string | .str | .value => .ok (.str s)
  | .byteBuf => .ok (.bytes (Text.utf8 s))
  | t => refuse (.str s) t.expecting

def convert (cap : Capability) (data : Option Bytes) : Except Error Datum :=
  ((cap.ofBlob data).mapError fun text => .refused (.custom text)).map (.blob cap)

def ofBytes (bs : Bytes) : Reading
  | .bytes | .byteBuf | .value => .ok (.bytes bs)
  | .string =>
    match Text.Utf8.decode bs with
    | .ok s => .ok (.str s)
    | .error _ => .error (.refused (.invalidValue .bytes (Ty.expecting .string)))
  | .blob cap => convert cap (some bs)
  | t => refuse .bytes t.expecting

def ofAbsentBlob : Reading
  | .option _ | .value => .ok .absent
  | .blob cap => convert cap none
  | t => refuse .option t.expecting

def ofRef (target : Reading) : Reading
  | .option t => (target t).map .present
  | .value => (target .value).map .present
  | t => refuse .option t.expecting

def readEach (expected : String) : Nat → List Ty → List Reading → Except Error (List Datum)
  | _, [], [] => .ok []
  | i, [], rest =>
    .error (.refused (.invalidLength (i + rest.length) (Ty.elements i ++ " in sequence")))
  | i, _ :: _, [] => .error (.refused (.invalidLength i expected))
  | i, t :: ts, item :: items => do
    let d ← item t
    let ds ← readEach expected (i + 1) ts items
    .ok (d :: ds)

def readByte (item : Reading) : Except Error UInt8 := do
  match ← item (.int .u8) with
  | .int n => .ok (UInt8.ofNat n.val.toNat)
  | _ => .ok 0

def ofItems (items : List Reading) : Reading
  | .seq t => (items.mapM fun (item : Reading) => item t).map .seq
  | .value => (items.mapM fun (item : Reading) => item .value).map .seq
  | .tuple ts => (readEach (Ty.expecting (.tuple ts)) 0 ts items).map .seq
  | .tupleStruct name ts =>
    (readEach ("tuple struct " ++ name ++ " with " ++ Ty.elements ts.length) 0 ts items).map .seq
  | .struct name fields => do
    let expected := "struct " ++ name ++ " with " ++ Ty.elements fields.length
    let ds ← readEach expected 0 (fields.map (·.2)) items
    .ok (.struct ((fields.map (·.1)).zip ds))
  | .byteBuf => (items.mapM readByte).map .bytes
  | t => refuse .sequence t.expecting

inductive FieldKey where
  | name (s : String)
  | bytes (bs : Bytes)
  | index (n : Nat)

def FieldKey.find? (fields : List (String × Ty)) (key : FieldKey) :
    Option (Nat × String × Ty) := do
  let i ←
    match key with
    | .name s => fields.findIdx? (·.1 == s)
    | .bytes bs => fields.findIdx? (Text.utf8 ·.1 == bs)
    | .index n => some n
  let field ← fields[i]?
  some (i, field)

structure Entry where
  field : Except Error FieldKey
  key : Reading
  val : Reading

def fieldKey : Value → Except Error FieldKey
  | .str s => .ok (.name s)
  | .blob (some bs) => .ok (.bytes bs)
  | .int n =>
    if 0 ≤ n.val then .ok (.index n.val.toNat) else refuse (.int n.val) "field identifier"
  | v => refuse v.shown "field identifier"

def readFields (fields : List (String × Ty)) :
    List (Nat × Datum) → List Entry → Except Error (List (Nat × Datum))
  | got, [] => .ok got
  | got, e :: entries => do
    match (← e.field).find? fields with
    | none => readFields fields got entries
    | some (i, name, t) =>
      if (got.lookup i).isSome then .error (.refused (.duplicateField name))
      else do
        let d ← e.val t
        readFields fields ((i, d) :: got) entries

def missing (env : Env) (name : String) (t : Ty) : Except Error Datum :=
  match t.referent env with
  | .option _ => .ok .absent
  | .nothing => .ok .unit
  | .keyless => .ok .keyless
  | _ => .error (.refused (.missingField name))

def readPairs (key val : Ty) (entries : List Entry) : Except Error Datum := do
  let pairs ← entries.mapM fun e => do
    let k ← e.key key
    let v ← e.val val
    .ok (k, v)
  .ok (.map pairs)

def ofEntries (env : Env) (entries : List Entry) : Reading
  | .map key val => readPairs key val entries
  | .value => readPairs .value .value entries
  | .struct _ fields => do
    let got ← readFields fields [] entries
    let all ← fields.zipIdx.mapM fun ((name, t), i) =>
      match got.lookup i with
      | some d => .ok (name, d)
      | none => (missing env name t).map fun d => (name, d)
    .ok (.struct all)
  | t => refuse .map t.expecting

def ofNil (env : Env) : Reading
  | .option _ | .value => .ok .absent
  | .unit => .ok .unit
  | .unitStruct name => .ok (.unitStruct name)
  | .bytes => refuse .option (Ty.expecting .bytes)
  | .byteBuf => refuse .option (Ty.expecting .byteBuf)
  | .blob cap => convert cap none
  | .seq t => ofItems [] (.seq t)
  | .tuple ts => ofItems [] (.tuple ts)
  | .tupleStruct name ts => ofItems [] (.tupleStruct name ts)
  | .map key val => ofEntries env [] (.map key val)
  | .struct name fields => ofEntries env [] (.struct name fields)
  | t => refuse .unit t.expecting

/-- The name of a record field as a key. It is a text that neither options nor newtypes take, and
also the variant of an enum, which no enum takes either. -/
def ofName (env : Env) (s : String) (t : Ty) : Except Error Datum :=
  match t.referent env with
  | .enum name => refuse .enum (Ty.expecting (.enum name))
  | t => (indifferent? t).getD (ofStr s t)

end Reading

namespace Value

open Reading

mutual

def read (env : Env) : Value → Reading
  | .nil => under env false (ofNil env)
  | .ref v => under env false (ofRef (read env v))
  | .bool b => under env true (ofBool b)
  | .int n => under env true (ofInt n)
  | .str s => under env true (ofStr s)
  | .blob none => under env false ofAbsentBlob
  | .blob (some bs) => under env true (ofBytes bs)
  | .seq items => under env true (ofItems (itemReadings env items))
  | .map pairs => under env true (ofEntries env (pairEntries env pairs))
  | .record fields => under env true (ofEntries env (fieldEntries env fields))

def itemReadings (env : Env) : List Value → List Reading
  | [] => []
  | v :: items => read env v :: itemReadings env items

def pairEntries (env : Env) : List (Value × Value) → List Entry
  | [] => []
  | (k, v) :: pairs => ⟨fieldKey k, read env k, read env v⟩ :: pairEntries env pairs

def fieldEntries (env : Env) : List (String × Value) → List Entry
  | [] => []
  | (name, v) :: fields =>
    ⟨.ok (.name name), ofName env name, read env v⟩ :: fieldEntries env fields

end

def toDatum (v : Value) (t : Ty) : Except Error Datum :=
  read t.alone v t

end Value

end ShapeCodec
