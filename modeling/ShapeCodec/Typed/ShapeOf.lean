import ShapeCodec.Depth
import ShapeCodec.Key
import ShapeCodec.Typed.Ty

/-!
The shape of a type, found by answering each of its requests with a placeholder: zero, an empty
text, one element of a sequence, each field of a struct once.
-/

namespace ShapeCodec

/-- Why a type has no shape: for a fault, or because its questions never end. -/
inductive NoShape where
  | fault (e : Error)
  | endless

namespace Ty

def noShape {α : Type} (e : Error) : Except NoShape α :=
  .error (.fault e)

def leaf? : Ty → Option (Except NoShape (Option Shape))
  | .bool => some (.ok (some .bool))
  | .int kind => some (.ok (some (.int kind)))
  | .wide signed => some (noShape (.refused (.unsupported (wideName signed))))
  | .float _ => some (noShape (.invalidType (.noShape "floating point")))
  | .char | .string | .str => some (.ok (some .str))
  | .bytes | .byteBuf => some (.ok (some .blob))
  | .blob cap => some (((cap.ofBlob (some [])).mapError fun text => .fault (.refused (.custom text))).map
      fun _ => some .blob)
  | .unit => some (noShape (.invalidType (.noShape "unit")))
  | .unitStruct name => some (noShape (.invalidType (.noShape name)))
  | .tuple [] | .tupleStruct _ [] => some (noShape (.invalidType (.noShape "empty tuple")))
  | .enum name => some (noShape (.invalidType (.enumShape name)))
  | .ignored => some (noShape (.invalidType .ignored))
  | .value => some (noShape (.invalidType .selfDescribing))
  | .nothing | .keyless | .newtype .. => some (.ok none)
  | .named _ => some (.error .endless)
  | .option _ | .seq _ | .tuple _ | .tupleStruct .. | .map .. | .struct .. => none

def requested : Option Shape → Except NoShape Shape
  | some s => .ok s
  | none => noShape (.invalidType .neverRequested)

def tupleShape : List Shape → Except NoShape (Option Shape)
  | [] => .ok none
  | s :: shapes =>
    if shapes.all (· == s) then .ok (some (.seq s)) else noShape (.invalidType .mixedTuple)

/-- The fields of a struct, which reads each of them once and so has no two of one name. `before`
holds the names of the fields before these. -/
def fieldShapes (ask : Ty → Except NoShape (Option Shape)) :
    List String → List (String × Ty) → Except NoShape (List (String × Shape))
  | _, [] => .ok []
  | before, (name, t) :: fields => do
    if before.contains name then noShape (.refused (.duplicateField name))
    else
      let s ← requested (← ask t)
      .ok ((name, s) :: (← fieldShapes ask (name :: before) fields))

def compound (ask : Ty → Except NoShape (Option Shape)) : Ty → Except NoShape (Option Shape)
  | .option inner => do
    .ok (some (.optional (← requested (← ask inner))))
  | .seq elem => do
    .ok (some (.seq (← requested (← ask elem))))
  | .tuple elems | .tupleStruct _ elems => do
    tupleShape (← elems.mapM fun t => do requested (← ask t))
  | .map key val => do
    let key ← ask key
    let val ← ask val
    let key ← requested key
    key.checkKey.mapError .fault
    .ok (some (.map key (← requested val)))
  | .struct _ fields => do
    .ok (some (.record (← fieldShapes ask [] fields)))
  | _ => .ok none

/-- What a type asks for first, with `left` levels of nesting to go out of `limit`. -/
def ask (env : Env) (limit : Nat) : Nat → Ty → Except NoShape (Option Shape)
  | 0, t =>
    match (head env t).leaf? with
    | some r => r
    | none => noShape (.depthExceeded limit)
  | left + 1, t =>
    match (head env t).leaf? with
    | some r => r
    | none => compound (ask env limit left) (head env t)

def trace (env : Env) (limit : Nat) (t : Ty) : Except NoShape Shape := do
  requested (← ask env limit limit t)

/-- The shape of a type with at most `limit` levels of nesting. Where the questions never end there is no
answer, and none is made up but this one: that the type never asked for a value. -/
def shapeIn (env : Env) (limit : Nat) (t : Ty) : Except Error Shape :=
  match t.trace env limit with
  | .ok s => .ok s
  | .error (.fault e) => .error e
  | .error .endless => .error (.invalidType .neverRequested)

def shapeWithin (limit : Nat) (t : Ty) : Except Error Shape :=
  t.shapeIn t.alone limit

end Ty

end ShapeCodec
