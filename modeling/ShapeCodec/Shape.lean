import ShapeCodec.Integer

namespace ShapeCodec

inductive Shape where
  | bool
  | int (kind : IntKind)
  | str
  | blob
  | seq (elem : Shape)
  | map (key val : Shape)
  | record (fields : List (String × Shape))
  | optional (inner : Shape)
  deriving Inhabited

namespace Shape

mutual

def decEq : (s t : Shape) → Decidable (s = t)
  | .bool, .bool | .str, .str | .blob, .blob => isTrue rfl
  | .int a, .int b => decidable_of_iff (a = b) (by simp)
  | .seq a, .seq b => haveI := decEq a b; decidable_of_iff (a = b) (by simp)
  | .map a b, .map c d =>
    haveI := decEq a c
    haveI := decEq b d
    decidable_of_iff (a = c ∧ b = d) (by simp)
  | .record a, .record b => haveI := decEqFields a b; decidable_of_iff (a = b) (by simp)
  | .optional a, .optional b => haveI := decEq a b; decidable_of_iff (a = b) (by simp)
  | .bool, .int _ | .bool, .str | .bool, .blob | .bool, .seq _ | .bool, .map _ _
  | .bool, .record _ | .bool, .optional _
  | .int _, .bool | .int _, .str | .int _, .blob | .int _, .seq _ | .int _, .map _ _
  | .int _, .record _ | .int _, .optional _
  | .str, .bool | .str, .int _ | .str, .blob | .str, .seq _ | .str, .map _ _
  | .str, .record _ | .str, .optional _
  | .blob, .bool | .blob, .int _ | .blob, .str | .blob, .seq _ | .blob, .map _ _
  | .blob, .record _ | .blob, .optional _
  | .seq _, .bool | .seq _, .int _ | .seq _, .str | .seq _, .blob | .seq _, .map _ _
  | .seq _, .record _ | .seq _, .optional _
  | .map _ _, .bool | .map _ _, .int _ | .map _ _, .str | .map _ _, .blob | .map _ _, .seq _
  | .map _ _, .record _ | .map _ _, .optional _
  | .record _, .bool | .record _, .int _ | .record _, .str | .record _, .blob | .record _, .seq _
  | .record _, .map _ _ | .record _, .optional _
  | .optional _, .bool | .optional _, .int _ | .optional _, .str | .optional _, .blob
  | .optional _, .seq _ | .optional _, .map _ _ | .optional _, .record _ => isFalse (by simp)
termination_by structural s => s

def decEqFields : (fs gs : List (String × Shape)) → Decidable (fs = gs)
  | [], [] => isTrue rfl
  | (m, s) :: fs, (n, t) :: gs =>
    haveI := decEq s t
    haveI := decEqFields fs gs
    decidable_of_iff ((m = n ∧ s = t) ∧ fs = gs) (by simp)
  | [], _ :: _ | _ :: _, [] => isFalse (by simp)
termination_by structural fs => fs

end

instance : DecidableEq Shape := decEq

def layers : Shape → Nat
  | .optional inner => inner.layers + 1
  | _ => 0

def base : Shape → Shape
  | .optional inner => inner.base
  | s => s

def optionalN (s : Shape) : Nat → Shape
  | 0 => s
  | n + 1 => .optional (s.optionalN n)

def isOrderable : Shape → Bool
  | .bool | .int _ | .str => true
  | _ => false

def field? (name : String) : Shape → Option (Nat × String × Shape)
  | .record fields => do
    let i ← fields.findIdx? (·.1 == name)
    let f ← fields[i]?
    some (i, f)
  | _ => none

mutual

def render : Shape → String
  | .bool => "bool"
  | .int kind => kind.name
  | .str => "string"
  | .blob => "blob"
  | .seq elem => "[" ++ elem.render ++ "]"
  | .map key val => "map[" ++ key.render ++ "]" ++ val.render
  | .record fields => "\x7b" ++ String.intercalate ", " (renderFields fields) ++ "\x7d"
  | .optional inner => "?" ++ inner.render

def renderFields : List (String × Shape) → List String
  | [] => []
  | (name, s) :: fields => (name ++ ": " ++ s.render) :: renderFields fields

end

end Shape

end ShapeCodec
