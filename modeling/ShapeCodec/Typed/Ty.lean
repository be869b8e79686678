import ShapeCodec.FloatFormat
import ShapeCodec.Typed.Capability

namespace ShapeCodec

inductive Ty where
  | bool
  | int (kind : IntKind)
  | wide (signed : Bool)
  | float (format : FloatFormat)
  | char
  | string
  | str
  | bytes
  | byteBuf
  | unit
  | ignored
  | value
  | nothing
  | keyless
  /-- The type that goes by this name among those around. -/
  | named (name : String)
  | blob (cap : Capability)
  | option (inner : Ty)
  | seq (elem : Ty)
  | tuple (elems : List Ty)
  | tupleStruct (name : String) (elems : List Ty)
  | map (key val : Ty)
  | struct (name : String) (fields : List (String × Ty))
  | newtype (name : String) (inner : Ty)
  | unitStruct (name : String)
  | enum (name : String)
  deriving Inhabited

abbrev Env :=
  List (String × Ty)

/-- A name that stands for nothing asks for nothing. -/
def Env.meaning (env : Env) (name : String) : Ty :=
  (env.lookup name).getD .nothing

namespace Ty

/-- The outermost type again, in its own environment. -/
def self : Ty :=
  .named ""

def alone (t : Ty) : Env :=
  [("", t)]

def bare : Ty → Ty
  | .newtype _ inner => inner.bare
  | t => t

/-- Looks up names, at most so many of them one after another. -/
def follow (strip : Ty → Ty) (env : Env) : Nat → Ty → Ty
  | 0, t => strip t
  | n + 1, t =>
    match strip t with
    | .named name => follow strip env n (env.meaning name)
    | t => t

def referent (env : Env) (t : Ty) : Ty :=
  follow id env (env.length + 1) t

/-- The type under all newtypes and names. It is a name again only if these go round in a circle. -/
def head (env : Env) (t : Ty) : Ty :=
  follow bare env (env.length + 1) t

def wideName (signed : Bool) : String :=
  if signed then "i128" else "u128"

def elements (n : Nat) : String :=
  if n = 1 then "1 element" else s!"{n} elements"

def expecting : Ty → String
  | .bool => "a boolean"
  | .int kind => kind.name
  | .wide signed => wideName signed
  | .float format => format.name
  | .char => "a character"
  | .string | .str => "a string"
  | .bytes => "a borrowed byte array"
  | .byteBuf => "byte array"
  | .unit => "unit"
  | .ignored => "anything"
  | .value => "any value"
  | .nothing | .keyless | .named _ => "nothing"
  | .blob _ => "blob bytes"
  | .option _ => "option"
  | .seq _ => "a sequence"
  | .tuple elems => s!"a tuple of size {elems.length}"
  | .tupleStruct name _ | .newtype name _ => "tuple struct " ++ name
  | .map _ _ => "a map"
  | .struct name _ => "struct " ++ name
  | .unitStruct name => "unit struct " ++ name
  | .enum name => "enum " ++ name

end Ty

end ShapeCodec
