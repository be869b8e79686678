import ShapeCodec.Text.Quoted

namespace ShapeCodec

inductive Shown where
  | bool (b : Bool)
  | int (n : Int)
  | str (s : String)
  | bytes
  | unit
  | option
  | sequence
  | map
  | enum
  deriving DecidableEq

def Shown.text : Shown → String
  | bool b => "boolean `" ++ toString b ++ "`"
  | int n => "integer `" ++ toString n ++ "`"
  | str s => "string " ++ Text.quote s
  | bytes => "byte array"
  | unit => "unit value"
  | option => "Option value"
  | sequence => "sequence"
  | map => "map"
  | enum => "enum"

inductive Refusal where
  | invalidType (shown : Shown) (expected : String)
  | invalidValue (shown : Shown) (expected : String)
  | invalidLength (length : Nat) (expected : String)
  | duplicateField (name : String)
  | missingField (name : String)
  | unsupported (name : String)
  | valueBeforeKey
  | custom (text : String)
  deriving DecidableEq

def Refusal.message : Refusal → String
  | invalidType shown expected => "invalid type: " ++ shown.text ++ ", expected " ++ expected
  | invalidValue shown expected => "invalid value: " ++ shown.text ++ ", expected " ++ expected
  | invalidLength length expected => s!"invalid length {length}, expected " ++ expected
  | duplicateField name => "duplicate field `" ++ name ++ "`"
  | missingField name => "missing field `" ++ name ++ "`"
  | unsupported name => name ++ " is not supported"
  | valueBeforeKey => "map value serialized before its key"
  | custom text => text

end ShapeCodec
