import ShapeCodec.Text.Quoted
import ShapeCodec.Value.Basic

namespace ShapeCodec.Value

mutual

def render : Value → String
  | .nil => "nil"
  | .ref v => "&" ++ v.render
  | .bool b => toString b
  | .int n => n.render
  | .str s => Text.quote s
  | .blob none => "blob(nil)"
  | .blob (some bs) => s!"blob({bs.length} bytes)"
  | .seq items => "[" ++ String.intercalate ", " (renderItems items) ++ "]"
  | .map pairs => "map[" ++ String.intercalate ", " (renderPairs pairs) ++ "]"
  | .record fields => "\x7b" ++ String.intercalate ", " (renderFields fields) ++ "\x7d"

def renderItems : List Value → List String
  | [] => []
  | v :: items => v.render :: renderItems items

def renderPairs : List (Value × Value) → List String
  | [] => []
  | (k, v) :: pairs => (k.render ++ ": " ++ v.render) :: renderPairs pairs

def renderFields : List (String × Value) → List String
  | [] => []
  | (name, v) :: fields => (name ++ ": " ++ v.render) :: renderFields fields

end

end ShapeCodec.Value
