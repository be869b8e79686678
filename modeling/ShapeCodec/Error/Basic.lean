import ShapeCodec.Error.DataFault
import ShapeCodec.Error.TypeFault
import ShapeCodec.Frame.Fault
import ShapeCodec.Typed.Refusal

namespace ShapeCodec

inductive Location where
  | element (index : Nat)
  | mapKey (index : Nat)
  | mapValue (index : Nat)
  | fieldName (index : Nat)
  | field (name : String)
  | stream (index : Nat)
  deriving DecidableEq

def Location.text : Location → String
  | element i => s!"element {i}"
  | mapKey i => s!"key of map pair {i}"
  | mapValue i => s!"value of map pair {i}"
  | fieldName i => s!"name of record pair {i}"
  | field name => "field `" ++ name ++ "`"
  | stream i => s!"stream value {i}"

inductive Error where
  | unexpectedEnd (step : Step) (actual expected : Nat)
  | headerCutShort (step : Step)
  | invalidType (fault : TypeFault)
  | malformed (fault : DataFault)
  | badNilDepth (cause : Error)
  | misaligned (of : Composite) (cause : Error)
  | capability (text : String)
  | refused (why : Refusal)
  | depthExceeded (limit : Nat)
  | tooLong (max actual : Nat)
  | frame (fault : Frame.Fault)
  | io (text : String)
  | nested (offset : Nat) (location : Location) (cause : Error)
  deriving DecidableEq

namespace Error

inductive Kind where
  | unexpectedEof | invalidType | malformedData | capability | refusal | parseLimit | lengthTooLong
  | compression | io
  deriving DecidableEq

def root : Error → Error
  | nested _ _ cause => cause.root
  | e => e

def kind : Error → Kind
  | unexpectedEnd .. => .unexpectedEof
  | headerCutShort _ | malformed _ | badNilDepth _ | misaligned .. => .malformedData
  | invalidType _ => .invalidType
  | capability _ => .capability
  | refused _ => .refusal
  | depthExceeded _ => .parseLimit
  | tooLong .. => .lengthTooLong
  | frame _ => .compression
  | io _ => .io
  | nested _ _ cause => cause.kind

def offset : Error → Nat
  | nested n _ cause => n + cause.offset
  | _ => 0

def isEof (e : Error) : Bool :=
  e.kind == .unexpectedEof

def isIncomplete : Error → Bool
  | unexpectedEnd .. | headerCutShort _ => true
  | nested _ _ cause => cause.isIncomplete
  | _ => false

def sources : Error → Nat
  | nested _ _ cause => cause.sources + 1
  | capability _ | frame _ | io _ => 1
  | _ => 0

def message : Error → String
  | unexpectedEnd step actual expected =>
    s!"Unexpected end of data: expected {expected} bytes, but got {actual} on step [{step.text}]"
  | headerCutShort step => s!"Malformed data: nil header cut short on step [{step.text}]"
  | invalidType fault => "Invalid type: " ++ fault.message
  | malformed fault => "Malformed data: " ++ fault.message
  | badNilDepth cause => "Malformed data: bad indirection depth: " ++ cause.message
  | misaligned of cause =>
    "Malformed data: " ++ of.name ++ " payload ends partway through a unit: " ++ cause.message
  | capability text => "Blob capability failed: " ++ text
  | refused why => why.message
  | depthExceeded limit => s!"Hit parsing limit: Depth limit of {limit} exceeded"
  | tooLong max actual => s!"Data too long: was {actual} bytes, maximum allowed is {max}"
  | frame fault => "Compression failure: " ++ fault.message
  | io text => "I/O failure: " ++ text
  | nested offset location cause => s!"at +{offset} ({location.text}): " ++ cause.message

end Error

end ShapeCodec
