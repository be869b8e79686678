import ShapeCodec.Typed.Codec
import ShapeCodec.Stream.Pending

namespace ShapeCodec

inductive ReadEvent where
  | data (bytes : Bytes)
  | interrupted
  | failure (text : String)
  deriving DecidableEq

namespace ReadEvent

def bufferSize : Nat := 8192

/-- Reads the events of a source once, or more often if it is interrupted. Data that are longer than
the buffer are left for the next read. -/
def read : List ReadEvent → Except String Bytes × List ReadEvent
  | [] => (.ok [], [])
  | .interrupted :: events => read events
  | .failure text :: events => (.error text, events)
  | .data bs :: events =>
    if bs.length ≤ bufferSize then (.ok bs, events)
    else (.ok (bs.take bufferSize), .data (bs.drop bufferSize) :: events)

def reads : List ReadEvent → Nat
  | [] => 1
  | .data bs :: events => bs.length + 1 + reads events
  | _ :: events => 1 + reads events

end ReadEvent

structure Reader where
  source : List ReadEvent
  codec : Codec := {}
  pending : Pending := {}
  ended : Bool := false

namespace Reader

def fill : EStateM Error Reader Unit := fun r =>
  match ReadEvent.read r.source with
  | (.error text, source) => .error (.io text) { r with source }
  | (.ok [], source) => .ok () { r with source, ended := true }
  | (.ok bs, source) => .ok () { r with source, pending := r.pending.extend bs }

def attempt {α : Type} (decoder : ItemDecoder α) : Nat → EStateM Error Reader (Option α)
  | 0 => return none
  | fuel + 1 => do
    let r ← get
    if r.pending.isEmpty then
      if r.ended then return none
      fill
      attempt decoder fuel
    else
      match r.pending.decode decoder with
      | .ok (x, pending) =>
        set { r with pending }
        return some x
      | .error e =>
        if !e.isIncomplete || r.ended then throw e
        ofExcept (r.pending.checkLimit r.codec.config.maxSize)
        fill
        attempt decoder fuel

def next {α : Type} (decoder : ItemDecoder α) : EStateM Error Reader (Option α) := do
  attempt decoder (ReadEvent.reads (← get).source + 2)

def readValue (s : Shape) : EStateM Error Reader (Option Value) := do
  next (decodeValue (← get).codec.config s)

def read (t : StaticType) : EStateM Error Reader (Option Datum) := fun r =>
  match Codec.shapeOf t r.codec with
  | .error e codec => .error e { r with codec }
  | .ok s codec => next (decodeDatum codec.config s t.type) { r with codec }

end Reader

end ShapeCodec
