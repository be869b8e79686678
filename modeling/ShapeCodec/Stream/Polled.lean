import ShapeCodec.Typed.Codec
import ShapeCodec.Stream.Pending

namespace ShapeCodec

inductive ChunkEvent where
  | chunk (bytes : Bytes)
  | notReady
  deriving DecidableEq

inductive Polled (α : Type) where
  | notReady
  | item (x : α)
  | failed (e : Error)
  | ended

structure ItemStream where
  events : List ChunkEvent
  pending : Pending := {}
  done : Bool := false

namespace ItemStream

def attempt {α : Type} (decoder : ItemDecoder α) (max : Nat) (events : List ChunkEvent)
    (p : Pending) : Option (Polled α × ItemStream) :=
  if p.isEmpty then none
  else
    match p.decode decoder with
    | .ok (x, pending) => some (.item x, { events, pending })
    | .error e =>
      if e.isIncomplete then
        match p.checkLimit max with
        | .ok () => none
        | .error e => some (.failed e, ⟨events, p, true⟩)
      else some (.failed e, ⟨events, p, true⟩)

def finish {α : Type} (decoder : ItemDecoder α) (p : Pending) : Polled α × ItemStream :=
  if p.isEmpty then (.ended, ⟨[], p, true⟩)
  else
    match p.decode decoder with
    | .ok (x, pending) => (.item x, ⟨[], pending, true⟩)
    | .error e => (.failed e, ⟨[], p, true⟩)

def advance {α : Type} (decoder : ItemDecoder α) (max : Nat) (events : List ChunkEvent)
    (p : Pending) : Polled α × ItemStream :=
  match attempt decoder max events p with
  | some answer => answer
  | none =>
    match events with
    | [] => finish decoder p
    | .notReady :: events => (.notReady, { events, pending := p })
    | .chunk bs :: events => advance decoder max events (p.extend bs)

def poll {α : Type} (decoder : ItemDecoder α) (max : Nat) (s : ItemStream) :
    Polled α × ItemStream :=
  if s.done then (.ended, s) else advance decoder max s.events s.pending

end ItemStream

structure DatumStream where
  type : Ty
  shape : Shape
  config : Config
  items : ItemStream

namespace DatumStream

def ofCodec (t : StaticType) (events : List ChunkEvent) : EStateM Error Codec DatumStream := do
  let shape ← Codec.shapeOf t
  return { type := t.type, shape, config := (← get).config, items := { events } }

def poll (s : DatumStream) : Polled Datum × DatumStream :=
  let (answer, items) := s.items.poll (decodeDatum s.config s.shape s.type) s.config.maxSize
  (answer, { s with items })

end DatumStream

end ShapeCodec
