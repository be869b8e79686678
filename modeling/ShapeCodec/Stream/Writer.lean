import ShapeCodec.Typed.Codec

namespace ShapeCodec

structure Sink where
  bytes : Bytes := []
  room : Option Nat := none
  failsWhenFull : Bool := true
  refusesFlush : Bool := false

namespace Sink

def write (bs : Bytes) : EStateM String Sink Unit := fun sink =>
  match sink.room with
  | none => .ok () { sink with bytes := sink.bytes ++ bs }
  | some room =>
    let sink := { sink with bytes := sink.bytes ++ bs.take room, room := some (room - bs.length) }
    if bs.length ≤ room then .ok () sink
    else .error (if sink.failsWhenFull then "sink full" else "failed to write whole buffer") sink

def flush (sink : Sink) : Except String Unit :=
  if sink.refusesFlush then .error "flush refused" else .ok ()

end Sink

structure Writer where
  sink : Sink := {}
  codec : Codec := {}
  offset : Nat := 0
  count : Nat := 0

namespace Writer

def writeEncoded (bs : Bytes) : EStateM Error Writer Nat := fun w =>
  match Sink.write bs w.sink with
  | .ok () sink =>
    .ok bs.length { w with sink, offset := w.offset + bs.length, count := w.count + 1 }
  | .error text sink => .error (.io text) { w with sink }

def writeValue (s : Shape) (v : Value) : EStateM Error Writer Nat := do
  writeEncoded (← ofExcept (encodeValue (← get).codec.config s v))

def write (t : StaticType) (d : Datum) : EStateM Error Writer Nat := fun w =>
  match Codec.encode t d w.codec with
  | .ok bs codec => writeEncoded bs { w with codec }
  | .error e codec => .error e { w with codec }

def flush : EStateM Error Writer Unit := do
  ofExcept ((← get).sink.flush.mapError .io)

end Writer

end ShapeCodec
