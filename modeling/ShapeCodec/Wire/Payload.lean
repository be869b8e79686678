import ShapeCodec.Wire.Nil

/-!
Payloads of composites: a byte count and then units, one after another. The count lets a reader pass
over a composite without a look inside.
-/

namespace ShapeCodec

/-- A failure of a unit inside a payload. If the unit is cut short, the byte count and the units
disagree, and more input would not help. -/
def Error.within (of : Composite) (offset : Nat) (location : Location) (e : Error) : Error :=
  .nested offset location (if e.isIncomplete then .misaligned of e else e)

namespace Wire

structure Payload where
  header : Nat
  bytes : Bytes

def Payload.position (p : Payload) (rest : Bytes) : Nat :=
  p.header + (p.bytes.length - rest.length)

def openPayload (of : Composite) (input : Bytes) :
    Except Error (Option Payload × Bytes) := do
  match ← readAbsent input with
  | some rest => .ok (none, rest)
  | none =>
    match ← readLength (.content of) input with
    | (none, rest) => .ok (none, rest)
    | (some n, rest) =>
      let (bytes, after) ← take (.content of) n rest
      .ok (some ⟨input.length - rest.length, bytes⟩, after)

/-- Reads units until the bytes are used up. `read i s rest` reads the `i`-th of them off the front
of the rest; there are no more units than bytes. -/
def eachUnit {σ : Type} (read : Nat → σ → Bytes → Except Error (σ × Bytes)) :
    Nat → Nat → σ → Bytes → Except Error σ
  | _, _, s, [] => .ok s
  | 0, _, s, _ :: _ => .ok s
  | fuel + 1, i, s, b :: rest => do
    let (s, rest) ← read i s (b :: rest)
    eachUnit read fuel (i + 1) s rest

def Payload.fold {σ : Type} (p : Payload)
    (read : Nat → σ → Bytes → Except Error (σ × Bytes)) (s : σ) : Except Error σ :=
  eachUnit read p.bytes.length 0 s p.bytes

end Wire

end ShapeCodec
