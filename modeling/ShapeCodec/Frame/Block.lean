import ShapeCodec.Bytes

namespace ShapeCodec.Frame

inductive Block where
  | raw (content : Bytes)
  | run (byte : UInt8) (length : Nat)
  deriving DecidableEq

namespace Block

def content : Block → Bytes
  | raw content => content
  | run b n => List.replicate n b

def largest : Nat := 2 ^ 17

def shortestRun : Nat := 13

def addByte (b : UInt8) : List (UInt8 × Nat) → List (UInt8 × Nat)
  | (c, n) :: runs => if b = c ∧ n < largest then (c, n + 1) :: runs else (b, 1) :: (c, n) :: runs
  | [] => [(b, 1)]

def runs (bs : Bytes) : List (UInt8 × Nat) :=
  bs.foldr addByte []

def addRun (run : UInt8 × Nat) (blocks : List Block) : List Block :=
  if shortestRun ≤ run.2 then .run run.1 run.2 :: blocks
  else
    match blocks with
    | .raw content :: more =>
      if content.length + run.2 ≤ largest then
        .raw (List.replicate run.2 run.1 ++ content) :: more
      else .raw (List.replicate run.2 run.1) :: blocks
    | _ => .raw (List.replicate run.2 run.1) :: blocks

def split (bs : Bytes) : List Block :=
  match (runs bs).foldr addRun [] with
  | [] => [.raw []]
  | blocks => blocks

def header (last : Bool) (type size : Nat) : Bytes :=
  littleEndian 3 ((if last then 1 else 0) + 2 * type + 8 * size)

def write (last : Bool) : Block → Bytes
  | raw content => header last 0 content.length ++ content
  | run b n => header last 1 n ++ [b]

def writeAll : List Block → Bytes
  | [] => []
  | [block] => block.write true
  | block :: blocks => block.write false ++ writeAll blocks

/-- Reads what a block of the given type and size holds; a run must fit in the room. -/
def readContent (type size room : Nat) (input : Bytes) : Option (Bytes × Bytes) :=
  match type, input with
  | 0, input => if size ≤ input.length then some (input.take size, input.drop size) else none
  | 1, b :: rest => if size ≤ room then some (List.replicate size b, rest) else none
  | _, _ => none

/-- Reads blocks up to the last one off the front of the input, no more than `fuel` of them. They
must hold exactly `room` bytes. -/
def readAll : Nat → Nat → Bytes → Option (Bytes × Bytes)
  | 0, _, _ => none
  | fuel + 1, room, a :: b :: c :: input => do
    let head := littleEndianValue [a, b, c]
    let (content, rest) ← readContent (head / 2 % 4) (head / 8) room input
    if room < content.length then none
    else if head % 2 = 1 then
      if content.length = room then some (content, rest) else none
    else (readAll fuel (room - content.length) rest).map fun (more, rest) => (content ++ more, rest)
  | _, _, _ => none

end Block

end ShapeCodec.Frame
