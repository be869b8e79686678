import ShapeCodec.Bytes

namespace ShapeCodec.Text

def utf8 (s : String) : Bytes :=
  s.toList.flatMap String.utf8EncodeChar

namespace Utf8

/-- Where the first bad sequence starts, and how many of its bytes fit. There is no such number if
the bytes end while the sequence could still go on. -/
structure Fault where
  index : Nat
  fitting : Option Nat
  deriving DecidableEq

def Fault.message : Fault → String
  | ⟨index, some n⟩ => s!"invalid utf-8 sequence of {n} bytes from index {index}"
  | ⟨index, none⟩ => s!"incomplete utf-8 byte sequence from index {index}"

/-- What a first byte announces: the bits it carries, the number of bytes that follow, and the
range of the first of them. -/
structure Lead where
  bits : Nat
  follow : Nat
  low : UInt8
  high : UInt8

def lead? (b : UInt8) : Option Lead :=
  if b < 0x80 then some ⟨b.toNat, 0, 0x80, 0xbf⟩
  else if b < 0xc2 then none
  else if b < 0xe0 then some ⟨b.toNat - 0xc0, 1, 0x80, 0xbf⟩
  else if b = 0xe0 then some ⟨0, 2, 0xa0, 0xbf⟩
  else if b = 0xed then some ⟨0xd, 2, 0x80, 0x9f⟩
  else if b < 0xf0 then some ⟨b.toNat - 0xe0, 2, 0x80, 0xbf⟩
  else if b = 0xf0 then some ⟨0, 3, 0x90, 0xbf⟩
  else if b < 0xf4 then some ⟨b.toNat - 0xf0, 3, 0x80, 0xbf⟩
  else if b = 0xf4 then some ⟨4, 3, 0x80, 0x8f⟩
  else none

def follow :
    Nat → UInt8 → UInt8 → Nat → Nat → Bytes → Except (Option Nat) (Nat × Bytes)
  | 0, _, _, code, _, bs => .ok (code, bs)
  | _ + 1, _, _, _, _, [] => .error none
  | n + 1, low, high, code, fitting, b :: bs =>
    if low ≤ b ∧ b ≤ high then
      follow n 0x80 0xbf (code * 64 + (b.toNat - 0x80)) (fitting + 1) bs
    else .error (some fitting)

def next : Bytes → Except (Option Nat) (Char × Bytes)
  | [] => .error none
  | b :: bs =>
    match lead? b with
    | none => .error (some 1)
    | some l =>
      (follow l.follow l.low l.high l.bits 1 bs).map fun (code, rest) => (Char.ofNat code, rest)

def chars : Nat → Nat → Bytes → Except Fault (List Char)
  | _, _, [] => .ok []
  | 0, _, _ :: _ => .ok []
  | fuel + 1, index, b :: bs =>
    match next (b :: bs) with
    | .error fitting => .error ⟨index, fitting⟩
    | .ok (c, rest) => (chars fuel (index + (bs.length + 1 - rest.length)) rest).map (c :: ·)

def decode (bs : Bytes) : Except Fault String :=
  (chars bs.length 0 bs).map String.ofList

end Utf8

end ShapeCodec.Text
