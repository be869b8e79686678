import ShapeCodec.Bytes
import ShapeCodec.Text.Hex

namespace ShapeCodec

inductive IntKind where
  | i8 | i16 | i32 | i64 | u8 | u16 | u32 | u64
  deriving DecidableEq

namespace IntKind

def all : List IntKind := [i8, i16, i32, i64, u8, u16, u32, u64]

def signed : IntKind → Bool
  | i8 | i16 | i32 | i64 => true
  | u8 | u16 | u32 | u64 => false

def width : IntKind → Nat
  | i8 | u8 => 8
  | i16 | u16 => 16
  | i32 | u32 => 32
  | i64 | u64 => 64

def name (k : IntKind) : String :=
  (if k.signed then "i" else "u") ++ toString k.width

end IntKind

/-- The types of words that integers are made from and turned into: those of the kinds, and the two
with the width of an address, which is 64 bits. -/
inductive Word where
  | kind (k : IntKind)
  | usize
  | isize
  deriving DecidableEq

namespace Word

def signed : Word → Bool
  | kind k => k.signed
  | usize => false
  | isize => true

def width : Word → Nat
  | kind k => k.width
  | usize | isize => 64

def least (t : Word) : Int :=
  if t.signed then -2 ^ (t.width - 1) else 0

def greatest (t : Word) : Int :=
  if t.signed then 2 ^ (t.width - 1) - 1 else 2 ^ t.width - 1

def ofUnsigned? (t : Word) (n : BitVec 64) : Option (BitVec t.width) :=
  if n.toNat ≤ t.greatest then some (n.setWidth t.width) else none

def ofSigned? (t : Word) (n : BitVec 64) : Option (BitVec t.width) :=
  if t.least ≤ n.toInt ∧ n.toInt ≤ t.greatest then some (n.setWidth t.width) else none

theorem width_le (t : Word) : t.width ≤ 64 := by
  cases t with
  | kind k => cases k <;> decide
  | usize => exact Nat.le_refl _
  | isize => exact Nat.le_refl _

end Word

namespace Integer

/-- How an integer is held: in 64 bits without a sign, or with one. -/
inductive Form where
  | posInt (n : BitVec 64)
  | negInt (n : BitVec 64)
  deriving DecidableEq

namespace Form

def Normal : Form → Prop
  | posInt _ => True
  | negInt n => n.toInt < 0

def value : Form → Int
  | posInt n => n.toNat
  | negInt n => n.toInt

def bits : Form → BitVec 64
  | posInt n => n
  | negInt n => n

def ofUnsigned {w : Nat} (x : BitVec w) : Form :=
  posInt (x.setWidth 64)

def ofSigned {w : Nat} (x : BitVec w) : Form :=
  if x.toInt < 0 then negInt (x.signExtend 64) else posInt (x.signExtend 64)

def ofWord (t : Word) (x : BitVec t.width) : Form :=
  if t.signed then ofSigned x else ofUnsigned x

theorem normal_ofSigned {w : Nat} (hw : w ≤ 64) (x : BitVec w) : (ofSigned x).Normal := by
  rw [ofSigned]
  split
  · next hx =>
    rw [Normal, BitVec.toInt_signExtend_of_le hw]
    exact hx
  · trivial

def convert (t : Word) (f : Form) : Except Form (BitVec t.width) :=
  match f with
  | posInt n => (t.ofUnsigned? n).elim (.error f) .ok
  | negInt n => (t.ofSigned? n).elim (.error f) .ok

/-- What is held with a sign is below zero and comes first. -/
def cmp : Form → Form → Ordering
  | negInt m, negInt n => compare m.toInt n.toInt
  | negInt _, posInt _ => .lt
  | posInt _, negInt _ => .gt
  | posInt m, posInt n => compare m.toNat n.toNat

def render : Form → String
  | posInt n => s!"PosInt({n.toNat})"
  | negInt n => s!"NegInt({n.toInt})"

end Form

end Integer

/-- An integer that some kind of 64 bits can hold, with a sign or without. -/
structure Integer where
  form : Integer.Form
  normal : form.Normal
  deriving DecidableEq

namespace Integer

def ofSigned (b : BitVec 64) : Integer :=
  ⟨.ofSigned b, Form.normal_ofSigned (Nat.le_refl 64) b⟩

def ofUnsigned (b : BitVec 64) : Integer :=
  ⟨.ofUnsigned b, trivial⟩

def ofInt? (n : Int) : Option Integer :=
  if 0 ≤ n ∧ n < 2 ^ 64 then some (ofUnsigned (BitVec.ofInt 64 n))
  else if -2 ^ 63 ≤ n ∧ n < 0 then some (ofSigned (BitVec.ofInt 64 n))
  else none

instance : Inhabited Integer := ⟨⟨.posInt 0, trivial⟩⟩

def least : Integer := ⟨.negInt (BitVec.intMin 64), show (BitVec.intMin 64).toInt < 0 by decide⟩

def greatest : Integer := ⟨.posInt (BitVec.allOnes 64), trivial⟩

def val (n : Integer) : Int := n.form.value

def bits (n : Integer) : BitVec 64 := n.form.bits

def i64? (n : Integer) : Option Int :=
  match n.form with
  | .posInt v => (Word.ofUnsigned? (.kind .i64) v).map BitVec.toInt
  | .negInt v => some v.toInt

def u64? (n : Integer) : Option Int :=
  match n.form with
  | .posInt v => some v.toNat
  | .negInt _ => none

instance : Ord Integer := ⟨fun a b => a.form.cmp b.form⟩

def render (n : Integer) : String :=
  match n.form with
  | .posInt v => toString v.toNat
  | .negInt v => toString v.toInt

end Integer

namespace IntKind

open Integer

def holds (k : IntKind) (f : Form) : Bool :=
  (f.convert (.kind k)).isOk

def contains (k : IntKind) (n : Integer) : Bool :=
  k.holds n.form

def fromBits? (k : IntKind) (b : BitVec 64) : Option Form :=
  let f := if k.signed then .ofSigned b else .ofUnsigned b
  if k.holds f then some f else none

theorem normal_of_fromBits? {k : IntKind} {b : BitVec 64} {f : Form} (h : k.fromBits? b = some f) : f.Normal := by
  obtain ⟨-, h⟩ := Option.ite_none_right_eq_some.mp h
  cases h
  split
  · exact Form.normal_ofSigned (Nat.le_refl 64) b
  · trivial

def ofBits? (k : IntKind) (b : BitVec 64) : Option Integer :=
  (k.fromBits? b).pmap Integer.mk fun _ h => normal_of_fromBits? h

end IntKind

end ShapeCodec
