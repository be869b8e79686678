import ShapeCodec.Bytes

namespace ShapeCodec

structure FloatFormat where
  name : String
  fraction : Nat
  exponent : Nat

namespace FloatFormat

def single : FloatFormat := ⟨"f32", 23, 8⟩

def double : FloatFormat := ⟨"f64", 52, 11⟩

def width (f : FloatFormat) : Nat :=
  1 + f.exponent + f.fraction

/-- The number divided by a power of two and rounded to the nearest, a half to the even side. -/
def shiftNearest (n shift : Nat) : Nat :=
  let quotient := n >>> shift
  let twice := 2 * (n - quotient <<< shift)
  let whole := 1 <<< shift
  if whole < twice ∨ twice = whole ∧ quotient % 2 = 1 then quotient + 1 else quotient

def magnitudeBits (f : FloatFormat) (n : Nat) : Nat :=
  let top := n.log2
  let significand :=
    if top ≤ f.fraction then n <<< (f.fraction - top) else shiftNearest n (top - f.fraction)
  let bias := 2 ^ (f.exponent - 1) - 1
  (bias + top - 1) * 2 ^ f.fraction + significand

def ofInt (f : FloatFormat) (n : Int) : Nat :=
  if n = 0 then 0
  else (if n < 0 then 2 ^ (f.width - 1) else 0) + f.magnitudeBits n.natAbs

end FloatFormat

end ShapeCodec
