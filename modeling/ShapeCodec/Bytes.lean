-- A power of a number means the same with Mathlib imported as without.
attribute [instance (high), default_instance (high + 1)] instPowNat

namespace ShapeCodec

abbrev Bytes := List UInt8

def bigEndianValue (bs : Bytes) : Nat :=
  bs.foldl (fun n b => 256 * n + b.toNat) 0

def bigEndian : Nat → Nat → Bytes
  | 0, _ => []
  | k + 1, n => bigEndian k (n / 256) ++ [UInt8.ofNat n]

def littleEndianValue : Bytes → Nat
  | [] => 0
  | b :: bs => b.toNat + 256 * littleEndianValue bs

def littleEndian : Nat → Nat → Bytes
  | 0, _ => []
  | k + 1, n => UInt8.ofNat n :: littleEndian k (n / 256)

@[simp] theorem length_bigEndian (k n : Nat) : (bigEndian k n).length = k := by
  induction k generalizing n with
  | zero => rfl
  | succ k ih => simp [bigEndian, ih]

@[simp] theorem length_littleEndian (k n : Nat) : (littleEndian k n).length = k := by
  induction k generalizing n with
  | zero => rfl
  | succ k ih => simp [littleEndian, ih]

theorem littleEndianValue_littleEndian (k n : Nat) :
    littleEndianValue (littleEndian k n) = n % 256 ^ k := by
  induction k generalizing n with
  | zero => simp [littleEndian, littleEndianValue, Nat.mod_one]
  | succ k ih =>
    have byte : (UInt8.ofNat n).toNat = n % 256 := by simp
    rw [littleEndian, littleEndianValue, ih, byte, Nat.pow_succ, Nat.mul_comm (256 ^ k) 256,
      Nat.mod_mul]

theorem littleEndianValue_lt (bs : Bytes) : littleEndianValue bs < 256 ^ bs.length := by
  induction bs with
  | nil => exact Nat.zero_lt_one
  | cons b bs ih =>
    have hb := b.toNat_lt
    rw [littleEndianValue, List.length_cons, Nat.pow_succ]
    omega

theorem littleEndian_littleEndianValue (bs : Bytes) :
    littleEndian bs.length (littleEndianValue bs) = bs := by
  induction bs with
  | nil => rfl
  | cons b bs ih =>
    have hb := b.toNat_lt
    have hq : (b.toNat + 256 * littleEndianValue bs) / 256 = littleEndianValue bs := by omega
    have hr : UInt8.ofNat (b.toNat + 256 * littleEndianValue bs) = b := by
      rw [← UInt8.toNat_inj, UInt8.toNat_ofNat']
      omega
    rw [littleEndianValue, List.length_cons, littleEndian, hq, hr, ih]

theorem bigEndianValue_append (xs : Bytes) (b : UInt8) :
    bigEndianValue (xs ++ [b]) = 256 * bigEndianValue xs + b.toNat := by
  simp [bigEndianValue]

theorem bigEndianValue_bigEndian (k n : Nat) :
    bigEndianValue (bigEndian k n) = n % 256 ^ k := by
  induction k generalizing n with
  | zero => simp [bigEndian, bigEndianValue, Nat.mod_one]
  | succ k ih =>
    have byte : (UInt8.ofNat n).toNat = n % 256 := by simp
    rw [bigEndian, bigEndianValue_append, ih, byte, Nat.pow_succ, Nat.mul_comm (256 ^ k) 256,
      Nat.mod_mul]
    omega

end ShapeCodec
