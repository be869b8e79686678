import ShapeCodec.Wire.Primitive
import ShapeCodec.Proofs.Outcome
import Mathlib.Data.List.Induction
import Mathlib.Data.List.TakeWhile
import Mathlib.Tactic.IntervalCases
import Mathlib.Tactic.Ring

/-!
Integers on the wire: every pattern is read back from its encoding, and from no other bytes but one: all
eight bytes of it under the wrong sign.
-/

namespace ShapeCodec

theorem bigEndianValue_append_list (xs ys : Bytes) :
    bigEndianValue (xs ++ ys) = bigEndianValue xs * 256 ^ ys.length + bigEndianValue ys := by
  induction ys using List.reverseRecOn with
  | nil => simp [bigEndianValue]
  | append_singleton ys b ih =>
    rw [← List.append_assoc, bigEndianValue_append, ih, bigEndianValue_append, List.length_append,
      List.length_singleton, Nat.pow_succ]
    ring

theorem bigEndianValue_lt (bs : Bytes) : bigEndianValue bs < 256 ^ bs.length := by
  induction bs using List.reverseRecOn with
  | nil => simp [bigEndianValue]
  | append_singleton bs b ih =>
    have hb := b.toNat_lt
    rw [bigEndianValue_append, List.length_append, List.length_singleton, Nat.pow_succ]
    omega

theorem bigEndian_bigEndianValue (bs : Bytes) :
    bigEndian bs.length (bigEndianValue bs) = bs := by
  induction bs using List.reverseRecOn with
  | nil => rfl
  | append_singleton bs b ih =>
    have hb := b.toNat_lt
    have hq : (256 * bigEndianValue bs + b.toNat) / 256 = bigEndianValue bs := by omega
    have hr : UInt8.ofNat (256 * bigEndianValue bs + b.toNat) = b := by
      rw [← UInt8.toNat_inj, UInt8.toNat_ofNat']
      omega
    rw [bigEndianValue_append, List.length_append, List.length_singleton, bigEndian, hq, hr, ih]

theorem bigEndianValue_zeros (k : Nat) : bigEndianValue (List.replicate k 0) = 0 := by
  induction k with
  | zero => rfl
  | succ k ih => rw [List.replicate_succ', bigEndianValue_append, ih]; rfl

theorem bigEndianValue_ones (k : Nat) : bigEndianValue (List.replicate k 0xff) = 256 ^ k - 1 := by
  induction k with
  | zero => rfl
  | succ k ih =>
    have hp : 0 < 256 ^ k := Nat.pow_pos (by decide)
    rw [List.replicate_succ', bigEndianValue_append, ih, Nat.pow_succ]
    simp only [UInt8.reduceToNat]
    omega

namespace InfoByte

theorem ofByte_toByte_int {length : Nat} (h : length ≤ 8) (negative : Bool) :
    ofByte (toByte (.int negative length)) = .int negative length := by
  interval_cases length <;> cases negative <;> rfl

theorem length_le_of_ofByte {b : UInt8} {negative : Bool} {length : Nat}
    (h : ofByte b = .int negative length) : length ≤ 8 := by
  unfold ofByte at h
  split at h
  · split at h <;> cases h
  · split at h
    · cases h
    · next hb =>
      simp only [not_or, UInt8.not_lt, UInt8.le_iff_toNat_le] at hb
      cases h
      exact hb.2

theorem toByte_ofByte (b : UInt8) : (ofByte b).toByte = b := by
  have h : ∀ n : Fin 256, (ofByte (UInt8.ofNat n)).toByte = UInt8.ofNat n := by decide +kernel
  have hb := h ⟨b.toNat, b.toNat_lt⟩
  rwa [UInt8.ofNat_toNat] at hb

end InfoByte

namespace Wire

@[simp] theorem take_append (step : Step) (xs ys : Bytes) :
    take step xs.length (xs ++ ys) = .ok (xs, ys) := by
  simp [take]

theorem take_eq_ok {step : Step} {n : Nat} {input xs rest : Bytes}
    (h : take step n input = .ok (xs, rest)) : input = xs ++ rest ∧ xs.length = n := by
  unfold take at h
  split at h
  · cases h
  · cases h
    exact ⟨(List.take_append_drop n input).symm, by rw [List.length_take]; omega⟩

def padded (negative : Bool) (bs : Bytes) : Bytes :=
  List.replicate (8 - bs.length) (padding negative) ++ bs

theorem toNat_extend {bs : Bytes} (h : bs.length ≤ 8) (negative : Bool) :
    (extend negative bs).toNat = bigEndianValue (padded negative bs) := by
  have hm := bigEndianValue_lt bs
  have hp : 256 ^ bs.length ≤ 256 ^ 8 := Nat.pow_le_pow_right (by decide) h
  rw [padded, bigEndianValue_append_list, extend, BitVec.toNat_ofNat]
  cases negative with
  | false =>
    simp only [padding, Bool.false_eq_true, if_false, bigEndianValue_zeros]
    rw [Nat.mod_eq_of_lt (by omega)]
    omega
  | true =>
    have hs : 256 ^ (8 - bs.length) * 256 ^ bs.length = 2 ^ 64 := by
      rw [← Nat.pow_add, Nat.sub_add_cancel h]
    have hq : (256 ^ (8 - bs.length) - 1) * 256 ^ bs.length = 2 ^ 64 - 256 ^ bs.length := by
      rw [Nat.sub_mul, hs, Nat.one_mul]
    simp only [padding, if_true, bigEndianValue_ones, hq]
    rw [Nat.mod_eq_of_lt (by omega)]

theorem bigEndian_extend {bs : Bytes} (h : bs.length ≤ 8) (negative : Bool) :
    bigEndian 8 (extend negative bs).toNat = padded negative bs := by
  have hp : (padded negative bs).length = 8 := by simp [padded]; omega
  rw [toNat_extend h, ← hp, bigEndian_bigEndianValue]

theorem msb_extend_of_length_lt {bs : Bytes} (h : bs.length < 8) (negative : Bool) :
    (extend negative bs).msb = negative := by
  have hm := bigEndianValue_lt bs
  have hp : 256 ^ bs.length ≤ 256 ^ 7 := Nat.pow_le_pow_right (by decide) (by omega)
  rw [BitVec.msb_eq_decide, extend, BitVec.toNat_ofNat]
  cases negative <;> simp <;> omega

def magnitude (bits : BitVec 64) : Bytes :=
  (bigEndian 8 bits.toNat).dropWhile (· == padding bits.msb)

theorem writeInt_eq (bits : BitVec 64) :
    writeInt bits = (InfoByte.int bits.msb (magnitude bits).length).toByte :: magnitude bits := rfl

theorem length_magnitude_le (bits : BitVec 64) : (magnitude bits).length ≤ 8 := by
  have h := (List.dropWhile_sublist (· == padding bits.msb) (l := bigEndian 8 bits.toNat)).length_le
  rwa [length_bigEndian] at h

theorem padded_magnitude (bits : BitVec 64) :
    padded bits.msb (magnitude bits) = bigEndian 8 bits.toNat := by
  have hs := List.takeWhile_append_dropWhile (p := (· == padding bits.msb))
    (l := bigEndian 8 bits.toNat)
  have hl := congrArg List.length hs
  rw [List.length_append, length_bigEndian] at hl
  have hr : (bigEndian 8 bits.toNat).takeWhile (· == padding bits.msb) =
      List.replicate (8 - (magnitude bits).length) (padding bits.msb) := by
    rw [List.eq_replicate_iff]
    constructor
    · rw [magnitude]
      omega
    · intro b hb
      simpa using List.mem_takeWhile_imp hb
  rw [padded, ← hr]
  exact hs

theorem extend_magnitude (bits : BitVec 64) : extend bits.msb (magnitude bits) = bits := by
  apply BitVec.eq_of_toNat_eq
  rw [toNat_extend (length_magnitude_le bits), padded_magnitude, bigEndianValue_bigEndian]
  exact Nat.mod_eq_of_lt bits.isLt

theorem head?_magnitude_ne (bits : BitVec 64) :
    (magnitude bits).head? ≠ some (padding bits.msb) := by
  intro h
  have hd := List.head?_dropWhile_not (· == padding bits.msb) (bigEndian 8 bits.toNat)
  rw [magnitude] at h
  rw [h] at hd
  simp at hd

theorem length_magnitude_extend_le {bs : Bytes} (h : bs.length ≤ 8) (negative : Bool) :
    (magnitude (extend negative bs)).length ≤ bs.length := by
  rcases Nat.lt_or_eq_of_le h with hl | hl
  · rw [magnitude, msb_extend_of_length_lt hl, bigEndian_extend h, padded,
      List.dropWhile_append_of_pos (by simp)]
    exact (List.dropWhile_sublist _).length_le
  · rw [hl]
    exact length_magnitude_le _

theorem readInt_writeInt (bits : BitVec 64) (rest : Bytes) :
    readInt (writeInt bits ++ rest) = .ok (bits, rest) := by
  rw [writeInt_eq, List.cons_append, readInt, InfoByte.ofByte_toByte_int (length_magnitude_le bits)]
  simp only [take_append, Except.ok_bind]
  rw [if_neg (head?_magnitude_ne bits), extend_magnitude]

section Spellings

theorem magnitude_extend {bs : Bytes} {negative : Bool} (hl : bs.length ≤ 8)
    (hs : (extend negative bs).msb = negative) (hb : bs.head? ≠ some (padding negative)) :
    magnitude (extend negative bs) = bs := by
  rw [magnitude, hs, bigEndian_extend hl, padded, List.dropWhile_append_of_pos (by simp)]
  cases bs with
  | nil => rfl
  | cons b bs =>
    rw [List.dropWhile_cons_of_neg]
    intro h
    exact hb (congrArg some (beq_iff_eq.mp h))

/-- All eight bytes of a pattern, under the sign that it does not have. -/
def writeCrossed (bits : BitVec 64) : Bytes :=
  (InfoByte.int (!bits.msb) 8).toByte :: bigEndian 8 bits.toNat

theorem length_writeCrossed (bits : BitVec 64) : (writeCrossed bits).length = 9 := by
  rw [writeCrossed, List.length_cons, length_bigEndian]

theorem writeInt_ne_writeCrossed (bits : BitVec 64) : writeInt bits ≠ writeCrossed bits := by
  intro h
  rw [writeInt_eq, writeCrossed] at h
  obtain ⟨hbyte, -⟩ := List.cons.inj h
  have hinfo := congrArg InfoByte.ofByte hbyte
  rw [InfoByte.ofByte_toByte_int (Nat.le_refl 8), InfoByte.ofByte_toByte_int (length_magnitude_le bits)]
    at hinfo
  obtain ⟨hsign, -⟩ := InfoByte.int.inj hinfo
  exact Bool.not_ne_self _ hsign.symm

theorem extend_bigEndian (bits : BitVec 64) (negative : Bool) :
    extend negative (bigEndian 8 bits.toNat) = bits := by
  apply BitVec.eq_of_toNat_eq
  rw [toNat_extend (by rw [length_bigEndian]), padded, length_bigEndian, Nat.sub_self, List.replicate_zero,
    List.nil_append, bigEndianValue_bigEndian]
  exact Nat.mod_eq_of_lt bits.isLt

theorem msb_of_bigEndian_eq_cons {bits : BitVec 64} {b : UInt8} {bs : Bytes}
    (h : bigEndian 8 bits.toNat = b :: bs) : bits.msb = decide (128 ≤ b.toNat) := by
  have hl : bs.length = 7 := by
    have hlen := congrArg List.length h
    rw [length_bigEndian, List.length_cons] at hlen
    omega
  have hv := congrArg bigEndianValue h
  have hbs := bigEndianValue_lt bs
  rw [bigEndianValue_bigEndian, Nat.mod_eq_of_lt bits.isLt, ← List.singleton_append,
    bigEndianValue_append_list, hl, show bigEndianValue [b] = b.toNat by simp [bigEndianValue]] at hv
  rw [hl] at hbs
  rw [BitVec.msb_eq_decide, decide_eq_decide]
  omega

theorem head?_bigEndian_ne (bits : BitVec 64) :
    (bigEndian 8 bits.toNat).head? ≠ some (padding (!bits.msb)) := by
  obtain ⟨b, bs, h⟩ := List.exists_cons_of_length_eq_add_one (length_bigEndian 8 bits.toNat)
  rw [h, msb_of_bigEndian_eq_cons h, List.head?_cons]
  intro hb
  have hb : b = padding (!decide (128 ≤ b.toNat)) := Option.some.inj hb
  by_cases hs : 128 ≤ b.toNat
  · rw [decide_eq_true hs] at hb
    rw [hb] at hs
    exact absurd hs (by decide)
  · rw [decide_eq_false hs] at hb
    rw [hb] at hs
    exact hs (by decide)

theorem readInt_writeCrossed (bits : BitVec 64) (rest : Bytes) :
    readInt (writeCrossed bits ++ rest) = .ok (bits, rest) := by
  have ht := take_append .intMagnitude (bigEndian 8 bits.toNat) rest
  rw [length_bigEndian] at ht
  rw [writeCrossed, List.cons_append, readInt, InfoByte.ofByte_toByte_int (Nat.le_refl 8)]
  simp only [ht, Except.ok_bind]
  rw [if_neg (head?_bigEndian_ne bits), extend_bigEndian]

theorem spelling_of_readInt {input rest : Bytes} {bits : BitVec 64} (h : readInt input = .ok (bits, rest)) :
    input = writeInt bits ++ rest ∨ input = writeCrossed bits ++ rest := by
  cases input with
  | nil => cases h
  | cons b tail =>
    have hbyte := InfoByte.toByte_ofByte b
    rw [readInt] at h
    cases hb : InfoByte.ofByte b with
    | nil extended indirect => rw [hb] at h; cases h
    | reserved b => rw [hb] at h; cases h
    | int negative length =>
      rw [hb] at h hbyte
      obtain ⟨⟨bs, after⟩, ht, hr⟩ := Except.bind_eq_ok.mp h
      obtain ⟨rfl, rfl⟩ := take_eq_ok ht
      dsimp only at hr
      split at hr
      · cases hr
      · next hhead =>
        cases hr
        have hl := InfoByte.length_le_of_ofByte hb
        by_cases hs : (extend negative bs).msb = negative
        · left
          rw [writeInt_eq, magnitude_extend hl hs hhead, hs, hbyte, List.cons_append]
        · -- Fewer than eight bytes are filled up with the sign, which is then the one of the pattern.
          right
          have h8 : bs.length = 8 := by
            by_contra hne
            exact hs (msb_extend_of_length_lt (by omega) negative)
          have hsign : (!(extend negative bs).msb) = negative := Bool.not_eq.mpr hs
          have hbytes : bigEndian 8 (extend negative bs).toNat = bs := by
            rw [bigEndian_extend hl, padded, h8, Nat.sub_self, List.replicate_zero, List.nil_append]
          rw [writeCrossed, hsign, hbytes, ← h8, hbyte, List.cons_append]

theorem readInt_eq_ok {input rest : Bytes} {bits : BitVec 64}
    (h : readInt input = .ok (bits, rest)) :
    ∃ used, input = used ++ rest ∧ (writeInt bits).length ≤ used.length := by
  rcases spelling_of_readInt h with h | h
  · exact ⟨_, h, Nat.le_refl _⟩
  · refine ⟨_, h, ?_⟩
    rw [length_writeCrossed, writeInt_eq, List.length_cons]
    exact Nat.succ_le_succ (length_magnitude_le bits)

/-- There are two spellings of each pattern, the one that it is written in and a longest one that differs
from it in the sign, and nothing else is read as the pattern. -/
theorem readInt_eq_ok_iff (bits : BitVec 64) :
    (∀ input rest, readInt input = .ok (bits, rest) ↔
      input = writeInt bits ++ rest ∨ input = writeCrossed bits ++ rest) ∧
    writeInt bits ≠ writeCrossed bits ∧ (writeCrossed bits).length = 9 := by
  refine ⟨fun input rest => ⟨spelling_of_readInt, ?_⟩, writeInt_ne_writeCrossed bits, length_writeCrossed bits⟩
  rintro (rfl | rfl)
  · exact readInt_writeInt bits rest
  · exact readInt_writeCrossed bits rest

/-- Zero with eight bytes and a minus. -/
theorem readInt_minus_zero :
    let data : Bytes := [0x88, 0, 0, 0, 0, 0, 0, 0, 0]
    readInt data = .ok (0, []) ∧ data ≠ writeInt 0 ++ [] ∧ writeInt 0 = [0] := by
  intro data
  exact ⟨rfl, by decide, rfl⟩

end Spellings

theorem toNat_ofNat_of_lt {n : Nat} (h : n < 2 ^ 63) : (BitVec.ofNat 64 n).toNat = n := by
  rw [BitVec.toNat_ofNat, Nat.mod_eq_of_lt (by omega)]

theorem msb_ofNat_of_lt {n : Nat} (h : n < 2 ^ 63) : (BitVec.ofNat 64 n).msb = false := by
  rw [BitVec.msb_eq_decide, toNat_ofNat_of_lt h]
  simp
  omega

theorem bigEndianValue_magnitude {n : Nat} (h : n < 2 ^ 63) :
    bigEndianValue (magnitude (BitVec.ofNat 64 n)) = n := by
  have he := congrArg bigEndianValue (padded_magnitude (BitVec.ofNat 64 n))
  rw [bigEndianValue_bigEndian, toNat_ofNat_of_lt h, padded, msb_ofNat_of_lt h,
    bigEndianValue_append_list] at he
  simp only [padding, Bool.false_eq_true, if_false, bigEndianValue_zeros] at he
  omega

theorem length_magnitude_ofNat_le_iff {n k : Nat} (h : n < 2 ^ 63) :
    (magnitude (BitVec.ofNat 64 n)).length ≤ k ↔ n < 256 ^ k := by
  constructor
  · intro hk
    have hv := bigEndianValue_lt (magnitude (BitVec.ofNat 64 n))
    rw [bigEndianValue_magnitude h] at hv
    exact Nat.lt_of_lt_of_le hv (Nat.pow_le_pow_right (by decide) hk)
  · intro hn
    rcases Nat.lt_or_ge k 8 with hk | hk
    · have he : extend false (bigEndian k n) = BitVec.ofNat 64 n := by
        simp [extend, bigEndianValue_bigEndian, Nat.mod_eq_of_lt hn]
      have hm := length_magnitude_extend_le (show (bigEndian k n).length ≤ 8 by simp; omega) false
      rwa [he, length_bigEndian] at hm
    · exact Nat.le_trans (length_magnitude_le _) hk

theorem length_writeInt_ofNat_mono {m n : Nat} (hm : m ≤ n) (hn : n < 2 ^ 63) :
    (writeInt (BitVec.ofNat 64 m)).length ≤ (writeInt (BitVec.ofNat 64 n)).length := by
  have hd := (length_magnitude_ofNat_le_iff hn).mp (Nat.le_refl _)
  have hl := (length_magnitude_ofNat_le_iff (by omega)).mpr (Nat.lt_of_le_of_lt hm hd)
  simpa [writeInt_eq] using hl

theorem length_writeInt_ofNat_add {m n : Nat} (h : m + n < 2 ^ 63) :
    (writeInt (BitVec.ofNat 64 (m + n))).length ≤
      (writeInt (BitVec.ofNat 64 m)).length + (writeInt (BitVec.ofNat 64 n)).length := by
  have hm := (length_magnitude_ofNat_le_iff (n := m) (by omega)).mp (Nat.le_refl _)
  have hn := (length_magnitude_ofNat_le_iff (n := n) (by omega)).mp (Nat.le_refl _)
  generalize hj : (magnitude (BitVec.ofNat 64 m)).length = j at hm
  generalize hk : (magnitude (BitVec.ofNat 64 n)).length = k at hn
  have hl : (magnitude (BitVec.ofNat 64 (m + n))).length ≤ j + k + 1 := by
    rw [length_magnitude_ofNat_le_iff h]
    have h1 : 256 ^ j ≤ 256 ^ (j + k) := Nat.pow_le_pow_right (by decide) (by omega)
    have h2 : 256 ^ k ≤ 256 ^ (j + k) := Nat.pow_le_pow_right (by decide) (by omega)
    rw [Nat.pow_succ]
    omega
  rw [writeInt_eq, writeInt_eq, writeInt_eq, List.length_cons, List.length_cons, List.length_cons,
    hj, hk]
  omega

end Wire

end ShapeCodec
