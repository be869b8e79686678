import ShapeCodec.Proofs.IntegerForms

namespace ShapeCodec

open Integer

theorem Integer.toNat_bits (n : Integer) : (n.bits.toNat : Int) = n.val % 2 ^ 64 := by
  rw [← n.ofInt_val, BitVec.toNat_ofInt]
  omega

theorem Integer.exists_val_iff (m : Int) : (∃ n : Integer, n.val = m) ↔ -2 ^ 63 ≤ m ∧ m < 2 ^ 64 := by
  constructor
  · rintro ⟨n, rfl⟩
    exact n.form.value_range
  · rintro ⟨hl, hu⟩
    by_cases hm : m < 0
    · refine ⟨.ofSigned (BitVec.ofInt 64 m), ?_⟩
      rw [val, ofSigned, Form.value_ofSigned (Nat.le_refl 64)]
      exact BitVec.toInt_ofInt_eq_self (by decide) hl (by omega)
    · refine ⟨.ofUnsigned (BitVec.ofInt 64 m), ?_⟩
      rw [val, ofUnsigned, Form.value_ofUnsigned (Nat.le_refl 64), BitVec.toNat_ofInt]
      omega

namespace IntKind

variable (k : IntKind)

/-- A kind takes a pattern for the one integer in its range that has the pattern, and refuses a pattern that
none has. Its range is what its words stand for, and words of every type are turned into integers and integers
into words without loss: a number is held with a sign exactly below zero, so that it is held in one way. -/
theorem integers_of_kind :
    (∀ b f, k.fromBits? b = some f ↔ f.Normal ∧ k.holds f ∧ f.bits = b) ∧
    (∀ b, k.fromBits? b = none ↔ ¬ ∃ f : Form, f.Normal ∧ k.holds f ∧ f.bits = b) ∧
    (∀ n : Integer, k.fromBits? n.form.bits = some n.form ↔ k.holds n.form) ∧
    (∀ b n, k.ofBits? b = some n ↔ k.contains n ∧ n.bits = b) ∧
    (∀ n : Integer, (n.bits.toNat : Int) = n.val % 2 ^ 64) ∧
    (∀ f : Form, k.holds f ↔ Word.least (.kind k) ≤ f.value ∧ f.value ≤ Word.greatest (.kind k)) ∧
    (∀ (t : Word) m, (∃ w, t.value w = m) ↔ t.least ≤ m ∧ m ≤ t.greatest) ∧
    (∀ (t : Word) (f : Form) w, f.convert t = .ok w ↔ t.value w = f.value) ∧
    (∀ (t : Word) (f g : Form), f.convert t = .error g ↔ g = f ∧ ¬ ∃ w, t.value w = f.value) ∧
    (∀ (t : Word) w, (Form.ofWord t w).Normal ∧ (Form.ofWord t w).value = t.value w) ∧
    (∀ m n : Integer, m = n ↔ m.val = n.val) ∧
    ∀ m, (∃ n : Integer, n.val = m) ↔ -2 ^ 63 ≤ m ∧ m < 2 ^ 64 := by
  refine ⟨fun b f => fromBits?_eq_some_iff, fun b => ?_, fun n => ?_, fun b n => ofBits?_eq_some_iff, toNat_bits,
    fun f => holds_iff_range, Word.exists_value_iff, fun t f w => Form.convert_eq_ok_iff,
    fun t f g => Form.convert_eq_error_iff, fun t w => ⟨Form.normal_ofWord t w, Form.value_ofWord t w⟩,
    fun m n => ⟨congrArg val, Integer.ext⟩, exists_val_iff⟩
  · rw [Option.eq_none_iff_forall_ne_some, not_exists]
    exact forall_congr' fun f => not_congr fromBits?_eq_some_iff
  · rw [fromBits?_eq_some_iff, and_iff_right n.normal]
    exact and_iff_left rfl

example : u64.ofBits? (-1) = some .greatest ∧ i64.ofBits? (-1) = Integer.ofInt? (-1) ∧ u32.ofBits? (-1) = none := by
  decide

end IntKind

end ShapeCodec
