import ShapeCodec.Integer
import Mathlib.Tactic.Positivity

namespace ShapeCodec

namespace Word

variable {t : Word}

def value (t : Word) (w : BitVec t.width) : Int :=
  if t.signed then w.toInt else w.toNat

theorem width_pos (t : Word) : 0 < t.width := by
  cases t with
  | kind k => cases k <;> decide
  | usize => decide
  | isize => decide

theorem value_injective {v w : BitVec t.width} (h : t.value v = t.value w) : v = w := by
  simp only [value] at h
  split at h
  · exact BitVec.eq_of_toInt_eq h
  · exact BitVec.eq_of_toNat_eq (Int.ofNat.inj h)

theorem value_range (t : Word) (w : BitVec t.width) : t.least ≤ t.value w ∧ t.value w ≤ t.greatest := by
  simp only [value, least, greatest]
  split
  · have hl := w.le_toInt
    have hu := w.toInt_lt
    omega
  · have hp : ((2 ^ t.width : Nat) : Int) = 2 ^ t.width := by push_cast; rfl
    have hu := w.isLt
    omega

theorem value_ofInt {m : Int} (hl : t.least ≤ m) (hu : m ≤ t.greatest) : t.value (BitVec.ofInt t.width m) = m := by
  simp only [value, least, greatest] at hl hu ⊢
  split at hl
  · next hs =>
    rw [if_pos hs] at hu ⊢
    exact BitVec.toInt_ofInt_eq_self t.width_pos hl (by omega)
  · next hs =>
    rw [if_neg hs] at hu ⊢
    rw [BitVec.toNat_ofInt, Int.toNat_of_nonneg (Int.emod_nonneg _ (by positivity)), Int.emod_eq_of_lt hl]
    push_cast
    omega

theorem exists_value_iff (t : Word) (m : Int) : (∃ w, t.value w = m) ↔ t.least ≤ m ∧ m ≤ t.greatest := by
  constructor
  · rintro ⟨w, rfl⟩
    exact t.value_range w
  · rintro ⟨hl, hu⟩
    exact ⟨_, value_ofInt hl hu⟩

theorem setWidth_ofInt (t : Word) (m : Int) : (BitVec.ofInt 64 m).setWidth t.width = BitVec.ofInt t.width m := by
  apply BitVec.eq_of_toNat_eq
  have hd : ((2 ^ t.width : Nat) : Int) ∣ ((2 ^ 64 : Nat) : Int) :=
    Int.natCast_dvd_natCast.mpr (Nat.pow_dvd_pow 2 t.width_le)
  have hm : 0 ≤ m % ((2 ^ 64 : Nat) : Int) := Int.emod_nonneg _ (by decide)
  rw [BitVec.toNat_setWidth, BitVec.toNat_ofInt, BitVec.toNat_ofInt, ← Int.emod_emod_of_dvd m hd,
    Int.toNat_emod hm (by positivity), Int.toNat_natCast]

theorem value_setWidth {n : BitVec 64} {m : Int} (hn : BitVec.ofInt 64 m = n) (hl : t.least ≤ m)
    (hu : m ≤ t.greatest) : t.value (n.setWidth t.width) = m := by
  rw [← hn, setWidth_ofInt, value_ofInt hl hu]

theorem ofUnsigned?_eq_some_iff {n : BitVec 64} {w : BitVec t.width} :
    t.ofUnsigned? n = some w ↔ t.value w = n.toNat := by
  have hl : t.least ≤ n.toNat := by
    simp only [least]
    split
    · have : (0 : Int) ≤ 2 ^ (t.width - 1) := by positivity
      omega
    · omega
  have hn : BitVec.ofInt 64 n.toNat = n := by rw [BitVec.ofInt_natCast, BitVec.ofNat_toNat, BitVec.setWidth_eq]
  rw [ofUnsigned?, Option.ite_none_right_eq_some, Option.some.injEq]
  constructor
  · rintro ⟨hu, rfl⟩
    exact value_setWidth hn hl hu
  · intro hw
    have hu : (n.toNat : Int) ≤ t.greatest := hw ▸ (t.value_range w).2
    exact ⟨hu, value_injective ((value_setWidth hn hl hu).trans hw.symm)⟩

theorem ofSigned?_eq_some_iff {n : BitVec 64} {w : BitVec t.width} :
    t.ofSigned? n = some w ↔ t.value w = n.toInt := by
  rw [ofSigned?, Option.ite_none_right_eq_some, Option.some.injEq]
  constructor
  · rintro ⟨⟨hl, hu⟩, rfl⟩
    exact value_setWidth BitVec.ofInt_toInt hl hu
  · intro hw
    have hr := t.value_range w
    rw [hw] at hr
    exact ⟨hr, value_injective ((value_setWidth BitVec.ofInt_toInt hr.1 hr.2).trans hw.symm)⟩

end Word

namespace Integer

namespace Form

variable {f : Form}

theorem value_ofUnsigned {w : Nat} (hw : w ≤ 64) (x : BitVec w) : (ofUnsigned x).value = x.toNat :=
  congrArg Int.ofNat (BitVec.toNat_setWidth_of_le hw)

theorem value_ofSigned {w : Nat} (hw : w ≤ 64) (x : BitVec w) : (ofSigned x).value = x.toInt := by
  have hx : (x.signExtend 64).toInt = x.toInt := BitVec.toInt_signExtend_of_le hw
  rw [ofSigned]
  split
  · exact hx
  · next hpos =>
    rw [← hx, Int.not_lt, BitVec.toInt_pos_iff] at hpos
    rw [value, ← hx, BitVec.toInt_eq_toNat_of_lt hpos]

theorem normal_ofWord (t : Word) (x : BitVec t.width) : (ofWord t x).Normal := by
  rw [ofWord]
  split
  · exact normal_ofSigned t.width_le x
  · trivial

theorem value_ofWord (t : Word) (x : BitVec t.width) : (ofWord t x).value = t.value x := by
  rw [ofWord, Word.value]
  split
  · exact value_ofSigned t.width_le x
  · exact value_ofUnsigned t.width_le x

theorem ofInt_value (f : Form) : BitVec.ofInt 64 f.value = f.bits := by
  cases f with
  | posInt n => rw [value, bits, BitVec.ofInt_natCast, BitVec.ofNat_toNat, BitVec.setWidth_eq]
  | negInt n => exact BitVec.ofInt_toInt

theorem value_range (f : Form) : -2 ^ 63 ≤ f.value ∧ f.value < 2 ^ 64 := by
  cases f with
  | posInt n =>
    have hn := n.isLt
    rw [value]
    omega
  | negInt n =>
    have hl := n.le_toInt
    have hu := n.toInt_lt
    rw [value]
    omega

theorem eq_of_value_eq {g : Form} (hf : f.Normal) (hg : g.Normal) (h : f.value = g.value) : f = g := by
  have hb : f.bits = g.bits := by rw [← ofInt_value, ← ofInt_value, h]
  cases f <;> cases g <;> simp only [value, bits, Normal] at h hb hf hg <;> first | omega | rw [hb]

theorem convert_eq_ok_iff {t : Word} {w : BitVec t.width} : f.convert t = .ok w ↔ t.value w = f.value := by
  cases f with
  | posInt n =>
    rw [convert, value, ← Word.ofUnsigned?_eq_some_iff]
    cases t.ofUnsigned? n <;> simp
  | negInt n =>
    rw [convert, value, ← Word.ofSigned?_eq_some_iff]
    cases t.ofSigned? n <;> simp

theorem convert_eq_error_iff {t : Word} {g : Form} :
    f.convert t = .error g ↔ g = f ∧ ¬ ∃ w, t.value w = f.value := by
  have hno : (¬ ∃ w, t.value w = f.value) ↔ ∀ w, f.convert t ≠ .ok w := by
    simp only [← convert_eq_ok_iff, not_exists, ne_eq]
  have herr : ∀ h, f.convert t = .error h → h = f := by
    intro h
    cases f with
    | posInt n =>
      rw [convert]
      cases t.ofUnsigned? n <;> simp [eq_comm]
    | negInt n =>
      rw [convert]
      cases t.ofSigned? n <;> simp [eq_comm]
  rw [hno]
  constructor
  · intro h
    exact ⟨herr g h, by rw [h]; exact nofun⟩
  · rintro ⟨rfl, hne⟩
    cases hc : g.convert t with
    | ok w => exact absurd hc (hne w)
    | error h => rw [herr h hc]

theorem cmp_eq_compare {g : Form} (hf : f.Normal) (hg : g.Normal) : f.cmp g = compare f.value g.value := by
  cases f with
  | posInt m =>
    cases g with
    | posInt n =>
      have hlt : (m.toNat : Int) < n.toNat ↔ m.toNat < n.toNat := Int.ofNat_lt
      have heq : (m.toNat : Int) = n.toNat ↔ m.toNat = n.toNat := Int.ofNat_inj
      simp only [cmp, value, compare, compareOfLessAndEq, hlt, heq]
    | negInt n =>
      simp only [Normal] at hg
      simp only [cmp, value]
      exact (Int.compare_eq_gt.mpr (by omega)).symm
  | negInt m =>
    cases g with
    | posInt n =>
      simp only [Normal] at hf
      simp only [cmp, value]
      exact (Int.compare_eq_lt.mpr (by omega)).symm
    | negInt n => rfl

end Form

theorem ofInt_val (n : Integer) : BitVec.ofInt 64 n.val = n.bits := n.form.ofInt_value

theorem ext {m n : Integer} (h : m.val = n.val) : m = n := by
  obtain ⟨f, hf⟩ := m
  obtain ⟨g, hg⟩ := n
  obtain rfl := Form.eq_of_value_eq hf hg h
  rfl

theorem compare_eq (m n : Integer) : compare m n = compare m.val n.val :=
  Form.cmp_eq_compare m.normal n.normal

end Integer

namespace IntKind

open Integer

variable {k : IntKind} {b : BitVec 64}

theorem holds_iff {f : Form} : k.holds f ↔ ∃ w, Word.value (.kind k) w = f.value := by
  simp only [← Form.convert_eq_ok_iff]
  rw [holds]
  cases f.convert (.kind k) with
  | error g => simp [Except.isOk, Except.toBool]
  | ok w => simp [Except.isOk, Except.toBool]

theorem holds_iff_range {f : Form} :
    k.holds f ↔ Word.least (.kind k) ≤ f.value ∧ f.value ≤ Word.greatest (.kind k) := by
  rw [holds_iff, Word.exists_value_iff]

theorem value_lt_of_signed (hs : k.signed) {f : Form} (h : k.holds f) : f.value < 2 ^ 63 := by
  have hu := (holds_iff_range.mp h).2
  revert hs hu
  cases k <;> simp [Word.greatest, Word.signed, Word.width, signed, width] <;> omega

theorem value_nonneg_of_unsigned (hs : ¬ k.signed) {f : Form} (h : k.holds f) : 0 ≤ f.value := by
  have hl := (holds_iff_range.mp h).1
  rw [Word.least] at hl
  exact (if_neg hs).symm.trans_le hl

theorem read_bits {f : Form} (hf : f.Normal) (hc : k.holds f) :
    (if k.signed then Form.ofSigned f.bits else Form.ofUnsigned f.bits) = f := by
  rw [← f.ofInt_value]
  split
  · next hs =>
    have hu := value_lt_of_signed hs hc
    refine Form.eq_of_value_eq (Form.normal_ofSigned (Nat.le_refl 64) _) hf ?_
    rw [Form.value_ofSigned (Nat.le_refl 64)]
    exact BitVec.toInt_ofInt_eq_self (by decide) f.value_range.1 hu
  · next hs =>
    have hl := value_nonneg_of_unsigned hs hc
    refine Form.eq_of_value_eq trivial hf ?_
    rw [Form.value_ofUnsigned (Nat.le_refl 64), BitVec.toNat_ofInt]
    have hu := f.value_range.2
    omega

theorem fromBits?_eq_some_iff {f : Form} : k.fromBits? b = some f ↔ f.Normal ∧ k.holds f ∧ f.bits = b := by
  constructor
  · intro h
    have hn := normal_of_fromBits? h
    obtain ⟨hc, h⟩ := Option.ite_none_right_eq_some.mp h
    cases h
    refine ⟨hn, hc, ?_⟩
    rw [← Form.ofInt_value]
    split
    · rw [Form.value_ofSigned (Nat.le_refl 64), BitVec.ofInt_toInt]
    · rw [Form.value_ofUnsigned (Nat.le_refl 64), BitVec.ofInt_natCast, BitVec.ofNat_toNat, BitVec.setWidth_eq]
  · rintro ⟨hn, hc, rfl⟩
    rw [fromBits?, read_bits hn hc]
    exact if_pos hc

theorem ofBits?_eq_some_iff {n : Integer} : k.ofBits? b = some n ↔ k.contains n ∧ n.bits = b := by
  rw [ofBits?, Option.pmap_eq_some_iff]
  constructor
  · rintro ⟨f, _, h, rfl⟩
    exact (fromBits?_eq_some_iff.mp h).2
  · intro h
    exact ⟨n.form, n.normal, fromBits?_eq_some_iff.mpr ⟨n.normal, h⟩, rfl⟩

end IntKind

end ShapeCodec
