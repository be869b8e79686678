import ShapeCodec.Proofs.KeyOrder

namespace ShapeCodec

open Std

namespace Text

open String (utf8EncodeChar)

def codePoints (s : String) : List Nat :=
  s.toList.map Char.toNat

theorem compare_cons_eq_lt_iff {a b : UInt8} {xs ys : Bytes} :
    compare (a :: xs) (b :: ys) = .lt ↔ a.toNat < b.toNat ∨ a.toNat = b.toNat ∧ compare xs ys = .lt := by
  rw [List.compare_cons_cons, Ordering.then_eq_lt, compare_eq_lt, LawfulEqOrd.compare_eq_iff_eq,
    UInt8.lt_iff_toNat_lt, UInt8.toNat_inj]

theorem compare_append_left (bs xs ys : Bytes) : compare (bs ++ xs) (bs ++ ys) = compare xs ys := by
  induction bs with
  | nil => rfl
  | cons b bs ih =>
    rw [List.cons_append, List.cons_append, List.compare_cons_cons, ReflOrd.compare_self, ih]
    rfl

theorem digits_lt {m n : Nat} (h : m < n) :
    m / 262144 < n / 262144 ∨ m / 262144 = n / 262144 ∧
      (m / 4096 % 64 < n / 4096 % 64 ∨ m / 4096 % 64 = n / 4096 % 64 ∧
        (m / 64 % 64 < n / 64 % 64 ∨ m / 64 % 64 = n / 64 % 64 ∧ m % 64 < n % 64)) := by
  omega

theorem compare_utf8EncodeChar {c d : Char} (h : c.toNat < d.toNat) (xs ys : Bytes) :
    compare (utf8EncodeChar c ++ xs) (utf8EncodeChar d ++ ys) = .lt := by
  have hd := Utf8.toNat_valid d
  have hdigits := digits_lt h
  have hctop : c.toNat / 262144 % 8 = c.toNat / 262144 := by omega
  have hdtop : d.toNat / 262144 % 8 = d.toNat / 262144 := by omega
  have hcv : c.val.toNat = c.toNat := rfl
  have hdv : d.val.toNat = d.toNat := rfl
  unfold utf8EncodeChar
  simp only [hcv, hdv]
  split_ifs <;>
    simp only [List.cons_append, List.nil_append, compare_cons_eq_lt_iff, UInt8.toNat_ofNat'] <;>
    omega

theorem compare_flatMap_utf8EncodeChar (cs ds : List Char) :
    compare (cs.flatMap utf8EncodeChar) (ds.flatMap utf8EncodeChar) =
      compare (cs.map Char.toNat) (ds.map Char.toNat) := by
  induction cs generalizing ds with
  | nil =>
    cases ds with
    | nil => rfl
    | cons d ds =>
      obtain ⟨b, bs, hb⟩ := List.exists_cons_of_ne_nil (@String.utf8EncodeChar_ne_nil d)
      rw [List.flatMap_cons, hb]
      rfl
  | cons c cs ih =>
    cases ds with
    | nil =>
      obtain ⟨b, bs, hb⟩ := List.exists_cons_of_ne_nil (@String.utf8EncodeChar_ne_nil c)
      rw [List.flatMap_cons, hb]
      rfl
    | cons d ds =>
      rw [List.flatMap_cons, List.flatMap_cons, List.map_cons, List.map_cons, List.compare_cons_cons]
      rcases Nat.lt_trichotomy c.toNat d.toNat with hlt | heq | hgt
      · rw [compare_utf8EncodeChar hlt, Nat.compare_eq_lt.mpr hlt]
        rfl
      · rw [Char.toNat_inj.mp heq, compare_append_left, ih, ReflOrd.compare_self]
        rfl
      · rw [OrientedOrd.eq_swap, compare_utf8EncodeChar hgt, Nat.compare_eq_gt.mpr hgt]
        rfl

theorem compare_utf8 (s t : String) : compare (utf8 s) (utf8 t) = compare (codePoints s) (codePoints t) :=
  compare_flatMap_utf8EncodeChar s.toList t.toList

end Text

namespace Value

def Kind.IsKey : Kind → Prop
  | bool | integer | string => True
  | _ => False

theorem exists_isKeyOf {k : Kind} (hk : k.IsKey) : ∃ key : Shape, ∀ v : Value, v.kind = k → v.isKeyOf key := by
  cases k with
  | bool => exact ⟨.bool, fun v hv => by cases v <;> first | rfl | cases hv⟩
  | integer => exact ⟨.int .i64, fun v hv => by cases v <;> first | rfl | cases hv⟩
  | string => exact ⟨.str, fun v hv => by cases v <;> first | rfl | cases hv⟩
  | _ => cases hk

theorem cmpKey_eq_none_iff {a b : Value} : a.cmpKey b = none ↔ ¬ (a.kind.IsKey ∧ b.kind = a.kind) := by
  cases a <;> cases b <;> simp [cmpKey, kind, Kind.IsKey]

/-- Keys of one kind are totally ordered, and equal only to themselves: integers by size, however they are
held, and texts by their code points, a prefix before what it is a prefix of. Values of two kinds, and those
that are no keys, have no order. -/
theorem cmpKey_total_order :
    (∀ k : Kind, k.IsKey → ∀ a b c : Value, a.kind = k → b.kind = k → c.kind = k →
      (∃ o, a.cmpKey b = some o) ∧ (a.cmpKey b = some .eq ↔ a = b) ∧
      (b.cmpKey a = (a.cmpKey b).map Ordering.swap) ∧
      (a.cmpKey b ≠ some .gt → b.cmpKey c ≠ some .gt → a.cmpKey c ≠ some .gt)) ∧
    (∀ m n : Integer, (Value.int m).cmpKey (.int n) = some (compare m.val n.val) ∧
      (Value.int m).cmpKey (.int n) = some (m.form.cmp n.form)) ∧
    (∀ s t : String, (Value.str s).cmpKey (.str t) = some (compare (Text.codePoints s) (Text.codePoints t))) ∧
    ∀ a b : Value, a.cmpKey b = none ↔ ¬ (a.kind.IsKey ∧ b.kind = a.kind) := by
  refine ⟨?_, ?_, ?_, fun a b => cmpKey_eq_none_iff⟩
  · intro k hk a b c ha hb hc
    obtain ⟨key, hkey⟩ := exists_isKeyOf hk
    refine ⟨?_, ?_, cmpKey_swap a b, cmpKey_le_trans (hkey a ha) (hkey b hb) (hkey c hc)⟩
    · exact Option.isSome_iff_exists.mp (cmpKey_isSome (hkey a ha) (hkey b hb))
    · constructor
      · exact eq_of_cmpKey_eq
      · rintro rfl
        exact cmpKey_self (hkey a ha)
  · intro m n
    exact ⟨congrArg some (Integer.compare_eq m n), rfl⟩
  · intro s t
    exact congrArg some (Text.compare_utf8 s t)

theorem cmpKey_total_order_texts :
    let a : Value := .str "\u00e9"
    let b : Value := .str "\uffff"
    let c : Value := .str "😀"
    a.cmpKey b ≠ some .gt ∧ b.cmpKey c ≠ some .gt ∧ a.cmpKey c ≠ some .gt := by
  intro a b c
  have hab : a.cmpKey b ≠ some .gt := by decide
  have hbc : b.cmpKey c ≠ some .gt := by decide
  obtain ⟨-, -, -, trans⟩ := cmpKey_total_order.1 .string trivial a b c rfl rfl rfl
  exact ⟨hab, hbc, trans hab hbc⟩

end Value

end ShapeCodec
