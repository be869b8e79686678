import ShapeCodec.Proofs.LimitedDecoding
import ShapeCodec.Proofs.LimitedEncoding
import ShapeCodec.Proofs.Rearranging
import ShapeCodec.Proofs.Reencoding

namespace ShapeCodec

theorem exceeds_encodeValue {c : Config} {s : Shape} (hs : s.Distinct) {v : Value} {b : Bytes}
    (h : encodeValue c s v = .ok b) {D : Nat} (hD : D < v.depth) :
    Exceeds (encodeValue { c with maxDepth := D } s v) := by
  by_contra hne
  have heq := (@limited_encodeValue { c with maxDepth := D } { c with maxDepth := max D c.maxDepth }
    (Nat.le_max_left _ _) rfl s v).eq_of_not_exceeds hne
  obtain ⟨⟨hc, hd⟩, hb⟩ := (encodeValue_eq_ok_iff hs).mp h
  have hok : encodeValue { c with maxDepth := max D c.maxDepth } s v = .ok b :=
    (encodeValue_eq_ok_iff hs).mpr ⟨⟨hc, Nat.le_trans hd (Nat.le_max_right _ _)⟩, hb⟩
  rw [heq] at hok
  obtain ⟨⟨-, hle⟩, -⟩ := (encodeValue_eq_ok_iff hs).mp hok
  exact absurd hle (Nat.not_le.mpr hD)

theorem exceeds_decodeValue {c : Config} {s : Shape} (hs : s.Distinct) (hl : s.All fun t => t.layers < 2 ^ 63)
    {v : Value} {b : Bytes} (hb : b.length < 2 ^ 63) (h : encodeValue c s v = .ok b) {D : Nat}
    (hD : D < v.depth) : Exceeds (decodeValue { c with maxDepth := D } s b) := by
  by_contra hne
  have heq := (@limited_decodeValue { c with maxDepth := D } { c with maxDepth := max D v.depth }
    (Nat.le_max_left _ _) s b).eq_of_not_exceeds hne
  obtain ⟨⟨hc, -⟩, rfl, -⟩ := (encodeValue_eq_ok_iff hs).mp h
  have hok := @decodeValue_encoding { c with maxDepth := max D v.depth } s hs v hc (Nat.le_max_right _ _)
    (fits_of_length hs hl hc hb) []
  rw [List.append_nil, heq] at hok
  have hread := (wellBuilt_of_decodeValue hs hok).1.depth_le
  obtain ⟨-, hdepth, -⟩ := (alike_canon hs hc).symm.invariant hs (conforms_canon hs hc)
  exact absurd (Nat.le_trans hdepth hread) (Nat.not_le.mpr hD)

/-- A value that encodes at all is written and read back within the limits that its depth does not pass, and
within no others. Whatever is encoded or decoded, an outcome that is not the limit's is the same within
every larger one. -/
theorem outcomes_by_limit :
    (∀ (c : Config) (s : Shape) (v : Value) (b : Bytes), s.Distinct → encodeValue c s v = .ok b → ∀ D,
      ((v.depth ≤ D → encodeValue { c with maxDepth := D } s v = .ok b) ∧
        (D < v.depth → Exceeds (encodeValue { c with maxDepth := D } s v))) ∧
      ((s.All fun t => t.layers < 2 ^ 63) → b.length < 2 ^ 63 →
        (v.depth ≤ D → decodeValue { c with maxDepth := D } s b = .ok (canon s v, b.length)) ∧
        (D < v.depth → Exceeds (decodeValue { c with maxDepth := D } s b)))) ∧
    (∀ (c c' : Config) (s : Shape) (v : Value), c.maxDepth ≤ c'.maxDepth → c'.maxSize = c.maxSize →
      ¬ Exceeds (encodeValue c s v) → encodeValue c' s v = encodeValue c s v) ∧
    (∀ (c c' : Config) (s : Shape) (data : Bytes), c.maxDepth ≤ c'.maxDepth →
      ¬ Exceeds (decodeValue c s data) → decodeValue c' s data = decodeValue c s data) ∧
    ∀ (c c' : Config) (s : Shape) (data : Bytes) (dst : Value), c.maxDepth ≤ c'.maxDepth →
      ¬ ExceedsInto (decodeValueInto c s data dst) →
      decodeValueInto c' s data dst = decodeValueInto c s data dst := by
  refine ⟨?_, ?_, ?_, ?_⟩
  · intro c s v b hs h D
    constructor
    · constructor
      · intro hd
        obtain ⟨⟨hc, -⟩, hb⟩ := (encodeValue_eq_ok_iff hs).mp h
        exact (encodeValue_eq_ok_iff hs).mpr ⟨⟨hc, hd⟩, hb⟩
      · exact exceeds_encodeValue hs h
    · intro hl hb
      constructor
      · intro hd
        obtain ⟨⟨hc, -⟩, rfl, -⟩ := (encodeValue_eq_ok_iff hs).mp h
        have hok := @decodeValue_encoding { c with maxDepth := D } s hs v hc hd (fits_of_length hs hl hc hb) []
        rwa [List.append_nil] at hok
      · exact exceeds_decodeValue hs hl hb h
  · intro c c' s v hd hm
    exact (limited_encodeValue hd hm s v).eq_of_not_exceeds
  · intro c c' s data hd
    exact (limited_decodeValue hd s data).eq_of_not_exceeds
  · intro c c' s data dst hd
    exact decodeValueInto_of_not_exceeds hd

theorem outcomes_by_limit_seq :
    let s : Shape := .seq (.optional .bool)
    let v : Value := .seq [.ref (.bool true), .nil]
    let b : Bytes := [1, 2, 1, 64]
    encodeValue {} s v = .ok b ∧ v.depth = 2 ∧
      encodeValue { maxDepth := 2 } s v = .ok b ∧ Exceeds (encodeValue { maxDepth := 1 } s v) ∧
      decodeValue { maxDepth := 2 } s b = .ok (canon s v, 4) ∧ Exceeds (decodeValue { maxDepth := 1 } s b) ∧
      encodeValue { maxDepth := 9 } s (.seq [.bool true]) = encodeValue { maxDepth := 1 } s (.seq [.bool true]) ∧
      decodeValue { maxDepth := 9 } s [1, 1, 64] = decodeValue { maxDepth := 1 } s [1, 1, 64] ∧
      decodeValueInto { maxDepth := 9 } s [1, 2] v = decodeValueInto { maxDepth := 1 } s [1, 2] v := by
  intro s v b
  have hs : s.Distinct := by simp [s, Shape.Distinct, Shape.All, Shape.NamesDiffer]
  have hl : s.All fun t => t.layers < 2 ^ 63 := by simp [s, Shape.All, Shape.layers]
  have h : encodeValue {} s v = .ok b := by rfl
  obtain ⟨limits, encoded, decoded, updated⟩ := outcomes_by_limit
  have two := limits {} s v b hs h 2
  have one := limits {} s v b hs h 1
  refine ⟨h, rfl, two.1.1 (by decide), one.1.2 (by decide), (two.2 hl (by decide)).1 (by decide),
    (one.2 hl (by decide)).2 (by decide), encoded _ _ _ _ (by decide) rfl ?_, decoded _ _ _ _ (by decide) ?_,
    updated _ _ _ _ _ (by decide) ?_⟩
  · rintro ⟨e, he, hk⟩
    cases he
    cases hk
  · rintro ⟨e, he, -⟩
    cases he
  · rintro ⟨e, dst, he, hk⟩
    cases he
    cases hk

end ShapeCodec
