import ShapeCodec.Proofs.Reencoding

namespace ShapeCodec

/-- Whatever decodes is encoded again, to no more bytes than it was decoded from, and these decode to the
value with its pairs and fields in order. That is the value itself exactly if it was in order. -/
theorem recode_of_decodeValue {c : Config} {s : Shape} (hs : s.Distinct) {data : Bytes} {v : Value}
    {used : Nat} (h : decodeValue c s data = .ok (v, used)) (hu : used ≤ c.maxSize) :
    ∃ r, recode c s data = .ok r ∧ r.value = v ∧ r.used = used ∧
      encodeValue c s v = .ok r.encoded ∧ r.encoded.length ≤ used ∧
      decodeValue c s r.encoded = .ok (canon s v, r.encoded.length) ∧
      Value.Reordered v (canon s v) ∧ (r.same ↔ InOrder s v) := by
  obtain ⟨hw, -⟩ := wellBuilt_of_decodeValue hs h
  obtain ⟨enc, he, hl, hd, -, hr, -⟩ := encodeValue_of_decodeValue hs h rfl hu
  have hd := hd []
  rw [List.append_nil] at hd
  have hsame : (canon s v == v && enc.length == enc.length) ↔ InOrder s v := by
    rw [Bool.and_eq_true, beq_iff_eq, beq_self_eq_true, and_iff_left rfl]
    exact canon_eq_self_iff hs hw.conforms hw.explicit
  refine ⟨⟨v, used, enc, canon s v == v && enc.length == enc.length⟩, ?_, rfl, rfl, he, hl, hd, hr, hsame⟩
  rw [recode, h, Except.ok_bind]
  dsimp only
  rw [he, Except.ok_bind, hd, Except.ok_bind]

theorem recode_of_decodeValue_swapped :
    let s : Shape := .record [("a", .bool), ("b", .blob)]
    let data : Bytes := [1, 8, 1, 1, 98, 128, 1, 1, 97, 1, 7]
    let v : Value := .record [("b", .blob none), ("a", .bool true)]
    decodeValue {} s data = .ok (v, 10) ∧ ∃ r, recode {} s data = .ok r ∧ r.value = v ∧ ¬ r.same := by
  intro s data v
  have hs : s.Distinct := by simp [s, Shape.Distinct, Shape.All, Shape.AllFields, Shape.NamesDiffer]
  have h : decodeValue {} s data = .ok (v, 10) := rfl
  obtain ⟨r, hr, hv, -, -, -, -, -, hsame⟩ := recode_of_decodeValue hs h (by decide)
  refine ⟨h, r, hr, hv, fun ht => ?_⟩
  have hsub : ["b", "a"].Sublist ["a", "b"] := (hsame.mp ht).1
  exact absurd hsub (by decide)

/-- Fields that come in another order than the shape has them are written in the order of the shape. -/
theorem recode_fields_swapped :
    let s : Shape := .record [("id", .int .i64), ("name", .optionalN .str 2),
      ("tags", .map .str (.seq .bool)), ("raw", .blob)]
    let data : Bytes := [1, 11, 1, 3, 114, 97, 119, 128, 1, 2, 105, 100, 0]
    let v : Value := .record [("raw", .blob none), ("id", .int (.ofUnsigned 0))]
    let enc : Bytes := [1, 11, 1, 2, 105, 100, 0, 1, 3, 114, 97, 119, 128]
    let again : Value := .record [("id", .int (.ofUnsigned 0)), ("raw", .blob none)]
    decodeValue {} s data = .ok (v, data.length) ∧ encodeValue {} s v = .ok enc ∧
      decodeValue {} s enc = .ok (again, enc.length) ∧ again ≠ v := by
  intro s data v enc again
  exact ⟨rfl, rfl, rfl, by decide⟩

end ShapeCodec
