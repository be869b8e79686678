import ShapeCodec.Proofs.Changes
import ShapeCodec.Typed.Codec

namespace ShapeCodec

theorem decodeValueInto_eq_error {c : Config} {s : Shape} {data : Bytes} {dst dst' : Value} {e : Error}
    (h : decodeValueInto c s data dst = .error e dst') : dst' = dst := by
  rw [decodeValueInto_eq] at h
  rcases uniform_decodeInto s (.upTo c.maxDepth) data with ⟨x, hx⟩ | ⟨rest, f, -, hok⟩
  · rw [hx] at h
    cases h
    rfl
  · rw [hok] at h
    cases h

theorem decodeDatumInto_eq_error {c : Config} {s : Shape} {t : Ty} {data : Bytes} {x x' : Datum} {e : Error}
    (h : decodeDatumInto c s t data x = .error e x') : x' = x := by
  rw [decodeDatumInto] at h
  rcases EStateM.bind_eq_error.mp h with h | ⟨y, z, hy, h⟩
  · cases h
  obtain ⟨rfl, rfl⟩ := EStateM.get_eq_ok.mp hy
  rcases EStateM.bind_eq_error.mp h with h | ⟨v, z, hv, h⟩
  · exact (EStateM.ofExcept_eq_error.mp h).2.symm
  obtain ⟨-, rfl⟩ := EStateM.ofExcept_eq_ok.mp hv
  -- The value is a copy of the datum, so whatever became of it the datum is as it was.
  cases hd : decodeValueInto c s data v with
  | error e' v' =>
    rw [hd] at h
    cases h
    rfl
  | ok used v' =>
    rw [hd] at h
    rcases EStateM.bind_eq_error.mp h with h | ⟨y, z, -, h⟩
    · exact (EStateM.ofExcept_eq_error.mp h).2.symm
    · cases h

/-- When decoding over a destination fails, at whichever part of the input, the destination is left as it
was: a value, or a datum of a static type, also one that the decoded value does not become. -/
theorem destination_of_failure :
    (∀ (c : Config) (s : Shape) (data : Bytes) (dst dst' : Value) (e : Error),
      decodeValueInto c s data dst = .error e dst' → dst' = dst) ∧
    (∀ (t : Ty) (data : Bytes) (x x' : Datum) (e : Error), t.decodeInto data x = .error e x' → x' = x) ∧
    ∀ (t : StaticType) (data : Bytes) (codec codec' : Codec) (x x' : Datum) (e : Error),
      Codec.decodeInto t data (codec, x) = .error e (codec', x') → x' = x := by
  refine ⟨fun _ _ _ _ _ _ => decodeValueInto_eq_error, fun t data x x' e h => ?_,
    fun t data codec codec' x x' e h => ?_⟩
  · rw [Ty.decodeInto] at h
    rcases EStateM.bind_eq_error.mp h with h | ⟨s, y, hs, h⟩
    · exact (EStateM.ofExcept_eq_error.mp h).2.symm
    · obtain ⟨-, rfl⟩ := EStateM.ofExcept_eq_ok.mp hs
      exact decodeDatumInto_eq_error h
  · rw [Codec.decodeInto] at h
    cases hs : Codec.shapeOf t codec with
    | error e' codec₁ =>
      rw [hs] at h
      cases h
      rfl
    | ok s codec₁ =>
      rw [hs] at h
      dsimp only at h
      cases hd : decodeDatumInto codec₁.config s t.type data x with
      | error e' y =>
        rw [hd] at h
        cases h
        exact decodeDatumInto_eq_error hd
      | ok used y =>
        rw [hd] at h
        cases h

theorem destination_of_failure_inner :
    let s : Shape := .record [("a", .bool), ("r", .optional (.record [("b", .bool), ("c", .bool)]))]
    let data : Bytes := [1, 17, 1, 1, 97, 1, 1, 1, 114, 1, 8, 1, 1, 98, 1, 1, 1, 99, 2]
    let dst : Value := .record [("r", .ref (.record [("b", .bool false)])), ("a", .bool false)]
    let t : Ty := .struct "T" [("b", .bool), ("c", .char)]
    let text : Bytes := [1, 11, 1, 1, 98, 1, 1, 1, 99, 1, 2, 104, 105]
    let x : Datum := .struct [("b", .bool false), ("c", .char 'x')]
    (∃ e dst', decodeValueInto {} s data dst = .error e dst' ∧ dst' = dst) ∧
    (∃ e x', t.decodeInto text x = .error e x' ∧ x' = x) ∧
    ∃ e codec' x', Codec.decodeInto ⟨0, t⟩ text ({}, x) = .error e (codec', x') ∧ x' = x := by
  intro s data dst t text x
  have hv : decodeValueInto {} s data dst = .error _ dst := rfl
  have ht : t.decodeInto text x = .error _ x := rfl
  have hc : Codec.decodeInto ⟨0, t⟩ text ({}, x) = .error _ (_, x) := rfl
  obtain ⟨value, datum, codec⟩ := destination_of_failure
  exact ⟨⟨_, _, hv, value _ _ _ _ _ _ hv⟩, ⟨_, _, ht, datum _ _ _ _ _ ht⟩,
    ⟨_, _, _, hc, codec _ _ _ _ _ _ _ hc⟩⟩

end ShapeCodec
