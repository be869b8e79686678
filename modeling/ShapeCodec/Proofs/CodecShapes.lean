import ShapeCodec.Typed.Codec
import ShapeCodec.Proofs.Outcome

namespace ShapeCodec.Codec

variable {t : StaticType} {s : Shape} {codec codec' : Codec}

@[simp] theorem lookup_insert (t : StaticType) (s : Shape) (codec : Codec) :
    (codec.insert t s).shapes.lookup t.id = some s := by
  rw [insert, List.lookup_cons, beq_self_eq_true]

theorem shapeOf_eq_ok_iff : shapeOf t codec = .ok s codec' ↔
    (codec.shapes.lookup t.id = some s ∧ codec' = codec) ∨
      (codec.shapes.lookup t.id = none ∧ t.type.shapeWithin codec.config.maxDepth = .ok s ∧
        codec' = codec.insert t s) := by
  have hget (f : Codec → EStateM Error Codec Shape) : (get >>= f) codec = f codec codec := rfl
  rw [shapeOf, hget]
  cases codec.shapes.lookup t.id with
  | some s₁ =>
    change EStateM.Result.ok s₁ codec = .ok s codec' ↔ _
    simp [eq_comm]
  | none =>
    dsimp only
    cases t.type.shapeWithin codec.config.maxDepth with
    | error e => exact ⟨nofun, fun h => by simp at h⟩
    | ok s₁ =>
      change EStateM.Result.ok s₁ (codec.insert t s₁) = .ok s codec' ↔ _
      constructor
      · intro h
        cases h
        exact .inr ⟨rfl, rfl, rfl⟩
      · rintro (⟨h, -⟩ | ⟨-, h, rfl⟩)
        · cases h
        · cases h
          rfl

theorem shapeOf_eq_ok (h : shapeOf t codec = .ok s codec') :
    codec'.config = codec.config ∧ shapeOf t codec' = .ok s codec' := by
  rcases shapeOf_eq_ok_iff.mp h with ⟨hl, rfl⟩ | ⟨-, -, rfl⟩
  · exact ⟨rfl, h⟩
  · exact ⟨rfl, shapeOf_eq_ok_iff.mpr (.inl ⟨lookup_insert t s codec, rfl⟩)⟩

/-- The shape that a codec remembers for a type, if any, is the one that it would trace. -/
def Traced (codec : Codec) (t : StaticType) : Prop :=
  ∀ s, codec.shapes.lookup t.id = some s → t.type.shapeWithin codec.config.maxDepth = .ok s

theorem Traced.of_shapeOf (ht : codec.Traced t) (h : shapeOf t codec = .ok s codec') :
    t.type.shapeWithin codec.config.maxDepth = .ok s ∧ codec'.Traced t := by
  rcases shapeOf_eq_ok_iff.mp h with ⟨hl, rfl⟩ | ⟨-, hs, rfl⟩
  · exact ⟨ht s hl, ht⟩
  · refine ⟨hs, fun u hu => ?_⟩
    rw [lookup_insert] at hu
    cases hu
    exact hs

theorem Traced.shapeOf (ht : codec.Traced t) (h : t.type.shapeWithin codec.config.maxDepth = .ok s) :
    ∃ codec', Codec.shapeOf t codec = .ok s codec' ∧ codec'.config = codec.config := by
  cases hl : codec.shapes.lookup t.id with
  | none => exact ⟨_, shapeOf_eq_ok_iff.mpr (.inr ⟨hl, h, rfl⟩), rfl⟩
  | some u =>
    have hu := ht u hl
    rw [h] at hu
    cases hu
    exact ⟨codec, shapeOf_eq_ok_iff.mpr (.inl ⟨hl, rfl⟩), rfl⟩

end ShapeCodec.Codec
