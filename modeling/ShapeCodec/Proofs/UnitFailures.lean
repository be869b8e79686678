import ShapeCodec.Proofs.Reading

namespace ShapeCodec

open Wire

def Error.ofUnit : Error → Bool
  | nested .. | depthExceeded _ => false
  | _ => true

def FailsPlainly {α : Type} (r : Except Error α) : Prop :=
  ∀ e, r = .error e → e.ofUnit

namespace FailsPlainly

variable {α β : Type} {r : Except Error α}

theorem ok (x : α) : FailsPlainly (.ok x) := by
  intro e h
  cases h

theorem error {e : Error} (h : e.ofUnit) : FailsPlainly (.error e : Except Error α) := by
  intro e' he
  cases he
  exact h

theorem bind {f : α → Except Error β} (h : FailsPlainly r) (hf : ∀ x, FailsPlainly (f x)) :
    FailsPlainly (r >>= f) := by
  intro e he
  rcases Except.bind_eq_error.mp he with he | ⟨x, -, he⟩
  · exact h e he
  · exact hf x e he

theorem map (h : FailsPlainly r) (f : α → β) : FailsPlainly (r.map f) := by
  cases r with
  | ok x => exact .ok (f x)
  | error e => exact .error (h e rfl)

end FailsPlainly

namespace Wire

theorem failsPlainly_take (step : Step) (n : Nat) (input : Bytes) : FailsPlainly (take step n input) := by
  rw [take]
  split
  · exact .error rfl
  · exact .ok _

theorem failsPlainly_readBool (input : Bytes) : FailsPlainly (readBool input) := by
  cases input with
  | nil => exact .error rfl
  | cons b input =>
    rw [readBool]
    split
    · exact .ok _
    · split
      · exact .ok _
      · exact .error rfl

theorem failsPlainly_readInt (input : Bytes) : FailsPlainly (readInt input) := by
  cases input with
  | nil => exact .error rfl
  | cons b input =>
    rw [readInt]
    split
    · exact .error rfl
    · exact .error rfl
    · apply (failsPlainly_take _ _ input).bind
      intro x
      dsimp only
      split
      · exact .error rfl
      · exact .ok _

theorem failsPlainly_readLength (step : Step) (input : Bytes) : FailsPlainly (readLength step input) := by
  apply (failsPlainly_readInt input).bind
  intro x
  dsimp only
  split
  · exact .ok _
  · split
    · exact .error rfl
    · exact .ok _

theorem failsPlainly_readStr (input : Bytes) : FailsPlainly (readStr input) := by
  apply (failsPlainly_readLength _ input).bind
  rintro ⟨_ | n, rest⟩
  · exact .error rfl
  · apply (failsPlainly_take _ n rest).bind
    rintro ⟨content, after⟩
    dsimp only
    cases Text.Utf8.decode content with
    | ok s => exact .ok _
    | error fault => exact .error rfl

theorem failsPlainly_readBlob (input : Bytes) : FailsPlainly (readBlob input) := by
  apply (failsPlainly_readLength _ input).bind
  rintro ⟨_ | n, rest⟩
  · exact .ok _
  · apply (failsPlainly_take _ n rest).bind
    intro x
    exact .ok _

theorem failsPlainly_skipExtensions (extended : Bool) (input : Bytes) :
    FailsPlainly (skipExtensions extended input) := by
  induction input generalizing extended with
  | nil =>
    cases extended with
    | false => exact .ok _
    | true => exact .error rfl
  | cons b input ih =>
    cases extended with
    | false => exact .ok _
    | true => exact ih (InfoByte.isExtended b)

theorem failsPlainly_readDepth (input : Bytes) : FailsPlainly (readDepth input) := by
  rw [readDepth]
  split
  · split
    · exact .error rfl
    · exact .error rfl
  · split
    · exact .error rfl
    · exact .ok _

theorem failsPlainly_readNil (input : Bytes) : FailsPlainly (readNil input) := by
  cases input with
  | nil => exact .ok _
  | cons b input =>
    rw [readNil]
    split
    · apply (failsPlainly_skipExtensions _ input).bind
      intro rest
      split
      · exact (failsPlainly_readDepth rest).map some
      · exact .ok _
    · exact .ok _

theorem failsPlainly_readAbsent (input : Bytes) : FailsPlainly (readAbsent input) := by
  apply (failsPlainly_readNil input).bind
  intro x
  split
  · exact .ok _
  · exact .ok _
  · exact .error rfl

theorem failsPlainly_openPayload (of : Composite) (input : Bytes) : FailsPlainly (openPayload of input) := by
  apply (failsPlainly_readAbsent input).bind
  intro x
  cases x with
  | some rest => exact .ok _
  | none =>
    apply (failsPlainly_readLength _ input).bind
    rintro ⟨_ | n, rest⟩
    · exact .ok _
    · apply (failsPlainly_take _ n rest).bind
      intro x
      exact .ok _

theorem failsPlainly_readAbsentLayers (s : Shape) (input : Bytes) : FailsPlainly (readAbsentLayers s input) := by
  apply (failsPlainly_readNil input).bind
  intro x
  cases x with
  | none => exact .ok _
  | some x =>
    dsimp only
    split
    · exact .ok _
    · split
      · exact .error rfl
      · exact .ok _

end Wire

theorem failsPlainly_readInteger (kind : IntKind) (input : Bytes) : FailsPlainly (readInteger kind input) := by
  apply (failsPlainly_readInt input).bind
  intro x
  cases kind.ofBits? x.1 with
  | some n => exact .ok _
  | none => exact .error rfl

theorem failsPlainly_readContent (input : Bytes) : FailsPlainly (readContent input) := by
  apply (failsPlainly_readAbsent input).bind
  intro x
  cases x with
  | some rest => exact .ok _
  | none => exact (failsPlainly_readBlob input).map _

theorem failsPlainly_checkKey (key : Shape) : FailsPlainly key.checkKey := by
  rw [Shape.checkKey]
  split
  · exact .ok _
  · exact .error rfl

end ShapeCodec
