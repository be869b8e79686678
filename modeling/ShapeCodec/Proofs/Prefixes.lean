import ShapeCodec.Proofs.Reading
import ShapeCodec.Proofs.UnitCoding

/-!
Reading is decided by the bytes it needs. With more bytes at the end of the input, a read gives what
it gave, or fails as it failed, unless the failure was that the input ended too early.
-/

namespace ShapeCodec

open Wire

/-- The second outcome is the first one, grown by the bytes that came in addition, or else the first
one asked for more bytes. -/
def Decided {α : Type} (grow : α → α) (r r' : Except Error α) : Prop :=
  match r with
  | .ok x => r' = .ok (grow x)
  | .error e => e.isIncomplete = false → r' = .error e

abbrev growRest {α : Type} (more : Bytes) (r : α × Bytes) : α × Bytes :=
  (r.1, r.2 ++ more)

namespace Decided

variable {α β : Type} {grow : α → α} {grow' : β → β}

theorem bind {r r' : Except Error α} {f f' : α → Except Error β} (h : Decided grow r r')
    (hf : ∀ x, r = .ok x → Decided grow' (f x) (f' (grow x))) : Decided grow' (r >>= f) (r' >>= f') := by
  cases r with
  | ok x =>
    obtain rfl : r' = .ok (grow x) := h
    exact hf x rfl
  | error e =>
    intro hi
    rw [h hi, Except.error_bind]

theorem map {r r' : Except Error α} (h : Decided grow r r') {f : α → β}
    (hf : ∀ x, f (grow x) = grow' (f x)) : Decided grow' (r.map f) (r'.map f) := by
  cases r with
  | ok x =>
    obtain rfl : r' = .ok (grow x) := h
    exact congrArg Except.ok (hf x)
  | error e =>
    intro hi
    rw [h hi, Except.error_map]

theorem error {e : Error} {r' : Except Error α} (h : r' = .error e) : Decided grow (.error e) r' :=
  fun _ => h

theorem incomplete {e : Error} {r' : Except Error α} (h : e.isIncomplete) : Decided grow (.error e) r' :=
  fun hi => Bool.noConfusion (h.symm.trans hi)

theorem refl (r : Except Error α) : Decided id r r := by
  cases r with
  | ok x => rfl
  | error e => exact .error rfl

end Decided

namespace Wire

theorem decided_take (step : Step) (n : Nat) (input more : Bytes) :
    Decided (growRest more) (take step n input) (take step n (input ++ more)) := by
  rw [take]
  split
  · exact .incomplete rfl
  · next h =>
    have hn : n ≤ input.length := Nat.not_lt.mp h
    rw [take, if_neg (by rw [List.length_append]; omega), List.take_append_of_le_length hn,
      List.drop_append_of_le_length hn]
    rfl

theorem decided_readInt (input more : Bytes) :
    Decided (growRest more) (readInt input) (readInt (input ++ more)) := by
  cases input with
  | nil => exact .incomplete rfl
  | cons b input =>
    rw [List.cons_append, readInt, readInt]
    cases InfoByte.ofByte b with
    | nil => exact .error rfl
    | reserved => exact .error rfl
    | int negative length =>
      refine (decided_take _ length input more).bind fun x _ => ?_
      obtain ⟨magnitude, rest⟩ := x
      dsimp only
      split
      · exact .error rfl
      · rfl

theorem decided_readLength (step : Step) (input more : Bytes) :
    Decided (growRest more) (readLength step input) (readLength step (input ++ more)) := by
  refine (decided_readInt input more).bind fun x _ => ?_
  obtain ⟨bits, rest⟩ := x
  dsimp only
  split
  · rfl
  · split
    · exact .error rfl
    · rfl

theorem decided_readStr (input more : Bytes) :
    Decided (growRest more) (readStr input) (readStr (input ++ more)) := by
  refine (decided_readLength _ input more).bind fun x _ => ?_
  obtain ⟨_ | n, rest⟩ := x
  · exact .error rfl
  · refine (decided_take _ n rest more).bind fun x _ => ?_
    obtain ⟨content, rest⟩ := x
    dsimp only
    cases Text.Utf8.decode content with
    | ok s => rfl
    | error fault => exact .error rfl

theorem decided_readBlob (input more : Bytes) :
    Decided (growRest more) (readBlob input) (readBlob (input ++ more)) := by
  refine (decided_readLength _ input more).bind fun x _ => ?_
  obtain ⟨_ | n, rest⟩ := x
  · rfl
  · refine (decided_take _ n rest more).bind fun x _ => ?_
    obtain ⟨content, rest⟩ := x
    rfl

theorem decided_readBool (input more : Bytes) :
    Decided (growRest more) (readBool input) (readBool (input ++ more)) := by
  cases input with
  | nil => exact .incomplete rfl
  | cons b input =>
    rw [List.cons_append, readBool, readBool]
    split
    · rfl
    · split
      · rfl
      · exact .error rfl

theorem decided_skipExtensions (extended : Bool) (input more : Bytes) :
    Decided (· ++ more) (skipExtensions extended input) (skipExtensions extended (input ++ more)) := by
  induction input generalizing extended with
  | nil =>
    cases extended with
    | false => rw [skipExtensions_false, skipExtensions_false]; rfl
    | true => exact .incomplete rfl
  | cons b input ih =>
    cases extended with
    | false => rw [skipExtensions_false, skipExtensions_false]; rfl
    | true => exact ih (InfoByte.isExtended b)

theorem isEof_of_readInt {input : Bytes} {e : Error} (h : readInt input = .error e) (hi : e.isIncomplete) :
    e.isEof := by
  cases input with
  | nil => cases h; rfl
  | cons b input =>
    rw [readInt] at h
    cases hb : InfoByte.ofByte b with
    | nil => rw [hb] at h; cases h; cases hi
    | reserved => rw [hb] at h; cases h; cases hi
    | int negative length =>
      rw [hb] at h
      rcases Except.bind_eq_error.mp h with ht | ⟨x, -, hx⟩
      · rw [take] at ht
        split at ht
        · cases ht; rfl
        · cases ht
      · obtain ⟨magnitude, rest⟩ := x
        dsimp only at hx
        split at hx
        · cases hx; cases hi
        · cases hx

theorem decided_readDepth (input more : Bytes) :
    Decided (growRest more) (readDepth input) (readDepth (input ++ more)) := by
  have hd := decided_readInt input more
  rw [readDepth]
  cases hr : readInt input with
  | error e =>
    rw [hr] at hd
    dsimp only
    split
    · exact .incomplete rfl
    · next he =>
      have hi : e.isIncomplete = false := by
        rw [← Bool.not_eq_true]
        exact fun hi => he (isEof_of_readInt hr hi)
      rw [readDepth, hd hi]
      dsimp only
      rw [if_neg he]
      exact .error rfl
  | ok x =>
    obtain ⟨bits, rest⟩ := x
    rw [hr] at hd
    rw [readDepth, show readInt (input ++ more) = .ok (bits, rest ++ more) from hd]
    dsimp only
    split
    · exact .error rfl
    · rfl

theorem decided_readNil {input : Bytes} (h : input ≠ []) (more : Bytes) :
    Decided (Option.map (growRest more)) (readNil input) (readNil (input ++ more)) := by
  cases input with
  | nil => exact absurd rfl h
  | cons b input =>
    rw [List.cons_append, readNil, readNil]
    cases InfoByte.ofByte b with
    | int negative length => rfl
    | reserved => rfl
    | nil extended indirect =>
      refine (decided_skipExtensions extended input more).bind fun rest _ => ?_
      cases indirect with
      | false => rfl
      | true => exact (decided_readDepth rest more).map fun _ => rfl

theorem decided_readAbsent {input : Bytes} (h : input ≠ []) (more : Bytes) :
    Decided (Option.map (· ++ more)) (readAbsent input) (readAbsent (input ++ more)) := by
  refine (decided_readNil h more).bind fun x _ => ?_
  rcases x with - | ⟨_ | _ | k, rest⟩
  · rfl
  · exact .error rfl
  · rfl
  · exact .error rfl

theorem decided_openPayload (of : Composite) {input : Bytes} (h : input ≠ []) (more : Bytes) :
    Decided (growRest more) (openPayload of input) (openPayload of (input ++ more)) := by
  refine (decided_readAbsent h more).bind fun x _ => ?_
  cases x with
  | some rest => rfl
  | none =>
    refine (decided_readLength _ input more).bind fun x _ => ?_
    obtain ⟨_ | n, rest⟩ := x
    · rfl
    · refine (decided_take _ n rest more).bind fun x _ => ?_
      obtain ⟨bytes, after⟩ := x
      have hl : (input ++ more).length - (rest ++ more).length = input.length - rest.length := by
        rw [List.length_append, List.length_append, Nat.add_sub_add_right]
      dsimp only [growRest]
      rw [hl]
      rfl

theorem decided_readAbsentLayers (s : Shape) {input : Bytes} (h : input ≠ []) (more : Bytes) :
    Decided (Option.map (· ++ more)) (readAbsentLayers s input) (readAbsentLayers s (input ++ more)) := by
  refine (decided_readNil h more).bind fun x _ => ?_
  rcases x with - | ⟨k, rest⟩
  · rfl
  · dsimp only [Option.map_some]
    split
    · rfl
    · split
      · exact .error rfl
      · rfl

theorem decided_readSeq (d : Depth) (elem : Depth → Update) {input : Bytes} (h : input ≠ []) (more : Bytes) :
    Decided (growRest more) (readSeq d elem input) (readSeq d elem (input ++ more)) := by
  refine (decided_openPayload _ h more).bind fun x _ => ?_
  obtain ⟨_ | p, rest⟩ := x
  · rfl
  · exact (Decided.refl d.enter).bind fun e _ => (Decided.refl (p.fold _ #[])).bind fun _ _ => rfl

theorem decided_readPairList (d : Depth) (key val : Depth → Update) {input : Bytes} (h : input ≠ [])
    (more : Bytes) : Decided (growRest more) (readPairList d key val input) (readPairList d key val (input ++ more)) := by
  refine (decided_openPayload _ h more).bind fun x _ => ?_
  obtain ⟨_ | p, rest⟩ := x
  · rfl
  · exact (Decided.refl d.enter).bind fun e _ => (Decided.refl (p.fold _ [])).bind fun _ _ => rfl

theorem decided_readRecord (d : Depth) (field : Depth → String → Option Update)
    (fields : List (String × Value)) {input : Bytes} (h : input ≠ []) (more : Bytes) :
    Decided (growRest more) (readRecord d field fields input) (readRecord d field fields (input ++ more)) := by
  refine (decided_openPayload _ h more).bind fun x _ => ?_
  obtain ⟨_ | p, rest⟩ := x
  · rfl
  · exact (Decided.refl d.enter).bind fun e _ => (Decided.refl (p.fold _ fields)).bind fun _ _ => rfl

end Wire

theorem decided_decodeInto (s : Shape) (d : Depth) {input : Bytes} (h : input ≠ []) (more : Bytes) :
    Decided (growRest more) (fresh (decodeInto s d) input) (fresh (decodeInto s d) (input ++ more)) := by
  -- Units inside a payload have the payload for their input, whatever follows it, so the induction is for
  -- the reference layers alone.
  induction s generalizing d with
  | bool =>
    rw [fresh_of_replace (decodeInto_bool d input .nil), fresh_of_replace (decodeInto_bool d _ .nil)]
    exact (decided_readBool input more).map fun _ => rfl
  | int kind =>
    rw [fresh_of_replace (decodeInto_int d input .nil kind), fresh_of_replace (decodeInto_int d _ .nil kind)]
    refine (decided_readInt input more).bind fun r _ => ?_
    dsimp only [growRest]
    cases kind.ofBits? r.1 with
    | some n => rfl
    | none => exact .error rfl
  | str =>
    rw [fresh_of_replace (decodeInto_str d input .nil), fresh_of_replace (decodeInto_str d _ .nil)]
    exact (decided_readStr input more).map fun _ => rfl
  | blob =>
    rw [fresh_of_replace (decodeInto_blob d input .nil), fresh_of_replace (decodeInto_blob d _ .nil)]
    refine (decided_readAbsent h more).bind fun r _ => ?_
    cases r with
    | some rest => rfl
    | none => exact (decided_readBlob input more).map fun _ => rfl
  | seq elem _ =>
    rw [fresh_of_replace (decodeInto_seq d input .nil elem), fresh_of_replace (decodeInto_seq d _ .nil elem)]
    exact decided_readSeq d _ h more
  | map key val _ _ =>
    rw [fresh_of_replace (decodeInto_map d input .nil key val),
      fresh_of_replace (decodeInto_map d _ .nil key val)]
    exact (Decided.refl key.checkKey).bind fun _ _ => decided_readPairList d _ _ h more
  | record known _ =>
    rw [fresh_of_replace (decodeInto_record d input .nil known),
      fresh_of_replace (decodeInto_record d _ .nil known)]
    exact decided_readRecord d _ _ h more
  | optional inner ih =>
    rw [fresh_decodeInto_optional, fresh_decodeInto_optional]
    refine (decided_readAbsentLayers _ h more).bind fun x _ => ?_
    cases x with
    | some rest => rfl
    | none => exact (Decided.refl d.enter).bind fun e _ => (ih e).map fun _ => rfl

theorem decided_decodeValue (c : Config) (s : Shape) {input : Bytes} (h : input ≠ []) (more : Bytes) :
    Decided id (decodeValue c s input) (decodeValue c s (input ++ more)) := by
  rw [decodeValue_eq, decodeValue_eq]
  have hd := decided_decodeInto s (.upTo c.maxDepth) h more
  cases hr : fresh (decodeInto s (.upTo c.maxDepth)) input with
  | error e =>
    rw [hr] at hd
    intro hi
    rw [hd hi, Except.error_map]
  | ok r =>
    rw [hr] at hd
    rw [show fresh (decodeInto s (.upTo c.maxDepth)) (input ++ more) = .ok (growRest more r) from hd,
      Except.ok_map, Except.ok_map, List.length_append, List.length_append, Nat.add_sub_add_right]
    rfl

theorem used_le_length {c : Config} {s : Shape} {input : Bytes} {v : Value} {used : Nat}
    (h : decodeValue c s input = .ok (v, used)) : used ≤ input.length := by
  rw [decodeValue_eq] at h
  obtain ⟨r, -, hr⟩ := Except.map_eq_ok.mp h
  cases hr
  exact Nat.sub_le _ _

/-- A result stands, and so does a failure that is final, whatever comes after the input; where an input
decodes, every part of it that ends too early says so. -/
theorem decodeValue_decided (c : Config) (s : Shape) (data : Bytes) :
    (data ≠ [] → (∀ e, decodeValue c s data = .error e → e.isIncomplete = false) →
      ∀ suffix, decodeValue c s (data ++ suffix) = decodeValue c s data) ∧
    ∀ v used, decodeValue c s data = .ok (v, used) → ∀ n, 0 < n → n < used →
      ∃ e, decodeValue c s (data.take n) = .error e ∧ e.isIncomplete := by
  refine ⟨fun hne hfinal suffix => ?_, fun v used hv n hn hu => ?_⟩
  · have hd := decided_decodeValue c s hne suffix
    cases hr : decodeValue c s data with
    | ok r =>
      rw [hr] at hd
      exact hd
    | error e =>
      rw [hr] at hd
      exact hd (hfinal e hr)
  · have hl := used_le_length hv
    have hlen : (data.take n).length = n := List.length_take_of_le (by omega)
    have hne : data.take n ≠ [] := List.ne_nil_of_length_pos (by omega)
    have hd := decided_decodeValue c s hne (data.drop n)
    rw [List.take_append_drop, hv] at hd
    cases hr : decodeValue c s (data.take n) with
    | ok r =>
      -- A prefix that decodes uses none of the bytes behind it, and so do all of the data.
      rw [hr] at hd
      cases hd
      have := used_le_length hr
      omega
    | error e =>
      refine ⟨e, rfl, ?_⟩
      rw [hr] at hd
      by_contra hi
      cases hd (Bool.not_eq_true _ ▸ hi)

theorem decodeValue_decided_seq :
    decodeValue {} (.seq .bool) ([1, 2, 1, 0] ++ [9]) = .ok (.seq [.bool true, .bool false], 4) ∧
      ∃ e, decodeValue {} (.seq .bool) ([1, 2, 1, 0].take 3) = .error e ∧ e.isIncomplete := by
  have h : decodeValue {} (.seq .bool) [1, 2, 1, 0] = .ok (.seq [.bool true, .bool false], 4) := by rfl
  obtain ⟨hs, hp⟩ := decodeValue_decided {} (.seq .bool) [1, 2, 1, 0]
  refine ⟨?_, hp _ _ h 3 (by decide) (by decide)⟩
  rw [hs (List.cons_ne_nil _ _) (fun e he => by rw [h] at he; cases he) [9], h]

end ShapeCodec
