import ShapeCodec.Proofs.Reading
import ShapeCodec.Proofs.UnitCoding

namespace ShapeCodec

open Wire

namespace Wire

variable {input rest : Bytes}

theorem one_le_length_writeInt (bits : BitVec 64) : 1 ≤ (writeInt bits).length := by
  rw [writeInt_eq, List.length_cons]
  exact Nat.succ_pos _

theorem one_le_length_writeCounted (content : Option Bytes) : 1 ≤ (writeCounted content).length := by
  cases content with
  | none => exact one_le_length_writeInt _
  | some content =>
    rw [writeCounted, List.length_append]
    exact Nat.le_add_right_of_le (one_le_length_writeInt _)

theorem one_le_length_writeNil (k : Nat) : 1 ≤ (writeNil k).length := by
  rw [writeNil]
  split
  · exact Nat.le_refl _
  · exact Nat.succ_pos _

theorem openPayload_eq_ok {of : Composite} {p : Option Payload} (h : openPayload of input = .ok (p, rest)) :
    ∃ used, input = used ++ rest ∧ 1 ≤ used.length := by
  cases p with
  | none => exact openPayload_eq_ok_none h
  | some p =>
    obtain ⟨-, used, rfl, -, hu⟩ := openPayload_eq_ok_some h
    refine ⟨used ++ p.bytes, rfl, ?_⟩
    rw [List.length_append]
    exact Nat.le_add_right_of_le (Nat.le_trans (one_le_length_writeInt _) hu)

theorem readAbsentLayers_eq_ok {s : Shape} (h : readAbsentLayers s input = .ok (some rest)) :
    ∃ used, input = used ++ rest ∧ 1 ≤ used.length := by
  obtain ⟨r, hr, h⟩ := Except.bind_eq_ok.mp h
  rcases r with - | ⟨k, after⟩
  · cases h
  · dsimp only at h
    split at h
    · cases h
      obtain ⟨-, -, used, rfl, hu⟩ := readNil_eq_ok hr
      exact ⟨used, rfl, Nat.le_trans (one_le_length_writeNil k) hu⟩
    · split at h <;> cases h

end Wire

theorem readComposite_eq_ok {σ : Type} {of : Composite} {init : σ} {done : σ → Value}
    {read : Depth → Payload → Nat → σ → Bytes → Except Error (σ × Bytes)} {d : Depth} {input rest : Bytes} {v : Value}
    (h : (do
      match ← openPayload of input with
      | (none, rest) => .ok (.nil, rest)
      | (some p, rest) =>
        let d ← d.enter
        let x ← p.fold (read d p) init
        .ok (done x, rest)) = (.ok (v, rest) : Except Error (Value × Bytes))) :
    openPayload of input = .ok (none, rest) ∧ v = .nil ∨
      ∃ p e x, openPayload of input = .ok (some p, rest) ∧ p.fold (read e p) init = .ok x ∧ v = done x := by
  obtain ⟨⟨_ | p, after⟩, ho, h⟩ := Except.bind_eq_ok.mp h
  · cases h
    exact .inl ⟨ho, rfl⟩
  · obtain ⟨e, -, h⟩ := Except.bind_eq_ok.mp h
    obtain ⟨x, hx, h⟩ := Except.bind_eq_ok.mp h
    cases h
    exact .inr ⟨p, e, x, ho, hx, rfl⟩

theorem used_of_fresh {s : Shape} {d : Depth} {input rest : Bytes} {v : Value}
    (h : fresh (decodeInto s d) input = .ok (v, rest)) : ∃ used, input = used ++ rest ∧ 1 ≤ used.length := by
  -- A payload is split off before any unit in it is read, so the induction is for the reference layers alone.
  induction s generalizing d v with
  | bool =>
    rw [fresh_of_replace (decodeInto_bool d input .nil)] at h
    obtain ⟨⟨b, after⟩, hb, h⟩ := Except.map_eq_ok.mp h
    cases h
    exact readBool_eq_ok hb
  | int kind =>
    rw [fresh_of_replace (decodeInto_int d input .nil kind)] at h
    obtain ⟨⟨bits, after⟩, hb, hn⟩ := Except.bind_eq_ok.mp h
    obtain ⟨used, rfl, hu⟩ := readInt_eq_ok hb
    cases hk : kind.ofBits? bits with
    | none =>
      rw [hk] at hn
      cases hn
    | some n =>
      rw [hk] at hn
      cases hn
      exact ⟨used, rfl, Nat.le_trans (one_le_length_writeInt bits) hu⟩
  | str =>
    rw [fresh_of_replace (decodeInto_str d input .nil)] at h
    obtain ⟨⟨t, after⟩, ht, h⟩ := Except.map_eq_ok.mp h
    cases h
    obtain ⟨-, used, rfl, hu⟩ := readStr_eq_ok ht
    exact ⟨used, rfl, Nat.le_trans (one_le_length_writeCounted _) hu⟩
  | blob =>
    rw [fresh_of_replace (decodeInto_blob d input .nil)] at h
    obtain ⟨r, hr, h⟩ := Except.bind_eq_ok.mp h
    cases r with
    | some after =>
      cases h
      exact readAbsent_eq_ok hr
    | none =>
      obtain ⟨⟨content, after⟩, hc, h⟩ := Except.map_eq_ok.mp h
      cases h
      obtain ⟨-, used, rfl, hu⟩ := readBlob_eq_ok hc
      exact ⟨used, rfl, Nat.le_trans (one_le_length_writeCounted content) hu⟩
  | seq elem _ =>
    rw [fresh_of_replace (decodeInto_seq d input .nil elem)] at h
    obtain ⟨ho, -⟩ | ⟨p, e, x, ho, -, -⟩ := readComposite_eq_ok h
    · exact openPayload_eq_ok ho
    · exact openPayload_eq_ok ho
  | map key val _ _ =>
    rw [fresh_of_replace (decodeInto_map d input .nil key val)] at h
    obtain ⟨_, -, h⟩ := Except.bind_eq_ok.mp h
    obtain ⟨ho, -⟩ | ⟨p, e, x, ho, -, -⟩ := readComposite_eq_ok h
    · exact openPayload_eq_ok ho
    · exact openPayload_eq_ok ho
  | record known _ =>
    rw [fresh_of_replace (decodeInto_record d input .nil known)] at h
    obtain ⟨ho, -⟩ | ⟨p, e, x, ho, -, -⟩ := readComposite_eq_ok h
    · exact openPayload_eq_ok ho
    · exact openPayload_eq_ok ho
  | optional inner ih =>
    rw [fresh_decodeInto_optional] at h
    obtain ⟨r, hr, h⟩ := Except.bind_eq_ok.mp h
    cases r with
    | some after =>
      cases h
      exact readAbsentLayers_eq_ok hr
    | none =>
      obtain ⟨e, -, h⟩ := Except.bind_eq_ok.mp h
      obtain ⟨⟨w, after⟩, hw, h⟩ := Except.map_eq_ok.mp h
      cases h
      exact ih hw

end ShapeCodec
