import ShapeCodec.Proofs.Canonical

namespace ShapeCodec

open Wire

/-- The number in the header of the value's unit is below `2 ^ 63`. -/
def HeaderFits : Shape → Value → Prop
  | .optional inner, .nil => inner.layers + 1 < 2 ^ 63
  | .str, .str s => (Text.utf8 s).length < 2 ^ 63
  | .blob, .blob (some content) => content.length < 2 ^ 63
  | .seq elem, .seq items => (items.flatMap (encoding elem)).length < 2 ^ 63
  | .map key val, .map pairs =>
    ((sortPairs pairs).flatMap fun p => encoding key p.1 ++ encoding val p.2).length < 2 ^ 63
  | .record known, .record fields => (encodingFields fields known).length < 2 ^ 63
  | _, _ => True

def Fits (s : Shape) (v : Value) : Prop :=
  s.Everywhere HeaderFits v

theorem length_le_flatMap {α : Type} {xs : List α} {x : α} (h : x ∈ xs) (code : α → Bytes) :
    (code x).length ≤ (xs.flatMap code).length := by
  rw [List.flatMap_def]
  exact (List.sublist_flatten_of_mem (List.mem_map_of_mem h)).length_le

theorem length_le_writeCounted (content : Bytes) :
    content.length ≤ (writeCounted (some content)).length := by
  rw [writeCounted, List.length_append]
  omega

theorem fits_of_length {s : Shape} (hs : s.Distinct) (hl : s.All fun t => t.layers < 2 ^ 63) {v : Value}
    (hc : s.Conforms v) (h : (encoding s v).length < 2 ^ 63) : Fits s v := by
  induction s generalizing v with
  | bool => trivial
  | int kind => trivial
  | str =>
    obtain ⟨t, rfl⟩ := hc
    exact Nat.lt_of_le_of_lt (length_le_writeCounted _) h
  | blob =>
    rcases hc with rfl | ⟨_ | content, rfl⟩
    · trivial
    · trivial
    · exact Nat.lt_of_le_of_lt (length_le_writeCounted _) h
  | seq elem ih =>
    rcases hc with rfl | ⟨items, rfl, hi⟩
    · exact ⟨trivial, trivial⟩
    · have hp := Nat.lt_of_le_of_lt (length_le_writeCounted _) h
      refine ⟨hp, fun w hw => ih hs.elem hl.2 (hi w hw) ?_⟩
      exact Nat.lt_of_le_of_lt (length_le_flatMap hw (encoding elem)) hp
  | map key val ihk ihv =>
    obtain ⟨ho, rfl | ⟨pairs, rfl, hn, hp⟩⟩ := hc
    · exact ⟨trivial, trivial⟩
    · have hm := Nat.lt_of_le_of_lt (length_le_writeCounted _) h
      refine ⟨hm, fun p hp' => ?_⟩
      have hq := Nat.lt_of_le_of_lt (length_le_flatMap (mem_sortPairs.mpr hp')
        fun p : Value × Value => encoding key p.1 ++ encoding val p.2) hm
      rw [List.length_append] at hq
      exact ⟨ihk hs.key hl.2.1 (hp p hp').1 (by omega), ihv hs.val hl.2.2 (hp p hp').2 (by omega)⟩
  | record known ih =>
    rcases hc with rfl | ⟨fields, rfl, hn, hf⟩
    · exact ⟨trivial, trivial⟩
    · have hp := Nat.lt_of_le_of_lt (length_le_writeCounted _) h
      refine ⟨hp, fun f hm => Shape.everywhereField_iff.mpr fun s hk => ?_⟩
      obtain ⟨t, ht, hc⟩ := Shape.conformsField_iff.mp (hf f hm)
      rw [hk] at ht
      cases ht
      have hms := mem_of_lookup hk
      refine ih _ hms (hs.field hms) (Shape.allFields_iff.mp hl.2 _ hms) hc ?_
      rw [encodingFields_eq] at hp
      have hq := Nat.lt_of_le_of_lt (length_le_flatMap
        (mem_mentioned_iff.mpr ⟨hms, lookup_of_mem hn hm⟩)
        fun m : String × Shape × Value => writeStr m.1 ++ encoding m.2.1 m.2.2) hp
      rw [List.length_append] at hq
      dsimp only at hq ⊢
      omega
  | optional inner ih =>
    rcases hc with rfl | ⟨w, rfl, hw⟩
    · exact ⟨hl.1, trivial⟩
    · exact ⟨trivial, ih hs.inner hl.2 hw h⟩

end ShapeCodec
