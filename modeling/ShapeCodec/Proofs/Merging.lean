import ShapeCodec.Proofs.Changes
import ShapeCodec.Proofs.RoundTrip

namespace ShapeCodec

namespace Value

/-- Lays updates over the first fields of their names, where these stand, and puts those for which there is
no field behind them, as they come. -/
def mergeFields (lay : String → Value → Value → Value) :
    List (String × Value) → List (String × Value) → List (String × Value)
  | [], us => us.map fun u => (u.1, lay u.1 .nil u.2)
  | (name, v) :: fields, us =>
    match us.lookup name with
    | some u => (name, lay name v u) :: mergeFields lay fields (us.filter (·.1 ≠ name))
    | none => (name, v) :: mergeFields lay fields us

end Value

namespace Shape

mutual

/-- The destination with an update of the shape laid over it. An update goes through a reference layer that
is present, to the target there or else to nothing, and is merged with a record; any other takes the place
of the destination. -/
def overlay : Shape → Value → Value → Value
  | .optional inner, dst, u =>
    match u with
    | .ref w => .ref (inner.overlay dst.target w)
    | u => u
  | .record known, dst, u =>
    match u with
    | .record us => .record (Value.mergeFields (overlayField known) dst.fields us)
    | u => u
  | .bool, _, u | .int _, _, u | .str, _, u | .blob, _, u | .seq _, _, u | .map _ _, _, u => u

def overlayField : List (String × Shape) → String → Value → Value → Value
  | [], _, _, u => u
  | (n, s) :: known, name, v, u => if n = name then s.overlay v u else overlayField known name v u

end

theorem overlayField_of_lookup {known : List (String × Shape)} {name : String} {s : Shape}
    (h : known.lookup name = some s) (v u : Value) : overlayField known name v u = s.overlay v u := by
  induction known with
  | nil => cases h
  | cons f known ih =>
    obtain ⟨n, t⟩ := f
    rw [lookup_cons_eq] at h
    rw [overlayField]
    split at h
    · next hn =>
      cases h
      rw [if_pos hn]
    · next hn => rw [if_neg hn, ih h]

end Shape

namespace Value

section Merging

variable {lay lay' : String → Value → Value → Value} {us : List (String × Value)}

theorem mergeFields_congr (h : ∀ u ∈ us, ∀ v, lay u.1 v u.2 = lay' u.1 v u.2)
    (fields : List (String × Value)) : mergeFields lay fields us = mergeFields lay' fields us := by
  induction fields generalizing us with
  | nil =>
    refine List.map_congr_left fun u hu => ?_
    rw [h u hu]
  | cons f fields ih =>
    obtain ⟨name, v⟩ := f
    rw [mergeFields, mergeFields]
    cases hu : us.lookup name with
    | none => exact congrArg _ (ih h)
    | some u =>
      dsimp only
      rw [h _ (mem_of_lookup hu), ih fun w hw => h w (List.mem_of_mem_filter hw)]

theorem changeAt_of_not_mem {changes : List (String × (Value → Value))} {name : String}
    (h : name ∉ changes.map (·.1)) (v : Value) : changeAt name changes v = v := by
  induction changes with
  | nil => rfl
  | cons c changes ih =>
    obtain ⟨n, f⟩ := c
    rw [List.map_cons, List.mem_cons, not_or] at h
    rw [changeAt, if_neg (Ne.symm h.1), ih h.2]

def changesOf (lay : String → Value → Value → Value) (us : List (String × Value)) :
    List (String × (Value → Value)) :=
  us.map fun u => (u.1, fun v => lay u.1 v u.2)

theorem names_changesOf : (changesOf lay us).map (·.1) = us.map (·.1) := by
  rw [changesOf, List.map_map]
  rfl

theorem changesOf_filter (name : String) :
    (changesOf lay us).filter (·.1 ≠ name) = changesOf lay (us.filter (·.1 ≠ name)) := by
  rw [changesOf, List.filter_map]
  rfl

theorem changeAt_changesOf (hn : (us.map (·.1)).Nodup) (name : String) (v : Value) :
    changeAt name (changesOf lay us) v = ((us.lookup name).map (lay name v)).getD v := by
  induction us with
  | nil => rfl
  | cons u us ih =>
    obtain ⟨n, w⟩ := u
    obtain ⟨hnm, hn⟩ := List.nodup_cons.mp hn
    rw [changesOf, List.map_cons, ← changesOf, changeAt, lookup_cons_eq]
    by_cases h : n = name
    · subst h
      rw [if_pos rfl, if_pos rfl, changeAt_of_not_mem (by rwa [names_changesOf])]
      rfl
    · rw [if_neg h, if_neg h, ih hn]

theorem changeFields_changesOf (hn : (us.map (·.1)).Nodup) (fields : List (String × Value)) :
    changeFields (changesOf lay us) fields = mergeFields lay fields us := by
  induction fields generalizing us with
  | nil =>
    induction us with
    | nil => rfl
    | cons u us ih =>
      obtain ⟨name, w⟩ := u
      obtain ⟨hnm, hn'⟩ := List.nodup_cons.mp hn
      have hat : changeAt name (changesOf lay ((name, w) :: us)) .nil = lay name .nil w := by
        rw [changeAt_changesOf hn, lookup_cons_eq, if_pos rfl]
        rfl
      rw [changesOf, List.map_cons, ← changesOf] at hat ⊢
      rw [changeFields_cons_nil, hat, filter_ne_cons_self, changesOf_filter, filter_ne_of_not_mem hnm, ih hn']
      rfl
  | cons f fields ih =>
    obtain ⟨name, v⟩ := f
    rw [changeFields_cons, changeAt_changesOf hn, changesOf_filter, mergeFields,
      ih (hn.sublist (List.filter_sublist.map _))]
    cases hu : us.lookup name with
    | some u => rfl
    | none =>
      rw [filter_ne_of_not_mem (lookup_eq_none_iff_not_mem.mp hu)]
      rfl

theorem overlayFields_eq_changeFields (fields us : List (String × Value)) :
    overlayFields fields us = changeFields (changesOf (fun _ => overlay) us) fields := by
  induction us generalizing fields with
  | nil => rfl
  | cons u us ih => exact ih _

end Merging

theorem overlay_eq_of_conforms {s : Shape} (hs : s.Distinct) {u : Value} (hc : s.Conforms u) (dst : Value) :
    overlay dst u = s.overlay dst u := by
  induction s generalizing u dst with
  | bool => obtain ⟨b, rfl⟩ := hc; rfl
  | int kind => obtain ⟨n, rfl, -⟩ := hc; rfl
  | str => obtain ⟨s, rfl⟩ := hc; rfl
  | blob => rcases hc with rfl | ⟨content, rfl⟩ <;> rfl
  | seq elem _ => rcases hc with rfl | ⟨items, rfl, -⟩ <;> rfl
  | map key val _ _ => obtain ⟨-, rfl | ⟨pairs, rfl, -⟩⟩ := hc <;> rfl
  | record known ih =>
    rcases hc with rfl | ⟨us, rfl, hn, hf⟩
    · rfl
    · rw [overlay, Shape.overlay, overlayFields_eq_changeFields, changeFields_changesOf hn]
      refine congrArg Value.record (mergeFields_congr (fun u hu v => ?_) dst.fields)
      obtain ⟨t, ht, hc⟩ := Shape.conformsField_iff.mp (hf u hu)
      have hm := mem_of_lookup ht
      rw [Shape.overlayField_of_lookup ht]
      exact ih _ hm (hs.field hm) hc v
  | optional inner ih =>
    rcases hc with rfl | ⟨w, rfl, hw⟩
    · rfl
    · exact congrArg Value.ref (ih hs.inner hw dst.target)

end Value

/-- What was encoded, whatever follows it, decodes over every destination, and leaves there the canonical
form of the update laid over what was there. -/
theorem decodeValueInto_of_encodeValue {c c' : Config} {s : Shape} (hs : s.Distinct)
    (hl : s.All fun t => t.layers < 2 ^ 63) {u : Value} {b : Bytes} (hb : b.length < 2 ^ 63)
    (hm : c'.maxDepth = c.maxDepth) (h : encodeValue c s u = .ok b) (suffix : Bytes) (dst : Value) :
    decodeValueInto c' s (b ++ suffix) dst = .ok b.length (s.overlay dst (canon s u)) := by
  obtain ⟨⟨hc, hd⟩, rfl, -⟩ := (encodeValue_eq_ok_iff hs).mp h
  have hdec := decodes (.refl hs) hs (.upTo c'.maxDepth) u suffix dst hc (hm ▸ hd)
    (fits_of_length hs hl hc hb)
  rw [decodeValueInto_eq, hdec]
  dsimp only
  rw [Value.overlay_eq_of_conforms hs (conforms_canon hs hc), List.length_append, Nat.add_sub_cancel]

theorem decodeValueInto_of_encodeValue_record :
    let s : Shape := .record [("a", .optional (.record [("x", .bool), ("y", .bool)])), ("q", .seq .bool),
      ("n", .optional .str)]
    let u : Value := .record [("n", .nil), ("q", .seq [.bool true]), ("a", .ref (.record [("y", .bool false)]))]
    let b : Bytes := [1, 19, 1, 1, 97, 1, 4, 1, 1, 121, 0, 1, 1, 113, 1, 1, 1, 1, 1, 110, 64]
    let dst : Value := .record [("q", .seq [.bool false, .bool false]), ("a", .ref (.record [("x", .bool true)])),
      ("a", .bool true)]
    let merged : Value := .record [("q", .seq [.bool true]),
      ("a", .ref (.record [("x", .bool true), ("y", .bool false)])), ("a", .bool true), ("n", .nil)]
    encodeValue {} s u = .ok b ∧ decodeValueInto {} s (b ++ [255]) dst = .ok 21 merged := by
  intro s u b dst merged
  have hs : s.Distinct := by simp [s, Shape.Distinct, Shape.All, Shape.AllFields, Shape.NamesDiffer]
  have hl : s.All fun t => t.layers < 2 ^ 63 := by simp [s, Shape.All, Shape.AllFields, Shape.layers]
  have h : encodeValue {} s u = .ok b := rfl
  have hmerged : s.overlay dst (canon s u) = merged := rfl
  exact ⟨h, hmerged ▸ decodeValueInto_of_encodeValue hs hl (by decide) rfl h [255] dst⟩

end ShapeCodec
