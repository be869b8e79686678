import ShapeCodec.Proofs.Canonical

namespace ShapeCodec

def Shape.IsReplaced : Shape → Prop
  | .record _ | .optional _ => False
  | _ => True

namespace Value

def target : Value → Value
  | .ref v => v
  | _ => .nil

mutual

def overlay (dst : Value) : Value → Value
  | .ref u => .ref (overlay dst.target u)
  | .record us => .record (overlayFields dst.fields us)
  | .nil => .nil
  | .bool b => .bool b
  | .int n => .int n
  | .str s => .str s
  | .blob content => .blob content
  | .seq items => .seq items
  | .map pairs => .map pairs

def overlayFields (fields : List (String × Value)) : List (String × Value) → List (String × Value)
  | [] => fields
  | (name, u) :: us =>
    overlayFields (putField name (overlay ((fields.lookup name).getD .nil) u) fields) us

end

theorem overlayFields_eq_foldl (fields us : List (String × Value)) :
    overlayFields fields us =
      us.foldl (fun fs u => putField u.1 (overlay ((fs.lookup u.1).getD .nil) u.2) fs) fields := by
  induction us generalizing fields with
  | nil => rfl
  | cons u us ih => rw [overlayFields, ih, List.foldl_cons]

theorem overlayFields_of_not_mem {fields us : List (String × Value)} (hn : (us.map (·.1)).Nodup)
    (hf : ∀ u ∈ us, u.1 ∉ fields.map (·.1)) (hu : ∀ u ∈ us, overlay .nil u.2 = u.2) :
    overlayFields fields us = fields ++ us := by
  induction us generalizing fields with
  | nil => rw [overlayFields, List.append_nil]
  | cons u us ih =>
    obtain ⟨name, v⟩ := u
    obtain ⟨hnm, hn⟩ := List.nodup_cons.mp hn
    have hm := hf (name, v) List.mem_cons_self
    rw [overlayFields, lookup_eq_none_iff_not_mem.mpr hm, Option.getD_none,
      hu (name, v) List.mem_cons_self, putField_eq_put, put_of_not_mem hm, ih hn, List.append_assoc,
      List.singleton_append]
    · intro w hw h
      rw [List.map_append, List.mem_append] at h
      rcases h with h | h
      · exact hf w (List.mem_cons_of_mem _ hw) h
      · rw [List.map_singleton, List.mem_singleton] at h
        exact hnm (List.mem_map.mpr ⟨w, hw, h⟩)
    · exact fun w hw => hu w (List.mem_cons_of_mem _ hw)

section Fields

variable {fields us : List (String × Value)}

theorem lookup_overlayFields (hn : (us.map (·.1)).Nodup) (fields : List (String × Value)) (name : String) :
    (overlayFields fields us).lookup name =
      ((us.lookup name).map (overlay ((fields.lookup name).getD .nil))).or (fields.lookup name) := by
  induction us generalizing fields with
  | nil => rfl
  | cons u us ih =>
    obtain ⟨n, w⟩ := u
    obtain ⟨hnm, hn⟩ := List.nodup_cons.mp hn
    rw [overlayFields, ih hn, putField_eq_put, lookup_put, lookup_cons_eq]
    by_cases h : n = name
    · subst h
      rw [if_pos rfl, if_pos rfl, lookup_eq_none_iff_not_mem.mpr hnm]
      rfl
    · rw [if_neg h, if_neg h]

theorem nodup_overlayFields (hn : (fields.map (·.1)).Nodup) (us : List (String × Value)) :
    ((overlayFields fields us).map (·.1)).Nodup := by
  induction us generalizing fields with
  | nil => exact hn
  | cons u us ih =>
    rw [overlayFields, putField_eq_put]
    exact ih (nodup_keys_put hn)

theorem name_mem_of_overlayFields {f : String × Value} (h : f ∈ overlayFields fields us) :
    f.1 ∈ fields.map (·.1) ∨ f.1 ∈ us.map (·.1) := by
  induction us generalizing fields with
  | nil => exact .inl (List.mem_map_of_mem h)
  | cons u us ih =>
    rw [overlayFields, putField_eq_put] at h
    rcases ih h with hm | hm
    · obtain ⟨g, hg, he⟩ := List.mem_map.mp hm
      rcases mem_put hg with rfl | hg
      · exact .inr (he ▸ List.mem_cons_self)
      · exact .inl (he ▸ List.mem_map_of_mem hg)
    · exact .inr (List.mem_cons_of_mem _ hm)

end Fields

theorem overlay_nil_of_conforms {s : Shape} {v : Value} (hc : s.Conforms v) : overlay .nil v = v := by
  induction s generalizing v with
  | bool => obtain ⟨b, rfl⟩ := hc; rfl
  | int kind => obtain ⟨n, rfl, -⟩ := hc; rfl
  | str => obtain ⟨s, rfl⟩ := hc; rfl
  | blob => rcases hc with rfl | ⟨content, rfl⟩ <;> rfl
  | seq elem ih => rcases hc with rfl | ⟨items, rfl, -⟩ <;> rfl
  | map key val ihk ihv => obtain ⟨-, rfl | ⟨pairs, rfl, -⟩⟩ := hc <;> rfl
  | record known ih =>
    rcases hc with rfl | ⟨us, rfl, hn, hf⟩
    · rfl
    · rw [overlay, show Value.nil.fields = [] from rfl,
        overlayFields_of_not_mem hn (fun u _ => List.not_mem_nil), List.nil_append]
      intro u hu
      obtain ⟨t, ht, hc⟩ := Shape.conformsField_iff.mp (hf u hu)
      exact ih _ (mem_of_lookup ht) hc
  | optional inner ih =>
    rcases hc with rfl | ⟨w, rfl, hw⟩
    · rfl
    · rw [overlay, show Value.nil.target = .nil from rfl, ih hw]

theorem overlay_canon_of_replaced {s : Shape} (hs : s.IsReplaced) {v : Value} (hc : s.Conforms v) (w : Value) :
    overlay w (canon s v) = canon s v := by
  cases s with
  | bool => obtain ⟨b, rfl⟩ := hc; rfl
  | int kind => obtain ⟨n, rfl, -⟩ := hc; rfl
  | str => obtain ⟨s, rfl⟩ := hc; rfl
  | blob => rcases hc with rfl | ⟨content, rfl⟩ <;> rfl
  | seq elem => rcases hc with rfl | ⟨items, rfl, -⟩ <;> rfl
  | map key val => obtain ⟨-, rfl | ⟨pairs, rfl, -⟩⟩ := hc <;> rfl
  | record known => cases hs
  | optional inner => cases hs

end Value

end ShapeCodec
