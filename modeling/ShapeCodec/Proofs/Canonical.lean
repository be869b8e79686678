import ShapeCodec.Proofs.Conformance
import Mathlib.Data.List.Forall2
import Mathlib.Data.List.Nodup

/-!
The canonical form of a value, which has the pairs of a map in the order of their keys and the fields
of a record in the order of the shape. It has the encoding of the value itself.
-/

namespace ShapeCodec

open Wire

def mentioned (fields : List (String × Value)) (known : List (String × Shape)) :
    List (String × Shape × Value) :=
  known.filterMap fun f => (fields.lookup f.1).map fun v => (f.1, f.2, v)

section Mentioned

variable {fields : List (String × Value)} {known : List (String × Shape)}

theorem mem_mentioned_iff {name : String} {s : Shape} {v : Value} :
    (name, s, v) ∈ mentioned fields known ↔ (name, s) ∈ known ∧ fields.lookup name = some v := by
  simp only [mentioned, List.mem_filterMap, Option.map_eq_some_iff, Prod.mk.injEq, Prod.exists]
  constructor
  · rintro ⟨n, t, hm, w, hl, rfl, rfl, rfl⟩
    exact ⟨hm, hl⟩
  · rintro ⟨hm, hl⟩
    exact ⟨name, s, hm, v, hl, rfl, rfl, rfl⟩

theorem mentioned_cons_of_none {name : String} {s : Shape} (h : fields.lookup name = none) :
    mentioned fields ((name, s) :: known) = mentioned fields known := by
  simp [mentioned, h]

theorem mentioned_cons_of_some {name : String} {s : Shape} {v : Value} (h : fields.lookup name = some v) :
    mentioned fields ((name, s) :: known) = (name, s, v) :: mentioned fields known := by
  simp [mentioned, h]

theorem names_mentioned_sublist :
    ((mentioned fields known).map (·.1)).Sublist (known.map (·.1)) := by
  have hsub := filterMap_sublist_map (fun f : String × Shape => fields.lookup f.1) Prod.fst known
  rw [mentioned, List.map_filterMap]
  simp only [Option.map_map]
  exact hsub

theorem nodup_names_mentioned (hk : (known.map (·.1)).Nodup) :
    ((mentioned fields known).map (·.1)).Nodup :=
  names_mentioned_sublist.nodup hk

theorem mentioned_perm (hk : (known.map (·.1)).Nodup) (hf : (fields.map (·.1)).Nodup)
    (hm : ∀ f ∈ fields, f.1 ∈ known.map (·.1)) :
    ((mentioned fields known).map fun m => (m.1, m.2.2)).Perm fields := by
  rw [List.perm_ext_iff_of_nodup ?_ (List.Nodup.of_map _ hf)]
  · rintro ⟨name, v⟩
    constructor
    · intro h
      obtain ⟨⟨n, s, w⟩, hw, he⟩ := List.mem_map.mp h
      cases he
      exact mem_of_lookup (mem_mentioned_iff.mp hw).2
    · intro h
      obtain ⟨s, hs⟩ := exists_lookup_of_mem (hm _ h)
      exact List.mem_map.mpr ⟨(name, s, v), mem_mentioned_iff.mpr
        ⟨mem_of_lookup hs, lookup_of_mem hf h⟩, rfl⟩
  · apply List.Nodup.of_map (·.1)
    rw [List.map_map]
    exact nodup_names_mentioned hk

theorem mentioned_of_sublist (hk : (known.map (·.1)).Nodup)
    (h : (fields.map (·.1)).Sublist (known.map (·.1))) :
    (mentioned fields known).map (fun m => (m.1, m.2.2)) = fields := by
  induction known generalizing fields with
  | nil =>
    obtain rfl : fields = [] := by simpa using h
    rfl
  | cons f known ih =>
    obtain ⟨name, s⟩ := f
    obtain ⟨hname, htail⟩ := List.nodup_cons.mp hk
    rw [List.map_cons, List.sublist_cons_iff] at h
    rcases h with h | ⟨names, hn, h⟩
    · rw [mentioned_cons_of_none (lookup_eq_none_iff_not_mem.mpr fun hm => hname (h.subset hm)), ih htail h]
    · obtain ⟨⟨n, v⟩, rest, rfl, rfl, rfl⟩ := List.map_eq_cons_iff.mp hn
      have hrest : mentioned ((n, v) :: rest) known = mentioned rest known := by
        apply List.filterMap_congr
        intro g hg
        rw [lookup_cons_eq, if_neg]
        rintro rfl
        exact hname (List.mem_map.mpr ⟨g, hg, rfl⟩)
      have hl : ((n, v) :: rest).lookup n = some v := by rw [lookup_cons_eq, if_pos rfl]
      rw [mentioned_cons_of_some hl, List.map_cons, hrest, ih htail h]

theorem encodingFields_eq (fields : List (String × Value)) (known : List (String × Shape)) :
    encodingFields fields known =
      (mentioned fields known).flatMap fun m => writeStr m.1 ++ encoding m.2.1 m.2.2 := by
  induction known with
  | nil => rfl
  | cons f known ih =>
    obtain ⟨name, s⟩ := f
    rw [encodingFields]
    cases hl : fields.lookup name with
    | none => rw [mentioned_cons_of_none hl, ih]
    | some v => rw [mentioned_cons_of_some hl, List.flatMap_cons, ih]

end Mentioned

mutual

/-- The value with the pairs of maps in the order of their keys, the fields of records in the order of
the shape, and blobs that are absent as blobs without content. -/
def canon : Shape → Value → Value
  | .bool, v | .int _, v | .str, v => v
  | .blob, v =>
    match v with
    | .nil => .blob none
    | v => v
  | .seq elem, v =>
    match v with
    | .seq items => .seq (items.map (canon elem))
    | v => v
  | .map _ val, v =>
    match v with
    | .map pairs => .map ((sortPairs pairs).map fun p => (p.1, canon val p.2))
    | v => v
  | .record known, v =>
    match v with
    | .record fields => .record (canonFields fields known)
    | v => v
  | .optional inner, v =>
    match v with
    | .ref w => .ref (canon inner w)
    | v => v

def canonFields (fields : List (String × Value)) : List (String × Shape) → List (String × Value)
  | [] => []
  | (name, s) :: known =>
    match fields.lookup name with
    | none => canonFields fields known
    | some v => (name, canon s v) :: canonFields fields known

end

theorem canon_of_orderable {key : Shape} (ho : key.isOrderable) (v : Value) : canon key v = v := by
  cases key <;> first | rfl | cases ho

theorem canonFields_eq {fields : List (String × Value)} {known : List (String × Shape)} :
    canonFields fields known = (mentioned fields known).map fun m => (m.1, canon m.2.1 m.2.2) := by
  induction known with
  | nil => rfl
  | cons f known ih =>
    obtain ⟨name, s⟩ := f
    rw [canonFields]
    cases hl : fields.lookup name with
    | none => rw [mentioned_cons_of_none hl, ih]
    | some v => rw [mentioned_cons_of_some hl, List.map_cons, ih]

theorem canonFields_eq_filterMap (fields : List (String × Value)) (known : List (String × Shape)) :
    canonFields fields known =
      known.filterMap fun f => ((fields.lookup f.1).map (canon f.2)).map (Prod.mk f.1) := by
  rw [canonFields_eq, mentioned, List.map_filterMap]
  simp only [Option.map_map]
  rfl

theorem mem_canonFields {fields : List (String × Value)} {known : List (String × Shape)} {f : String × Value}
    (h : f ∈ canonFields fields known) :
    ∃ s v, (f.1, s) ∈ known ∧ fields.lookup f.1 = some v ∧ f.2 = canon s v := by
  rw [canonFields_eq] at h
  obtain ⟨⟨name, s, v⟩, hm, rfl⟩ := List.mem_map.mp h
  obtain ⟨hk, hl⟩ := mem_mentioned_iff.mp hm
  exact ⟨s, v, hk, hl, rfl⟩

theorem name_mem_of_canonFields {fields : List (String × Value)} {known : List (String × Shape)} {f : String × Value}
    (h : f ∈ canonFields fields known) : f.1 ∈ known.map (·.1) := by
  obtain ⟨s, v, hk, -⟩ := mem_canonFields h
  exact List.mem_map_of_mem hk

theorem nodup_names_canonFields {fields : List (String × Value)} {known : List (String × Shape)}
    (hk : (known.map (·.1)).Nodup) : ((canonFields fields known).map (·.1)).Nodup := by
  rw [canonFields_eq, List.map_map]
  exact nodup_names_mentioned hk

theorem lookup_canonFields {fields : List (String × Value)} {known : List (String × Shape)}
    (hk : (known.map (·.1)).Nodup) {f : String × Shape} (hf : f ∈ known) :
    (canonFields fields known).lookup f.1 = (fields.lookup f.1).map (canon f.2) := by
  cases hl : fields.lookup f.1 with
  | none =>
    rw [Option.map_none, lookup_eq_none_iff_not_mem]
    intro h
    obtain ⟨g, hg, he⟩ := List.mem_map.mp h
    obtain ⟨s, v, -, hv, -⟩ := mem_canonFields hg
    rw [he, hl] at hv
    cases hv
  | some v =>
    rw [Option.map_some]
    apply lookup_of_mem (nodup_names_canonFields hk)
    rw [canonFields_eq]
    exact List.mem_map.mpr ⟨(f.1, f.2, v), mem_mentioned_iff.mpr ⟨hf, hl⟩, rfl⟩

theorem conforms_canon {s : Shape} (hs : s.Distinct) {v : Value} (hc : s.Conforms v) :
    s.Conforms (canon s v) := by
  induction s generalizing v with
  | bool => exact hc
  | int kind => exact hc
  | str => exact hc
  | blob =>
    rcases hc with rfl | ⟨content, rfl⟩
    · exact .inr ⟨none, rfl⟩
    · exact .inr ⟨content, rfl⟩
  | seq elem ih =>
    rcases hc with rfl | ⟨items, rfl, hi⟩
    · exact .inl rfl
    · refine .inr ⟨_, rfl, List.forall_mem_map.mpr ?_⟩
      exact fun w hw => ih hs.elem (hi w hw)
  | map key val _ ih =>
    obtain ⟨ho, rfl | ⟨pairs, rfl, hn, hp⟩⟩ := hc
    · exact ⟨ho, .inl rfl⟩
    · refine ⟨ho, .inr ⟨_, rfl, ?_, List.forall_mem_map.mpr ?_⟩⟩
      · rw [List.map_map]
        exact ((sortPairs_perm pairs).map (·.1)).nodup_iff.mpr hn
      · intro p hm
        obtain ⟨hk, hv⟩ := hp p (mem_sortPairs.mp hm)
        exact ⟨hk, ih hs.val hv⟩
  | record known ih =>
    rcases hc with rfl | ⟨fields, rfl, hn, hf⟩
    · exact .inl rfl
    · refine .inr ⟨_, rfl, nodup_names_canonFields hs.names, ?_⟩
      intro f hm
      obtain ⟨s, v, hk, hl, he⟩ := mem_canonFields hm
      obtain ⟨t, ht, hc⟩ := Shape.conformsField_iff.mp (hf _ (mem_of_lookup hl))
      obtain rfl : s = t := Option.some.inj ((lookup_of_mem hs.names hk).symm.trans ht)
      rw [Shape.conformsField_iff, he]
      exact ⟨s, ht, ih _ hk (hs.field hk) hc⟩
  | optional inner ih =>
    rcases hc with rfl | ⟨w, rfl, hw⟩
    · exact .inl rfl
    · exact .inr ⟨_, rfl, ih hs.inner hw⟩

theorem depth_canon_le (s : Shape) (v : Value) : (canon s v).depth ≤ v.depth := by
  induction s generalizing v with
  | bool => exact Nat.le_refl _
  | int kind => exact Nat.le_refl _
  | str => exact Nat.le_refl _
  | blob => cases v <;> exact Nat.le_refl _
  | seq elem ih =>
    cases v with
    | seq items =>
      simp only [canon, Value.depth]
      apply Nat.succ_le_succ
      rw [Value.depthItems_le_iff, List.forall_mem_map]
      exact fun w hw => Nat.le_trans (ih w) (Value.depthItems_le_iff.mp (Nat.le_refl _) w hw)
    | _ => exact Nat.le_refl _
  | map key val _ ih =>
    cases v with
    | map pairs =>
      simp only [canon, Value.depth]
      apply Nat.succ_le_succ
      rw [Value.depthPairs_le_iff, List.forall_mem_map]
      intro p hp
      obtain ⟨hk, hv⟩ := Value.depthPairs_le_iff.mp (Nat.le_refl _) p (mem_sortPairs.mp hp)
      exact ⟨hk, Nat.le_trans (ih p.2) hv⟩
    | _ => exact Nat.le_refl _
  | record known ih =>
    cases v with
    | record fields =>
      simp only [canon, Value.depth]
      apply Nat.succ_le_succ
      rw [Value.depthFields_le_iff]
      intro f hf
      obtain ⟨s, v, hk, hl, he⟩ := mem_canonFields hf
      rw [he]
      exact Nat.le_trans (ih _ hk v) (Value.depthFields_le_iff.mp (Nat.le_refl _) _ (mem_of_lookup hl))
    | _ => exact Nat.le_refl _
  | optional inner ih =>
    cases v with
    | ref w => exact Nat.succ_le_succ (ih w)
    | _ => exact Nat.le_refl _

theorem encodingFields_canonFields {fields : List (String × Value)} {known : List (String × Shape)}
    (hk : (known.map (·.1)).Nodup)
    (h : ∀ f ∈ known, ∀ v, fields.lookup f.1 = some v → encoding f.2 (canon f.2 v) = encoding f.2 v) :
    encodingFields (canonFields fields known) known = encodingFields fields known := by
  have hc : mentioned (canonFields fields known) known =
      (mentioned fields known).map fun m => (m.1, m.2.1, canon m.2.1 m.2.2) := by
    rw [mentioned, mentioned, List.map_filterMap]
    apply List.filterMap_congr
    intro f hf
    rw [lookup_canonFields hk hf, Option.map_map, Option.map_map]
    rfl
  rw [encodingFields_eq, encodingFields_eq, hc, List.flatMap_map]
  apply List.flatMap_congr
  rintro ⟨name, s, v⟩ hm
  obtain ⟨hf, hl⟩ := mem_mentioned_iff.mp hm
  rw [h _ hf v hl]

theorem encoding_canon {s : Shape} (hs : s.Distinct) {v : Value} (hc : s.Conforms v) :
    encoding s (canon s v) = encoding s v := by
  induction s generalizing v with
  | bool => rfl
  | int kind => rfl
  | str => rfl
  | blob => rcases hc with rfl | ⟨content, rfl⟩ <;> rfl
  | seq elem ih =>
    rcases hc with rfl | ⟨items, rfl, hi⟩
    · rfl
    · simp only [canon, encoding, List.flatMap_map]
      rw [List.flatMap_congr fun w hw => ih hs.elem (hi w hw)]
  | map key val _ ih =>
    obtain ⟨ho, rfl | ⟨pairs, rfl, hn, hp⟩⟩ := hc
    · rfl
    · have hk : ∀ p ∈ pairs, p.1.isKeyOf key := fun p hm => Shape.isKeyOf_of_conforms ho (hp p hm).1
      simp only [canon, encoding]
      rw [sortPairs_map, sortPairs_of_pairwise (pairwise_sortPairs hk), List.flatMap_map]
      rw [List.flatMap_congr fun p hm => ?_]
      rw [ih hs.val (hp p (mem_sortPairs.mp hm)).2]
  | record known ih =>
    rcases hc with rfl | ⟨fields, rfl, hn, hf⟩
    · rfl
    · simp only [canon, encoding]
      rw [encodingFields_canonFields hs.names]
      intro f hm v hl
      obtain ⟨t, ht, hc⟩ := Shape.conformsField_iff.mp (hf _ (mem_of_lookup hl))
      rw [lookup_of_mem hs.names hm] at ht
      cases ht
      exact ih f hm (hs.field hm) hc
  | optional inner ih =>
    rcases hc with rfl | ⟨w, rfl, hw⟩
    · rfl
    · exact ih hs.inner hw

/-- Two values that differ in no more than the order of the pairs of maps and of the fields of records,
at any depth. -/
inductive Value.Reordered : Value → Value → Prop
  | same (v : Value) : Reordered v v
  | ref {v w : Value} : Reordered v w → Reordered (.ref v) (.ref w)
  | seq {items items' : List Value} : List.Forall₂ Reordered items items' →
      Reordered (.seq items) (.seq items')
  | map {pairs mid pairs' : List (Value × Value)} : mid.Perm pairs →
      mid.map (·.1) = pairs'.map (·.1) → List.Forall₂ Reordered (mid.map (·.2)) (pairs'.map (·.2)) →
      Reordered (.map pairs) (.map pairs')
  | record {fields mid fields' : List (String × Value)} : mid.Perm fields →
      mid.map (·.1) = fields'.map (·.1) → List.Forall₂ Reordered (mid.map (·.2)) (fields'.map (·.2)) →
      Reordered (.record fields) (.record fields')

/-- No blob in the value is absent in the way of a composite. -/
def ExplicitBlobs (s : Shape) (v : Value) : Prop :=
  s.Everywhere (fun t w => t = .blob → w ≠ .nil) v

theorem reordered_canon {s : Shape} (hs : s.Distinct) {v : Value} (hc : s.Conforms v)
    (hb : ExplicitBlobs s v) : Value.Reordered v (canon s v) := by
  induction s generalizing v with
  | bool => exact .same v
  | int kind => exact .same v
  | str => exact .same v
  | blob =>
    rcases hc with rfl | ⟨content, rfl⟩
    · exact absurd rfl (hb rfl)
    · exact .same _
  | seq elem ih =>
    rcases hc with rfl | ⟨items, rfl, hi⟩
    · exact .same _
    · refine .seq (List.forall₂_map_right_iff.mpr (List.forall₂_same.mpr ?_))
      exact fun w hw => ih hs.elem (hi w hw) (hb.2 w hw)
  | map key val _ ih =>
    obtain ⟨ho, rfl | ⟨pairs, rfl, hn, hp⟩⟩ := hc
    · exact .same _
    · refine .map (sortPairs_perm pairs) (by simp) ?_
      rw [List.map_map, List.forall₂_map_left_iff, List.forall₂_map_right_iff, List.forall₂_same]
      intro p hm
      have hm := mem_sortPairs.mp hm
      exact ih hs.val (hp p hm).2 (hb.2 p hm).2
  | record known ih =>
    rcases hc with rfl | ⟨fields, rfl, hn, hf⟩
    · exact .same _
    · have hk : ∀ f ∈ fields, f.1 ∈ known.map (·.1) := by
        intro f hm
        obtain ⟨t, hl, -⟩ := Shape.conformsField_iff.mp (hf f hm)
        exact List.mem_map.mpr ⟨_, mem_of_lookup hl, rfl⟩
      refine .record (mentioned_perm hs.names hn hk) (by simp [canonFields_eq]) ?_
      rw [canonFields_eq, List.map_map, List.map_map, List.forall₂_map_left_iff,
        List.forall₂_map_right_iff, List.forall₂_same]
      rintro ⟨name, s, v⟩ hm
      obtain ⟨hms, hl⟩ := mem_mentioned_iff.mp hm
      have hmv := mem_of_lookup hl
      have hls := lookup_of_mem hs.names hms
      obtain ⟨t, ht, hc⟩ := Shape.conformsField_iff.mp (hf _ hmv)
      rw [hls] at ht
      cases ht
      exact ih _ hms (hs.field hms) hc (Shape.everywhereField_iff.mp (hb.2 _ hmv) s hls)
  | optional inner ih =>
    rcases hc with rfl | ⟨w, rfl, hw⟩
    · exact .same _
    · exact .ref (ih hs.inner hw hb.2)

def Ascending : Shape → Value → Prop
  | .map _ _, .map pairs => pairs.Pairwise fun p q => p.1.cmpKey q.1 = some .lt
  | .record known, .record fields => (fields.map (·.1)).Sublist (known.map (·.1))
  | _, _ => True

def InOrder (s : Shape) (v : Value) : Prop :=
  s.Everywhere Ascending v

theorem pairwise_lt_sortPairs {key : Shape} {pairs : List (Value × Value)}
    (hk : ∀ p ∈ pairs, p.1.isKeyOf key) (hn : (pairs.map (·.1)).Nodup) :
    (sortPairs pairs).Pairwise fun p q => p.1.cmpKey q.1 = some .lt := by
  have hne : (sortPairs pairs).Pairwise fun p q => p.1 ≠ q.1 := by
    rw [← List.pairwise_map (f := fun p : Value × Value => p.1) (R := fun a b => a ≠ b)]
    exact ((sortPairs_perm pairs).map (·.1)).nodup_iff.mpr hn
  refine ((pairwise_sortPairs hk).and hne).imp_of_mem ?_
  rintro p q hp hq ⟨hle, hpq⟩
  exact Value.cmpKey_lt_of_le_of_ne (hk p (mem_sortPairs.mp hp)) (hk q (mem_sortPairs.mp hq)) hle hpq

theorem inOrder_canon {s : Shape} (hs : s.Distinct) {v : Value} (hc : s.Conforms v) :
    InOrder s (canon s v) := by
  induction s generalizing v with
  | bool => trivial
  | int kind => trivial
  | str => trivial
  | blob => trivial
  | seq elem ih =>
    rcases hc with rfl | ⟨items, rfl, hi⟩
    · exact ⟨trivial, trivial⟩
    · exact ⟨trivial, List.forall_mem_map.mpr fun w hw => ih hs.elem (hi w hw)⟩
  | map key val _ ih =>
    obtain ⟨ho, rfl | ⟨pairs, rfl, hn, hp⟩⟩ := hc
    · exact ⟨trivial, trivial⟩
    · have hk : ∀ p ∈ pairs, p.1.isKeyOf key := fun p hm => Shape.isKeyOf_of_conforms ho (hp p hm).1
      refine ⟨?_, List.forall_mem_map.mpr fun p hm => ⟨?_, ?_⟩⟩
      · exact List.pairwise_map.mpr (pairwise_lt_sortPairs hk hn)
      · cases key <;> trivial
      · exact ih hs.val (hp p (mem_sortPairs.mp hm)).2
  | record known ih =>
    rcases hc with rfl | ⟨fields, rfl, hn, hf⟩
    · exact ⟨trivial, trivial⟩
    · refine ⟨?_, fun f hm => Shape.everywhereField_iff.mpr fun t ht => ?_⟩
      · change ((canonFields fields known).map (·.1)).Sublist _
        rw [canonFields_eq, List.map_map]
        exact names_mentioned_sublist
      · obtain ⟨s, v, hk, hl, he⟩ := mem_canonFields hm
        obtain ⟨u, hu, hc⟩ := Shape.conformsField_iff.mp (hf _ (mem_of_lookup hl))
        rw [ht] at hu
        cases hu
        rw [lookup_of_mem hs.names hk] at ht
        cases ht
        rw [he]
        exact ih _ hk (hs.field hk) hc
  | optional inner ih =>
    rcases hc with rfl | ⟨w, rfl, hw⟩
    · exact ⟨trivial, trivial⟩
    · exact ⟨trivial, ih hs.inner hw⟩

theorem canon_of_inOrder {s : Shape} (hs : s.Distinct) {v : Value} (hc : s.Conforms v)
    (hb : ExplicitBlobs s v) (ho : InOrder s v) : canon s v = v := by
  induction s generalizing v with
  | bool => rfl
  | int kind => rfl
  | str => rfl
  | blob =>
    rcases hc with rfl | ⟨content, rfl⟩
    · exact absurd rfl (hb rfl)
    · rfl
  | seq elem ih =>
    rcases hc with rfl | ⟨items, rfl, hi⟩
    · rfl
    · have hw : ∀ w ∈ items, canon elem w = w := fun w hw =>
        ih hs.elem (hi w hw) (hb.2 w hw) (ho.2 w hw)
      rw [canon, List.map_congr_left hw, List.map_id']
  | map key val _ ih =>
    obtain ⟨hk, rfl | ⟨pairs, rfl, hn, hp⟩⟩ := hc
    · rfl
    · have hsorted : sortPairs pairs = pairs := by
        refine sortPairs_of_pairwise (ho.1.imp fun h => ?_)
        rw [h]
        nofun
      have hpair : ∀ p ∈ pairs, (p.1, canon val p.2) = p := by
        intro p hm
        rw [ih hs.val (hp p hm).2 (hb.2 p hm).2 (ho.2 p hm).2]
      rw [canon, hsorted, List.map_congr_left hpair, List.map_id']
  | record known ih =>
    rcases hc with rfl | ⟨fields, rfl, hn, hf⟩
    · rfl
    · have hfield : ∀ m ∈ mentioned fields known, (m.1, canon m.2.1 m.2.2) = (m.1, m.2.2) := by
        rintro ⟨name, s, v⟩ hm
        obtain ⟨hms, hl⟩ := mem_mentioned_iff.mp hm
        have hmv := mem_of_lookup hl
        have hls := lookup_of_mem hs.names hms
        obtain ⟨t, ht, hc⟩ := Shape.conformsField_iff.mp (hf _ hmv)
        obtain rfl : s = t := Option.some.inj (hls.symm.trans ht)
        rw [ih _ hms (hs.field hms) hc (Shape.everywhereField_iff.mp (hb.2 _ hmv) s hls)
          (Shape.everywhereField_iff.mp (ho.2 _ hmv) s hls)]
      rw [canon, canonFields_eq, List.map_congr_left hfield, mentioned_of_sublist hs.names ho.1]
  | optional inner ih =>
    rcases hc with rfl | ⟨w, rfl, hw⟩
    · rfl
    · rw [canon, ih hs.inner hw hb.2 ho.2]

theorem canon_eq_self_iff {s : Shape} (hs : s.Distinct) {v : Value} (hc : s.Conforms v)
    (hb : ExplicitBlobs s v) : canon s v = v ↔ InOrder s v := by
  constructor
  · intro h
    rw [← h]
    exact inOrder_canon hs hc
  · exact canon_of_inOrder hs hc hb

end ShapeCodec
