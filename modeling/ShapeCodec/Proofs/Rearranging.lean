import ShapeCodec.Proofs.RoundTrip
import Mathlib.Logic.Relation

/-!
Which values have one encoding: those that come from each other by permuting the pairs of maps and the
fields of records, and by taking a blob without content for one that is absent.
-/

namespace ShapeCodec

namespace Shape

section Parts

def inner? : Option Shape → Option Shape
  | some (.optional inner) => some inner
  | _ => none

def elem? : Option Shape → Option Shape
  | some (.seq elem) => some elem
  | _ => none

def key? : Option Shape → Option Shape
  | some (.map key _) => some key
  | _ => none

def val? : Option Shape → Option Shape
  | some (.map _ val) => some val
  | _ => none

def fieldNamed? (name : String) : Option Shape → Option Shape
  | some (.record known) => known.lookup name
  | _ => none

end Parts

variable {s : Shape}

theorem conforms_ref_iff {w : Value} :
    s.Conforms (.ref w) ↔ ∃ inner, s = .optional inner ∧ inner.Conforms w := by
  cases s <;> simp [Conforms]

theorem conforms_seq_iff {items : List Value} :
    s.Conforms (.seq items) ↔ ∃ elem, s = .seq elem ∧ ∀ w ∈ items, elem.Conforms w := by
  cases s <;> simp [Conforms]

theorem conforms_map_iff {pairs : List (Value × Value)} :
    s.Conforms (.map pairs) ↔ ∃ key val, s = .map key val ∧ key.isOrderable ∧ (pairs.map (·.1)).Nodup ∧
      ∀ p ∈ pairs, key.Conforms p.1 ∧ val.Conforms p.2 := by
  cases s <;> simp [Conforms]

theorem conforms_record_iff {fields : List (String × Value)} :
    s.Conforms (.record fields) ↔ ∃ known, s = .record known ∧ (fields.map (·.1)).Nodup ∧
      ∀ f ∈ fields, ConformsField known f.1 f.2 := by
  cases s <;> simp [Conforms]

end Shape

open Shape

/-- One move from a value to another, at a place that has the shape given: a map or record permuted, or the
two ways exchanged in which a blob is absent. -/
inductive Rearranged : Option Shape → Value → Value → Prop
  | pairs {p : Option Shape} {pairs pairs' : List (Value × Value)} : pairs.Perm pairs' →
      Rearranged p (.map pairs) (.map pairs')
  | fields {p : Option Shape} {fields fields' : List (String × Value)} : fields.Perm fields' →
      Rearranged p (.record fields) (.record fields')
  | explicit : Rearranged (some .blob) .nil (.blob none)
  | implicit : Rearranged (some .blob) (.blob none) .nil
  | ref {p : Option Shape} {v w : Value} : Rearranged (inner? p) v w → Rearranged p (.ref v) (.ref w)
  | item {p : Option Shape} {before after : List Value} {v w : Value} : Rearranged (elem? p) v w →
      Rearranged p (.seq (before ++ v :: after)) (.seq (before ++ w :: after))
  | key {p : Option Shape} {before after : List (Value × Value)} {k k' v : Value} : Rearranged (key? p) k k' →
      Rearranged p (.map (before ++ (k, v) :: after)) (.map (before ++ (k', v) :: after))
  | val {p : Option Shape} {before after : List (Value × Value)} {k v w : Value} : Rearranged (val? p) v w →
      Rearranged p (.map (before ++ (k, v) :: after)) (.map (before ++ (k, w) :: after))
  | field {p : Option Shape} {before after : List (String × Value)} {name : String} {v w : Value} :
      Rearranged (fieldNamed? name p) v w →
      Rearranged p (.record (before ++ (name, v) :: after)) (.record (before ++ (name, w) :: after))

abbrev Alike (s : Shape) : Value → Value → Prop :=
  Relation.ReflTransGen (Rearranged (some s))

theorem forall_mem_replace {α : Type} {P : α → Prop} {before after : List α} {x y : α}
    (h : ∀ z ∈ before ++ x :: after, P z) (hy : P x → P y) : ∀ z ∈ before ++ y :: after, P z := by
  rw [List.forall_mem_append, List.forall_mem_cons] at h ⊢
  exact ⟨h.1, hy h.2.1, h.2.2⟩

namespace Rearranged

variable {p : Option Shape} {v w : Value}

theorem symm (h : Rearranged p v w) : Rearranged p w v := by
  induction h with
  | pairs h => exact .pairs h.symm
  | fields h => exact .fields h.symm
  | explicit => exact .implicit
  | implicit => exact .explicit
  | ref _ ih => exact .ref ih
  | item _ ih => exact .item ih
  | key _ ih => exact .key ih
  | val _ ih => exact .val ih
  | field _ ih => exact .field ih

theorem depth_le (h : Rearranged p v w) : w.depth ≤ v.depth := by
  induction h with
  | pairs h =>
    apply Nat.succ_le_succ
    rw [Value.depthPairs_le_iff]
    exact fun q hq => Value.depthPairs_le_iff.mp (Nat.le_refl _) q (h.mem_iff.mpr hq)
  | fields h =>
    apply Nat.succ_le_succ
    rw [Value.depthFields_le_iff]
    exact fun f hf => Value.depthFields_le_iff.mp (Nat.le_refl _) f (h.mem_iff.mpr hf)
  | explicit => exact Nat.le_refl _
  | implicit => exact Nat.le_refl _
  | ref _ ih => exact Nat.succ_le_succ ih
  | item _ ih =>
    apply Nat.succ_le_succ
    rw [Value.depthItems_le_iff]
    exact forall_mem_replace (Value.depthItems_le_iff.mp (Nat.le_refl _)) (Nat.le_trans ih)
  | key _ ih =>
    apply Nat.succ_le_succ
    rw [Value.depthPairs_le_iff]
    exact forall_mem_replace (Value.depthPairs_le_iff.mp (Nat.le_refl _)) (And.imp_left (Nat.le_trans ih))
  | val _ ih =>
    apply Nat.succ_le_succ
    rw [Value.depthPairs_le_iff]
    exact forall_mem_replace (Value.depthPairs_le_iff.mp (Nat.le_refl _)) (And.imp_right (Nat.le_trans ih))
  | field _ ih =>
    apply Nat.succ_le_succ
    rw [Value.depthFields_le_iff]
    exact forall_mem_replace (Value.depthFields_le_iff.mp (Nat.le_refl _)) (Nat.le_trans ih)

theorem not_of_orderable {key : Shape} (ho : key.isOrderable) (hk : key.Conforms v) : ¬ Rearranged p v w := by
  have h := isKeyOf_of_conforms ho hk
  intro hm
  cases key <;> cases v <;> simp only [Value.isKeyOf, Bool.false_eq_true] at h <;> cases hm

theorem conforms (h : Rearranged p v w) {s : Shape} (hp : p = some s) (hc : s.Conforms v) : s.Conforms w := by
  induction h generalizing s with
  | pairs h =>
    obtain ⟨key, val, rfl, ho, hn, hq⟩ := conforms_map_iff.mp hc
    refine conforms_map_iff.mpr ⟨key, val, rfl, ho, (h.map _).nodup_iff.mp hn, fun q hm => ?_⟩
    exact hq q (h.mem_iff.mpr hm)
  | fields h =>
    obtain ⟨known, rfl, hn, hf⟩ := conforms_record_iff.mp hc
    refine conforms_record_iff.mpr ⟨known, rfl, (h.map _).nodup_iff.mp hn, fun f hm => ?_⟩
    exact hf f (h.mem_iff.mpr hm)
  | explicit =>
    cases hp
    exact .inr ⟨none, rfl⟩
  | implicit =>
    cases hp
    exact .inl rfl
  | ref _ ih =>
    obtain ⟨inner, rfl, hw⟩ := conforms_ref_iff.mp hc
    cases hp
    exact conforms_ref_iff.mpr ⟨inner, rfl, ih rfl hw⟩
  | item _ ih =>
    obtain ⟨elem, rfl, hi⟩ := conforms_seq_iff.mp hc
    cases hp
    exact conforms_seq_iff.mpr ⟨elem, rfl, forall_mem_replace hi (ih rfl)⟩
  | key hk _ =>
    obtain ⟨key, val, rfl, ho, -, hq⟩ := conforms_map_iff.mp hc
    exact absurd hk (not_of_orderable ho (hq _ (List.mem_append_right _ List.mem_cons_self)).1)
  | val _ ih =>
    obtain ⟨key, val, rfl, ho, hn, hq⟩ := conforms_map_iff.mp hc
    cases hp
    refine conforms_map_iff.mpr ⟨key, val, rfl, ho, ?_, forall_mem_replace hq (And.imp_right (ih rfl))⟩
    simpa using hn
  | field _ ih =>
    obtain ⟨known, rfl, hn, hf⟩ := conforms_record_iff.mp hc
    cases hp
    refine conforms_record_iff.mpr ⟨known, rfl, by simpa using hn, forall_mem_replace hf fun hv => ?_⟩
    obtain ⟨t, ht, hv⟩ := conformsField_iff.mp hv
    exact conformsField_iff.mpr ⟨t, ht, ih ht hv⟩

end Rearranged

theorem sortPairs_eq_of_perm {key : Shape} {pairs pairs' : List (Value × Value)} (h : pairs.Perm pairs')
    (hk : ∀ p ∈ pairs, p.1.isKeyOf key) (hn : (pairs.map (·.1)).Nodup) : sortPairs pairs = sortPairs pairs' := by
  have hk' : ∀ p ∈ pairs', p.1.isKeyOf key := fun p hp => hk p (h.mem_iff.mpr hp)
  have hn' : (pairs'.map (·.1)).Nodup := (h.map _).nodup_iff.mp hn
  refine List.Perm.eq_of_pairwise ?_ (pairwise_lt_sortPairs hk hn) (pairwise_lt_sortPairs hk' hn')
    ((sortPairs_perm pairs).trans (h.trans (sortPairs_perm pairs').symm))
  intro p q _ _ hpq hqp
  rw [Value.cmpKey_swap, hpq] at hqp
  cases hqp

theorem canon_map_eq (key val : Shape) (pairs : List (Value × Value)) :
    canon (.map key val) (.map pairs) = .map (sortPairs (pairs.map fun p => (p.1, canon val p.2))) := by
  rw [sortPairs_map]
  rfl

theorem canonFields_congr {fields fields' : List (String × Value)} {known : List (String × Shape)}
    (h : ∀ f ∈ known, (fields.lookup f.1).map (canon f.2) = (fields'.lookup f.1).map (canon f.2)) :
    canonFields fields known = canonFields fields' known := by
  rw [canonFields_eq_filterMap, canonFields_eq_filterMap]
  exact List.filterMap_congr fun f hf => by rw [h f hf]

theorem Rearranged.canon_eq {p : Option Shape} {v w : Value} (h : Rearranged p v w) {s : Shape} (hp : p = some s)
    (hs : s.Distinct) (hc : s.Conforms v) : canon s w = canon s v := by
  induction h generalizing s with
  | pairs h =>
    obtain ⟨key, val, rfl, ho, hn, hq⟩ := conforms_map_iff.mp hc
    have hk := fun q hm => isKeyOf_of_conforms ho (hq q hm).1
    rw [canon, canon, sortPairs_eq_of_perm h hk hn]
  | fields h =>
    obtain ⟨known, rfl, hn, hf⟩ := conforms_record_iff.mp hc
    rw [canon, canon, canonFields_congr fun f _ => by rw [lookup_perm h hn]]
  | explicit =>
    cases hp
    rfl
  | implicit =>
    cases hp
    rfl
  | ref _ ih =>
    obtain ⟨inner, rfl, hw⟩ := conforms_ref_iff.mp hc
    cases hp
    exact congrArg Value.ref (ih rfl hs.inner hw)
  | item _ ih =>
    obtain ⟨elem, rfl, hi⟩ := conforms_seq_iff.mp hc
    cases hp
    have hw := ih rfl hs.elem (hi _ (List.mem_append_right _ List.mem_cons_self))
    simp only [canon, List.map_append, List.map_cons, hw]
  | key hk _ =>
    obtain ⟨key, val, rfl, ho, -, hq⟩ := conforms_map_iff.mp hc
    exact absurd hk (not_of_orderable ho (hq _ (List.mem_append_right _ List.mem_cons_self)).1)
  | val _ ih =>
    obtain ⟨key, val, rfl, ho, hn, hq⟩ := conforms_map_iff.mp hc
    cases hp
    have hw := ih rfl hs.val (hq _ (List.mem_append_right _ List.mem_cons_self)).2
    simp only [canon_map_eq, List.map_append, List.map_cons, hw]
  | @field p before after name v w _ ih =>
    obtain ⟨known, rfl, hn, hf⟩ := conforms_record_iff.mp hc
    cases hp
    obtain ⟨t, ht, hv⟩ := conformsField_iff.mp (hf _ (List.mem_append_right _ List.mem_cons_self))
    have hw := ih ht (hs.field (mem_of_lookup ht)) hv
    rw [canon, canon, canonFields_congr]
    intro f hm
    rw [List.lookup_append, List.lookup_append, lookup_cons_eq, lookup_cons_eq]
    cases before.lookup f.1 with
    | some x => rfl
    | none =>
      by_cases hname : name = f.1
      · subst hname
        rw [lookup_of_mem hs.names hm] at ht
        cases ht
        simp [hw]
      · rw [if_neg hname, if_neg hname]

namespace Alike

variable {s : Shape} {v w : Value}

theorem symm (h : Alike s v w) : Alike s w v := by
  induction h with
  | refl => exact .refl
  | tail _ h ih => exact .head h.symm ih

theorem invariant (hs : s.Distinct) (hc : s.Conforms v) (h : Alike s v w) :
    s.Conforms w ∧ w.depth ≤ v.depth ∧ canon s w = canon s v := by
  induction h with
  | refl => exact ⟨hc, Nat.le_refl _, rfl⟩
  | tail _ h ih =>
    obtain ⟨hw, hd, he⟩ := ih
    exact ⟨h.conforms rfl hw, Nat.le_trans h.depth_le hd, (h.canon_eq rfl hs hw).trans he⟩

theorem encodeValue_eq_ok {c : Config} {b : Bytes} (hs : s.Distinct) (h : Alike s v w)
    (hb : encodeValue c s v = .ok b) : encodeValue c s w = .ok b := by
  obtain ⟨⟨hc, hd⟩, rfl, hl⟩ := (encodeValue_eq_ok_iff hs).mp hb
  obtain ⟨hw, hdw, he⟩ := invariant hs hc h
  have hbytes : encoding s v = encoding s w := by
    rw [← encoding_canon hs hc, ← he, encoding_canon hs hw]
  exact (encodeValue_eq_ok_iff hs).mpr ⟨⟨hw, Nat.le_trans hdw hd⟩, hbytes, hl⟩

end Alike

open Relation

theorem moves_of_parts {ι α β : Type} (r : α → α → Prop) {R : β → β → Prop} (wrap : List α → β)
    (hwrap : ∀ before after x y, r x y → R (wrap (before ++ x :: after)) (wrap (before ++ y :: after)))
    {xs : List ι} {f g : ι → α} (h : ∀ x ∈ xs, ReflTransGen r (f x) (g x)) :
    ReflTransGen R (wrap (xs.map f)) (wrap (xs.map g)) := by
  have hall (before : List α) : ReflTransGen R (wrap (before ++ xs.map f)) (wrap (before ++ xs.map g)) := by
    induction xs generalizing before with
    | nil => exact .refl
    | cons x xs ih =>
      obtain ⟨hx, hxs⟩ := List.forall_mem_cons.mp h
      have hfirst : ReflTransGen R (wrap (before ++ f x :: xs.map f)) (wrap (before ++ g x :: xs.map f)) :=
        hx.lift (fun y => wrap (before ++ y :: xs.map f)) fun y z => hwrap _ _ y z
      have hrest := ih hxs (before ++ [g x])
      rw [List.append_assoc, List.append_assoc] at hrest
      exact hfirst.trans hrest
  exact hall []

theorem alike_canon {s : Shape} (hs : s.Distinct) {v : Value} (hc : s.Conforms v) : Alike s v (canon s v) := by
  induction s generalizing v with
  | bool => exact .refl
  | int kind => exact .refl
  | str => exact .refl
  | blob =>
    rcases hc with rfl | ⟨content, rfl⟩
    · exact .single .explicit
    · exact .refl
  | seq elem ih =>
    rcases hc with rfl | ⟨items, rfl, hi⟩
    · exact .refl
    · have hmoves : Alike (.seq elem) (.seq (items.map id)) (.seq (items.map (canon elem))) :=
        moves_of_parts (Rearranged (some elem)) Value.seq (fun _ _ _ _ h => .item h)
          fun w hw => ih hs.elem (hi w hw)
      rwa [List.map_id] at hmoves
  | map key val _ ih =>
    obtain ⟨ho, rfl | ⟨pairs, rfl, hn, hp⟩⟩ := hc
    · exact .refl
    · have hpairs : Alike (.map key val) (.map pairs) (.map (sortPairs pairs)) :=
        .single (.pairs (sortPairs_perm pairs).symm)
      have hmoves : Alike (.map key val) (.map ((sortPairs pairs).map id))
          (.map ((sortPairs pairs).map fun p => (p.1, canon val p.2))) := by
        refine moves_of_parts (fun a b => a.1 = b.1 ∧ Rearranged (some val) a.2 b.2) Value.map ?_ ?_
        · rintro before after ⟨k, v⟩ ⟨_, w⟩ ⟨rfl, h⟩
          exact .val h
        · intro p hm
          exact (ih hs.val (hp p (mem_sortPairs.mp hm)).2).lift (Prod.mk p.1) fun _ _ h => ⟨rfl, h⟩
      rw [List.map_id] at hmoves
      exact hpairs.trans hmoves
  | record known ih =>
    rcases hc with rfl | ⟨fields, rfl, hn, hf⟩
    · exact .refl
    · have hk : ∀ f ∈ fields, f.1 ∈ known.map (·.1) := by
        intro f hm
        obtain ⟨t, hl, -⟩ := Shape.conformsField_iff.mp (hf f hm)
        exact List.mem_map.mpr ⟨_, mem_of_lookup hl, rfl⟩
      have hfields : Alike (.record known) (.record fields)
          (.record ((mentioned fields known).map fun m => (m.1, m.2.2))) :=
        .single (.fields (mentioned_perm hs.names hn hk).symm)
      have hmoves : Alike (.record known) (.record ((mentioned fields known).map fun m => (m.1, m.2.2)))
          (.record ((mentioned fields known).map fun m => (m.1, canon m.2.1 m.2.2))) := by
        refine moves_of_parts (fun a b => a.1 = b.1 ∧ Rearranged (known.lookup a.1) a.2 b.2) Value.record ?_ ?_
        · rintro before after ⟨name, v⟩ ⟨_, w⟩ ⟨rfl, h⟩
          exact .field h
        · rintro ⟨name, t, v⟩ hm
          obtain ⟨hms, hl⟩ := mem_mentioned_iff.mp hm
          have ht := lookup_of_mem hs.names hms
          obtain ⟨u, hu, hv⟩ := Shape.conformsField_iff.mp (hf _ (mem_of_lookup hl))
          rw [ht] at hu
          cases hu
          refine (ih _ hms (hs.field hms) hv).lift (Prod.mk name) fun a b h => ⟨rfl, ?_⟩
          rw [ht]
          exact h
      rw [← canonFields_eq] at hmoves
      exact hfields.trans hmoves
  | optional inner ih =>
    rcases hc with rfl | ⟨w, rfl, hw⟩
    · exact .refl
    · exact (ih hs.inner hw).lift Value.ref fun _ _ h => .ref h

/-- Values that are alike encode alike, and values with one encoding are alike. The lengths and counts are
those of anything that memory can hold. -/
theorem encodeValue_eq_iff_alike (c : Config) {s : Shape} (hs : s.Distinct) (v w : Value) :
    (Alike s v w → ∀ b, encodeValue c s v = .ok b ↔ encodeValue c s w = .ok b) ∧
      ((s.All fun t => t.layers < 2 ^ 63) → ∀ b, b.length < 2 ^ 63 → encodeValue c s v = .ok b →
        encodeValue c s w = .ok b → Alike s v w) := by
  constructor
  · exact fun h b => ⟨h.encodeValue_eq_ok hs, h.symm.encodeValue_eq_ok hs⟩
  · intro hl b hb hv hw
    obtain ⟨⟨hcv, hdv⟩, hbv, -⟩ := (encodeValue_eq_ok_iff hs).mp hv
    obtain ⟨⟨hcw, hdw⟩, hbw, -⟩ := (encodeValue_eq_ok_iff hs).mp hw
    have hdecv := decodeValue_encoding hs hcv hdv (fits_of_length hs hl hcv (hbv ▸ hb)) []
    have hdecw := decodeValue_encoding hs hcw hdw (fits_of_length hs hl hcw (hbw ▸ hb)) []
    rw [← hbv] at hdecv
    rw [← hbw, hdecv] at hdecw
    have hcanon : canon s v = canon s w := congrArg Prod.fst (Except.ok.inj hdecw)
    have hvc := alike_canon hs hcv
    rw [hcanon] at hvc
    exact hvc.trans (alike_canon hs hcw).symm

theorem encodeValue_eq_iff_alike_record :
    let s : Shape := .record [("a", .map .bool .blob), ("b", .str)]
    let v : Value := .record [("b", .str "x"), ("a", .map [(.bool true, .nil), (.bool false, .blob (some [7]))])]
    let w : Value :=
      .record [("a", .map [(.bool false, .blob (some [7])), (.bool true, .blob none)]), ("b", .str "x")]
    let b : Bytes := [1, 17, 1, 1, 97, 1, 6, 0, 1, 1, 7, 1, 128, 1, 1, 98, 1, 1, 120]
    encodeValue {} s v = .ok b ∧ encodeValue {} s w = .ok b ∧ Alike s v w := by
  intro s v w b
  have hs : s.Distinct := by simp [s, Shape.Distinct, Shape.All, Shape.AllFields, Shape.NamesDiffer]
  have hl : s.All fun t => t.layers < 2 ^ 63 := by simp [s, Shape.All, Shape.AllFields, Shape.layers]
  have hc : s.Conforms v := by
    refine .inr ⟨_, rfl, by decide, ?_⟩
    rw [List.forall_mem_cons, List.forall_mem_singleton]
    refine ⟨Shape.conformsField_iff.mpr ⟨_, rfl, _, rfl⟩,
      Shape.conformsField_iff.mpr ⟨_, rfl, rfl, .inr ⟨_, rfl, by decide, ?_⟩⟩⟩
    rw [List.forall_mem_cons, List.forall_mem_singleton]
    exact ⟨⟨⟨_, rfl⟩, .inl rfl⟩, ⟨_, rfl⟩, .inr ⟨_, rfl⟩⟩
  have he : b = encoding s v := by
    simp [s, v, encoding, encodingFields, lookup_cons_eq, sortPairs, List.mergeSort, List.merge, Value.cmpKey]
    rfl
  have hv : encodeValue {} s v = .ok b := (encodeValue_eq_ok_iff hs).mpr ⟨⟨hc, by decide⟩, he, by decide⟩
  obtain ⟨hsame, halike⟩ := encodeValue_eq_iff_alike {} hs v w
  have hmoves : Alike s v w := by
    refine .head (.fields (List.Perm.swap _ _ [])) ?_
    refine .head (@Rearranged.field _ [] _ _ _ _ (.pairs (List.Perm.swap _ _ []))) ?_
    exact .single (@Rearranged.field _ [] _ _ _ _ (@Rearranged.val _ [_] _ _ _ _ .explicit))
  have hw := (hsame hmoves b).mp hv
  exact ⟨hv, hw, halike hl b (by decide) hv hw⟩

end ShapeCodec
