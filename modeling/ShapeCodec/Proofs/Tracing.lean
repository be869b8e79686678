import ShapeCodec.Typed.ShapeOf
import ShapeCodec.Proofs.Outcome
import ShapeCodec.Proofs.KeyOrder
import ShapeCodec.Proofs.ShapeParts

/-!
What it says of a type that its shape was found: what each of its parts asked for, and how the shapes of
the parts make up that of the whole.
-/

namespace ShapeCodec

namespace Ty

section Compound

variable {ask : Ty → Except NoShape (Option Shape)} {t : Ty} {s : Shape}

theorem requested_eq_ok_iff {found : Option Shape} : requested found = .ok s ↔ found = some s := by
  cases found <;> simp [requested, noShape]

theorem ask_requested_eq_ok_iff {β : Type} {f : Shape → Except NoShape β} {b : β} :
    (do f (← requested (← ask t))) = .ok b ↔ ∃ s, ask t = .ok (some s) ∧ f s = .ok b := by
  rw [Except.bind_eq_ok]
  constructor
  · rintro ⟨found, hfound, h⟩
    obtain ⟨s, hs, h⟩ := Except.bind_eq_ok.mp h
    rw [requested_eq_ok_iff] at hs
    subst hs
    exact ⟨s, hfound, h⟩
  · rintro ⟨s, hs, h⟩
    exact ⟨some s, hs, h⟩

theorem compound_option {inner : Ty} (h : compound ask (.option inner) = .ok (some s)) :
    ∃ s', s = .optional s' ∧ ask inner = .ok (some s') := by
  obtain ⟨s', hs, h⟩ := ask_requested_eq_ok_iff.mp h
  cases h
  exact ⟨s', rfl, hs⟩

theorem compound_seq {elem : Ty} (h : compound ask (.seq elem) = .ok (some s)) :
    ∃ s', s = .seq s' ∧ ask elem = .ok (some s') := by
  obtain ⟨s', hs, h⟩ := ask_requested_eq_ok_iff.mp h
  cases h
  exact ⟨s', rfl, hs⟩

theorem tupleShape_eq_ok {shapes : List Shape} (h : tupleShape shapes = .ok (some s)) :
    ∃ s', s = .seq s' ∧ shapes ≠ [] ∧ ∀ t ∈ shapes, t = s' := by
  cases shapes with
  | nil => cases h
  | cons s' shapes =>
    rw [tupleShape] at h
    split at h
    · next hall =>
      cases h
      refine ⟨s', rfl, List.cons_ne_nil _ _, List.forall_mem_cons.mpr ⟨rfl, fun t ht => ?_⟩⟩
      simpa using List.all_eq_true.mp hall t ht
    · cases h

theorem shapes_of_elems {elems : List Ty}
    (h : (do tupleShape (← elems.mapM fun t => do requested (← ask t))) = .ok (some s)) :
    ∃ s', s = .seq s' ∧ elems ≠ [] ∧ ∀ t ∈ elems, ask t = .ok (some s') := by
  obtain ⟨shapes, hshapes, h⟩ := Except.bind_eq_ok.mp h
  obtain ⟨both, rfl, rfl, hboth⟩ := Except.mapM_eq_ok hshapes
  obtain ⟨s', rfl, hne, hall⟩ := tupleShape_eq_ok h
  refine ⟨s', rfl, by simpa using hne, List.forall_mem_map.mpr fun b hb => ?_⟩
  obtain ⟨found, hfound, hb'⟩ := Except.bind_eq_ok.mp (hboth b hb)
  rw [requested_eq_ok_iff] at hb'
  rw [hfound, hb', hall b.2 (List.mem_map_of_mem hb)]

theorem compound_tuple {elems : List Ty} (h : compound ask (.tuple elems) = .ok (some s)) :
    ∃ s', s = .seq s' ∧ elems ≠ [] ∧ ∀ t ∈ elems, ask t = .ok (some s') :=
  shapes_of_elems h

theorem compound_tupleStruct {name : String} {elems : List Ty}
    (h : compound ask (.tupleStruct name elems) = .ok (some s)) :
    ∃ s', s = .seq s' ∧ elems ≠ [] ∧ ∀ t ∈ elems, ask t = .ok (some s') :=
  shapes_of_elems h

theorem compound_map {key val : Ty} (h : compound ask (.map key val) = .ok (some s)) :
    ∃ k v, s = .map k v ∧ k.isOrderable ∧ ask key = .ok (some k) ∧ ask val = .ok (some v) := by
  simp only [compound, Except.bind_eq_ok, requested_eq_ok_iff] at h
  obtain ⟨_, hk, _, hv, k, rfl, ⟨⟩, ho, v, rfl, h⟩ := h
  cases h
  exact ⟨k, v, rfl, Shape.checkKey_eq_ok_iff.mp (Except.mapError_eq_ok.mp ho), hk, hv⟩

theorem compound_struct {name : String} {fields : List (String × Ty)}
    (h : compound ask (.struct name fields) = .ok (some s)) :
    ∃ known, s = .record known ∧ fieldShapes ask [] fields = .ok known := by
  obtain ⟨known, hk, h⟩ := Except.bind_eq_ok.mp h
  cases h
  exact ⟨known, rfl, hk⟩

theorem fieldShapes_map_eq_ok {ι : Type} {field : ι → String × Ty} {xs : List ι} {before : List String}
    {known : List (String × Shape)} (h : fieldShapes ask before (xs.map field) = .ok known) :
    ∃ both : List (ι × Shape), xs = both.map Prod.fst ∧ known = both.map (fun b => ((field b.1).1, b.2)) ∧
      (∀ b ∈ both, ask (field b.1).2 = .ok (some b.2)) ∧
      (∀ b ∈ both, (field b.1).1 ∉ before) ∧ (both.map fun b => (field b.1).1).Nodup := by
  induction xs generalizing before known with
  | nil =>
    cases h
    exact ⟨[], rfl, rfl, nofun, nofun, List.nodup_nil⟩
  | cons x xs ih =>
    rw [List.map_cons, fieldShapes] at h
    split at h
    · cases h
    · next hb =>
      obtain ⟨s, hs, h⟩ := ask_requested_eq_ok_iff.mp h
      obtain ⟨rest, hrest, h⟩ := Except.bind_eq_ok.mp h
      cases h
      obtain ⟨both, rfl, rfl, hask, hbefore, hn⟩ := ih hrest
      refine ⟨(x, s) :: both, rfl, rfl, List.forall_mem_cons.mpr ⟨hs, hask⟩, ?_, ?_⟩
      · refine List.forall_mem_cons.mpr ⟨by simpa using hb, fun b hm => ?_⟩
        exact fun hin => hbefore b hm (List.mem_cons_of_mem _ hin)
      · refine List.nodup_cons.mpr ⟨fun hin => ?_, hn⟩
        obtain ⟨b, hm, he⟩ := List.mem_map.mp hin
        exact hbefore b hm (he ▸ List.mem_cons_self)

end Compound

variable {env : Env} {t : Ty} {limit left : Nat} {s : Shape}

theorem ask_eq_ok (h : ask env limit left t = .ok (some s)) :
    (head env t).leaf? = some (.ok (some s)) ∨
      ∃ m, left = m + 1 ∧ compound (ask env limit m) (head env t) = .ok (some s) := by
  cases left with
  | zero =>
    rw [ask] at h
    cases hl : (head env t).leaf? with
    | some r =>
      rw [hl] at h
      exact .inl (congrArg some h)
    | none =>
      rw [hl] at h
      cases h
  | succ m =>
    rw [ask] at h
    cases hl : (head env t).leaf? with
    | some r =>
      rw [hl] at h
      exact .inl (congrArg some h)
    | none =>
      rw [hl] at h
      exact .inr ⟨m, rfl, h⟩

theorem ask_leaf {found : Except NoShape (Option Shape)} (h : (head env t).leaf? = some found) :
    ask env limit left t = found := by
  cases left <;> rw [ask, h]

theorem shape_of_leaf {s' : Shape} (hl : (head env t).leaf? = some (.ok (some s')))
    (h : ask env limit left t = .ok (some s)) : s = s' := by
  rw [ask_leaf hl] at h
  cases h
  rfl

theorem compound_of_ask (hl : (head env t).leaf? = none) (h : ask env limit left t = .ok (some s)) :
    ∃ m, left = m + 1 ∧ compound (ask env limit m) (head env t) = .ok (some s) := by
  rcases ask_eq_ok h with hleaf | hc
  · cases hl.symm.trans hleaf
  · exact hc

theorem ask_newtype (name : String) (t : Ty) : ask env limit left (.newtype name t) = ask env limit left t := by
  cases left <;> rfl

theorem leaf_shape (h : t.leaf? = some (.ok (some s))) :
    s = .bool ∨ (∃ kind, s = .int kind) ∨ s = .str ∨ s = .blob := by
  cases t with
  | blob cap =>
    obtain ⟨-, -, h⟩ := Except.map_eq_ok.mp (Option.some.inj h)
    cases h
    simp
  | tuple elems => cases elems <;> cases h
  | tupleStruct name elems => cases elems <;> cases h
  | _ =>
    cases h <;> simp

theorem all_of_ask (h : ask env limit left t = .ok (some s)) :
    s.All fun u => u.NamesDiffer ∧ u.layers ≤ left := by
  induction left using Nat.strongRecOn generalizing t s with
  | _ left ih =>
    rcases ask_eq_ok h with hleaf | ⟨m, rfl, hc⟩
    · rcases leaf_shape hleaf with rfl | ⟨kind, rfl⟩ | rfl | rfl <;> exact ⟨trivial, Nat.zero_le _⟩
    · have hpart {t : Ty} {s : Shape} (h : ask env limit m t = .ok (some s)) :
          s.All fun u => u.NamesDiffer ∧ u.layers ≤ m + 1 :=
        (ih m (Nat.lt_succ_self m) h).imp fun u hu => ⟨hu.1, Nat.le_succ_of_le hu.2⟩
      have helems {elems : List Ty} {s : Shape} (hne : elems ≠ [])
          (h : ∀ t ∈ elems, ask env limit m t = .ok (some s)) :
          (Shape.seq s).All fun u => u.NamesDiffer ∧ u.layers ≤ m + 1 := by
        obtain ⟨t, ht⟩ := List.exists_mem_of_ne_nil _ hne
        exact ⟨⟨trivial, Nat.zero_le _⟩, hpart (h t ht)⟩
      generalize head env t = u at hc
      cases u with
      | option inner =>
        obtain ⟨s, rfl, hs⟩ := compound_option hc
        exact ⟨⟨trivial, Nat.succ_le_succ (ih m (Nat.lt_succ_self m) hs).self.2⟩, hpart hs⟩
      | seq elem =>
        obtain ⟨s, rfl, hs⟩ := compound_seq hc
        exact ⟨⟨trivial, Nat.zero_le _⟩, hpart hs⟩
      | tuple elems =>
        obtain ⟨s, rfl, hne, hs⟩ := compound_tuple hc
        exact helems hne hs
      | tupleStruct name elems =>
        obtain ⟨s, rfl, hne, hs⟩ := compound_tupleStruct hc
        exact helems hne hs
      | map key val =>
        obtain ⟨k, v, rfl, -, hk, hv⟩ := compound_map hc
        exact ⟨⟨trivial, Nat.zero_le _⟩, hpart hk, hpart hv⟩
      | struct name fields =>
        obtain ⟨known, rfl, hf⟩ := compound_struct hc
        rw [← List.map_id fields] at hf
        obtain ⟨both, -, rfl, hask, -, hn⟩ := fieldShapes_map_eq_ok hf
        refine ⟨⟨?_, Nat.zero_le _⟩, Shape.allFields_iff.mpr (List.forall_mem_map.mpr fun b hb => ?_)⟩
        · rw [Shape.NamesDiffer, List.map_map]
          exact hn
        · exact hpart (hask b hb)
      | _ => cases hc

theorem ask_of_trace (h : t.trace env limit = .ok s) : ask env limit limit t = .ok (some s) := by
  obtain ⟨found, hfound, hs⟩ := Except.bind_eq_ok.mp h
  rw [hfound, requested_eq_ok_iff.mp hs]

theorem ask_of_shapeIn (h : t.shapeIn env limit = .ok s) : ask env limit limit t = .ok (some s) := by
  rw [shapeIn] at h
  cases ht : t.trace env limit with
  | ok u =>
    rw [ht] at h
    cases h
    exact ask_of_trace ht
  | error why =>
    rw [ht] at h
    cases why <;> cases h

theorem ask_of_shapeWithin (h : t.shapeWithin limit = .ok s) : ask t.alone limit limit t = .ok (some s) :=
  ask_of_shapeIn h

theorem distinct_of_ask (h : ask env limit left t = .ok (some s)) : s.Distinct :=
  (all_of_ask h).imp fun _ hu => hu.1

end Ty

end ShapeCodec
