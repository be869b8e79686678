import ShapeCodec.Key
import Mathlib.Data.List.Nodup

namespace ShapeCodec

variable {κ β : Type} {entries : List (κ × β)} {key : κ} {b : β}

section Lookup

variable [BEq κ] [LawfulBEq κ]

theorem lookup_cons_eq [DecidableEq κ] (k : κ) (b : β) (entries : List (κ × β)) (key : κ) :
    ((k, b) :: entries).lookup key = if k = key then some b else entries.lookup key := by
  rw [List.lookup_cons]
  by_cases h : k = key
  · simp [h]
  · simp [h, beq_eq_false_iff_ne.mpr (Ne.symm h)]

theorem mem_of_lookup (h : entries.lookup key = some b) : (key, b) ∈ entries := by
  obtain ⟨before, after, rfl, -⟩ := List.lookup_eq_some_iff.mp h
  simp

theorem lookup_eq_none_iff_not_mem :
    entries.lookup key = none ↔ key ∉ entries.map (·.1) := by
  rw [List.lookup_eq_none_iff]
  simp only [bne_iff_ne, List.mem_map, not_exists, not_and]
  exact ⟨fun h f hf he => h f hf he.symm, fun h f hf he => h f hf he.symm⟩

theorem exists_lookup_of_mem (h : key ∈ entries.map (·.1)) : ∃ b, entries.lookup key = some b := by
  cases hl : entries.lookup key with
  | none => exact absurd h (lookup_eq_none_iff_not_mem.mp hl)
  | some b => exact ⟨b, rfl⟩

theorem lookup_of_mem (hn : (entries.map (·.1)).Nodup) (h : (key, b) ∈ entries) :
    entries.lookup key = some b := by
  classical
  induction entries with
  | nil => cases h
  | cons f entries ih =>
    obtain ⟨k, c⟩ := f
    rw [List.map_cons, List.nodup_cons] at hn
    rw [lookup_cons_eq]
    rcases List.mem_cons.mp h with he | hm
    · cases he
      rw [if_pos rfl]
    · have hne : k ≠ key := by
        rintro rfl
        exact hn.1 (List.mem_map.mpr ⟨_, hm, rfl⟩)
      rw [if_neg hne, ih hn.2 hm]

theorem lookup_perm {entries' : List (κ × β)} (h : entries.Perm entries') (hn : (entries.map (·.1)).Nodup)
    (key : κ) : entries.lookup key = entries'.lookup key := by
  cases hl : entries.lookup key with
  | none =>
    rw [lookup_eq_none_iff_not_mem, (h.map _).mem_iff] at hl
    exact (lookup_eq_none_iff_not_mem.mpr hl).symm
  | some b =>
    have hm := h.mem_iff.mp (mem_of_lookup hl)
    exact (lookup_of_mem ((h.map _).nodup_iff.mp hn) hm).symm

theorem lookup_map_snd [DecidableEq κ] {γ : Type} (f : β → γ) (entries : List (κ × β)) (key : κ) :
    (entries.map fun e => (e.1, f e.2)).lookup key = (entries.lookup key).map f := by
  induction entries with
  | nil => rfl
  | cons e entries ih =>
    obtain ⟨k, b⟩ := e
    rw [List.map_cons, lookup_cons_eq, lookup_cons_eq, ih]
    split <;> rfl

end Lookup

section Others

variable [DecidableEq κ]

theorem filter_ne_cons_self (key : κ) (b : β) (entries : List (κ × β)) :
    ((key, b) :: entries).filter (·.1 ≠ key) = entries.filter (·.1 ≠ key) :=
  List.filter_cons_of_neg (by simp)

theorem filter_ne_cons_of_ne {k : κ} (h : k ≠ key) (b : β) (entries : List (κ × β)) :
    ((k, b) :: entries).filter (·.1 ≠ key) = (k, b) :: entries.filter (·.1 ≠ key) :=
  List.filter_cons_of_pos (by simp [h])

theorem filter_ne_of_not_mem (h : key ∉ entries.map (·.1)) : entries.filter (·.1 ≠ key) = entries := by
  rw [List.filter_eq_self]
  intro entry hm
  rw [decide_eq_true_iff]
  rintro rfl
  exact h (List.mem_map_of_mem hm)

end Others

section Contents

variable {ι γ : Type} {xs : List ι}

theorem filterMap_sublist_map (content : ι → Option β) (f : ι → γ) (xs : List ι) :
    (xs.filterMap fun x => (content x).map fun _ => f x).Sublist (xs.map f) := by
  induction xs with
  | nil => exact List.Sublist.refl _
  | cons x xs ih =>
    rw [List.filterMap_cons, List.map_cons]
    cases content x with
    | none => exact ih.cons _
    | some b => exact ih.cons_cons _

theorem nodup_keys_filterMap {key : ι → κ} {content : ι → Option β} (hn : (xs.map key).Nodup) :
    ((xs.filterMap fun x => (content x).map (Prod.mk (key x))).map (·.1)).Nodup := by
  have hkeys : (xs.filterMap fun x => (content x).map (Prod.mk (key x))).map (·.1) =
      xs.filterMap fun x => (content x).map fun _ => key x := by
    rw [List.map_filterMap]
    simp only [Option.map_map]
    rfl
  rw [hkeys]
  exact (filterMap_sublist_map content key xs).nodup hn

theorem mem_filterMap_iff {key : ι → κ} {content : ι → Option β} {f : κ × β} :
    f ∈ xs.filterMap (fun x => (content x).map (Prod.mk (key x))) ↔
      ∃ x ∈ xs, key x = f.1 ∧ content x = some f.2 := by
  rw [List.mem_filterMap]
  constructor
  · rintro ⟨x, hx, hf⟩
    obtain ⟨b, hb, rfl⟩ := Option.map_eq_some_iff.mp hf
    exact ⟨x, hx, rfl, hb⟩
  · rintro ⟨x, hx, hk, hb⟩
    exact ⟨x, hx, by rw [hb, hk]; rfl⟩

theorem lookup_filterMap [BEq κ] [LawfulBEq κ] {key : ι → κ} {content : ι → Option β} (hn : (xs.map key).Nodup)
    {x : ι} (hx : x ∈ xs) :
    (xs.filterMap fun x => (content x).map (Prod.mk (key x))).lookup (key x) = content x := by
  cases hc : content x with
  | some b => exact lookup_of_mem (nodup_keys_filterMap hn) (mem_filterMap_iff.mpr ⟨x, hx, rfl, hc⟩)
  | none =>
    rw [lookup_eq_none_iff_not_mem]
    intro hin
    obtain ⟨f, hf, hk⟩ := List.mem_map.mp hin
    obtain ⟨y, hy, hky, hb⟩ := mem_filterMap_iff.mp hf
    rw [List.inj_on_of_nodup_map hn hy hx (hky.trans hk), hc] at hb
    cases hb

end Contents

section Put

variable [DecidableEq κ]

def put (key : κ) (b : β) : List (κ × β) → List (κ × β)
  | [] => [(key, b)]
  | (k, c) :: entries => if k = key then (k, b) :: entries else (k, c) :: put key b entries

theorem putField_eq_put (name : String) (v : Value) (fields : List (String × Value)) :
    Value.putField name v fields = put name v fields := by
  induction fields with
  | nil => rfl
  | cons f fields ih => rw [Value.putField, put, ih]

theorem put_of_not_mem (h : key ∉ entries.map (·.1)) : put key b entries = entries ++ [(key, b)] := by
  induction entries with
  | nil => rfl
  | cons f entries ih =>
    rw [List.map_cons, List.mem_cons, not_or] at h
    rw [put, if_neg (Ne.symm h.1), ih h.2, List.cons_append]

theorem length_put_le (key : κ) (b : β) (entries : List (κ × β)) :
    (put key b entries).length ≤ entries.length + 1 := by
  induction entries with
  | nil => exact Nat.le_refl _
  | cons f entries ih =>
    rw [put]
    split
    · exact Nat.le_succ _
    · exact Nat.succ_le_succ ih

theorem keys_put_of_mem (h : key ∈ entries.map (·.1)) :
    (put key b entries).map (·.1) = entries.map (·.1) := by
  induction entries with
  | nil => cases h
  | cons f entries ih =>
    rw [put]
    split
    · rfl
    · next hne =>
      rw [List.map_cons, List.mem_cons] at h
      rw [List.map_cons, List.map_cons, ih (h.resolve_left (Ne.symm hne))]

theorem nodup_keys_put (h : (entries.map (·.1)).Nodup) : ((put key b entries).map (·.1)).Nodup := by
  by_cases hm : key ∈ entries.map (·.1)
  · rwa [keys_put_of_mem hm]
  · rw [put_of_not_mem hm, List.map_append, List.nodup_append]
    refine ⟨h, by simp, ?_⟩
    rintro k hk l hl rfl
    rw [List.map_singleton, List.mem_singleton] at hl
    subst hl
    exact hm hk

theorem mem_put {f : κ × β} (h : f ∈ put key b entries) : f = (key, b) ∨ f ∈ entries := by
  induction entries with
  | nil => exact .inl (List.mem_singleton.mp h)
  | cons g entries ih =>
    rw [put] at h
    split at h
    · next hk =>
      subst hk
      exact (List.mem_cons.mp h).imp_right (List.mem_cons_of_mem _)
    · rcases List.mem_cons.mp h with rfl | hm
      · exact .inr List.mem_cons_self
      · exact (ih hm).imp_right (List.mem_cons_of_mem _)

theorem lookup_put [BEq κ] [LawfulBEq κ] (key : κ) (b : β) (entries : List (κ × β)) (k : κ) :
    (put key b entries).lookup k = if key = k then some b else entries.lookup k := by
  induction entries with
  | nil => rw [put, lookup_cons_eq]
  | cons f entries ih =>
    obtain ⟨l, c⟩ := f
    rw [put, lookup_cons_eq]
    by_cases hl : l = key
    · subst hl
      rw [if_pos rfl, lookup_cons_eq]
      split <;> rfl
    · rw [if_neg hl, lookup_cons_eq, ih]
      by_cases hk : l = k
      · subst hk
        rw [if_pos rfl, if_pos rfl, if_neg (Ne.symm hl)]
      · rw [if_neg hk, if_neg hk]

theorem length_flatMap_put [BEq κ] [LawfulBEq κ] (code : κ × β → Bytes) (key : κ) (b : β)
    (entries : List (κ × β)) :
    ((put key b entries).flatMap code).length + ((entries.lookup key).elim 0 fun c => (code (key, c)).length) =
      (entries.flatMap code).length + (code (key, b)).length := by
  induction entries with
  | nil => simp [put]
  | cons f entries ih =>
    obtain ⟨k, c⟩ := f
    rw [put, lookup_cons_eq]
    split
    · next hk =>
      subst hk
      simp only [List.flatMap_cons, List.length_append, Option.elim_some]
      omega
    · simp only [List.flatMap_cons, List.length_append]
      omega

end Put

end ShapeCodec
