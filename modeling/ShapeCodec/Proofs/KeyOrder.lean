import ShapeCodec.Key
import ShapeCodec.Proofs.IntegerForms
import ShapeCodec.Proofs.Outcome
import ShapeCodec.Proofs.TextCoding

namespace ShapeCodec

open Std

namespace Value

variable {key : Shape} {a b c : Value}

theorem cmpKey_swap (a b : Value) : b.cmpKey a = (a.cmpKey b).map Ordering.swap := by
  cases a <;> cases b <;> simp only [cmpKey, Option.map_none, Option.map_some, Option.some.injEq]
  · exact OrientedCmp.eq_swap
  · rw [Integer.compare_eq, Integer.compare_eq]
    exact OrientedCmp.eq_swap
  · exact OrientedCmp.eq_swap

theorem eq_of_cmpKey_eq (h : a.cmpKey b = some .eq) : a = b := by
  cases a <;> cases b <;> simp only [cmpKey, reduceCtorEq, Option.some.injEq] at h
  · rw [LawfulEqCmp.eq_of_compare h]
  · rw [Integer.compare_eq] at h
    rw [Integer.ext (LawfulEqCmp.eq_of_compare h)]
  · rw [Text.utf8_inj.mp (LawfulEqCmp.eq_of_compare h)]

theorem cmpKey_self (h : a.isKeyOf key) : a.cmpKey a = some .eq := by
  cases a <;> cases key <;> simp only [isKeyOf, Bool.false_eq_true] at h
  · exact congrArg some ReflCmp.compare_self
  · exact congrArg some ((Integer.compare_eq _ _).trans ReflCmp.compare_self)
  · exact congrArg some ReflCmp.compare_self

theorem cmpKey_isSome (ha : a.isKeyOf key) (hb : b.isKeyOf key) : (a.cmpKey b).isSome := by
  cases a <;> cases key <;> simp only [isKeyOf, Bool.false_eq_true] at ha <;>
    cases b <;> simp only [isKeyOf, Bool.false_eq_true] at hb <;> rfl

theorem cmpKey_le_total (a b : Value) : a.cmpKey b ≠ some .gt ∨ b.cmpKey a ≠ some .gt := by
  rw [cmpKey_swap a b]
  rcases a.cmpKey b with - | o
  · simp
  · cases o <;> simp

theorem cmpKey_le_trans (ha : a.isKeyOf key) (hb : b.isKeyOf key) (hc : c.isKeyOf key)
    (hab : a.cmpKey b ≠ some .gt) (hbc : b.cmpKey c ≠ some .gt) : a.cmpKey c ≠ some .gt := by
  cases key <;> cases a <;> simp only [isKeyOf, Bool.false_eq_true] at ha <;>
    cases b <;> simp only [isKeyOf, Bool.false_eq_true] at hb <;>
    cases c <;> simp only [isKeyOf, Bool.false_eq_true] at hc <;>
    simp only [cmpKey, ne_eq, Option.some.injEq, ← Ordering.isLE_iff_ne_gt] at hab hbc ⊢
  · exact TransCmp.isLE_trans hab hbc
  · rw [Integer.compare_eq] at hab hbc ⊢
    exact TransCmp.isLE_trans hab hbc
  · exact TransCmp.isLE_trans hab hbc

theorem cmpKey_le_antisymm (ha : a.isKeyOf key) (hb : b.isKeyOf key)
    (hab : a.cmpKey b ≠ some .gt) (hba : b.cmpKey a ≠ some .gt) : a.cmpKey b = some .eq := by
  obtain ⟨o, ho⟩ := Option.isSome_iff_exists.mp (cmpKey_isSome ha hb)
  rw [cmpKey_swap a b] at hba
  cases o <;> simp_all

theorem cmpKey_lt_of_le_of_ne (ha : a.isKeyOf key) (hb : b.isKeyOf key)
    (hab : a.cmpKey b ≠ some .gt) (hne : a ≠ b) : a.cmpKey b = some .lt := by
  obtain ⟨o, ho⟩ := Option.isSome_iff_exists.mp (cmpKey_isSome ha hb)
  cases o with
  | lt => exact ho
  | eq => exact absurd (eq_of_cmpKey_eq ho) hne
  | gt => exact absurd ho hab

end Value

section Pairs

variable {key : Shape} {pairs : List (Value × Value)}

theorem checkKeys_eq_ok_iff {i : Nat} :
    checkKeys key i pairs = .ok () ↔ ∀ p ∈ pairs, p.1.isKeyOf key := by
  induction pairs generalizing i with
  | nil => simp [checkKeys]
  | cons p pairs ih =>
    obtain ⟨k, v⟩ := p
    by_cases hk : k.isKeyOf key
    · simp [checkKeys, hk, ih]
    · simp [checkKeys, hk]

theorem sortPairs_perm (pairs : List (Value × Value)) : (sortPairs pairs).Perm pairs :=
  List.mergeSort_perm pairs _

theorem mem_sortPairs {p : Value × Value} : p ∈ sortPairs pairs ↔ p ∈ pairs :=
  (sortPairs_perm pairs).mem_iff

theorem pairwise_sortPairs (h : ∀ p ∈ pairs, p.1.isKeyOf key) :
    (sortPairs pairs).Pairwise fun p q => p.1.cmpKey q.1 ≠ some .gt := by
  let keyed := pairs.attachWith (fun p => p.1.isKeyOf key) h
  let le (p q : { p : Value × Value // p.1.isKeyOf key }) : Bool := p.1.1.cmpKey q.1.1 != some .gt
  have hs : sortPairs pairs = (keyed.mergeSort le).map Subtype.val := by
    rw [List.map_mergeSort (s := fun p q => p.1.cmpKey q.1 != some .gt) (by simp [le]),
      List.attachWith_map_subtype_val]
    rfl
  have hp : (keyed.mergeSort le).Pairwise (le · ·) := by
    apply List.pairwise_mergeSort
    · intro p q r hpq hqr
      simp only [le, bne_iff_ne] at hpq hqr ⊢
      exact Value.cmpKey_le_trans p.2 q.2 r.2 hpq hqr
    · intro p q
      simpa [le] using Value.cmpKey_le_total p.1.1 q.1.1
  rw [hs, List.pairwise_map]
  exact hp.imp fun h => by simpa [le] using h

theorem sortPairs_of_pairwise
    (h : pairs.Pairwise fun p q => p.1.cmpKey q.1 ≠ some .gt) : sortPairs pairs = pairs :=
  List.mergeSort_of_pairwise (h.imp fun h => by simpa using h)

theorem sortPairs_map (f : Value → Value) (pairs : List (Value × Value)) :
    sortPairs (pairs.map fun p => (p.1, f p.2)) = (sortPairs pairs).map fun p => (p.1, f p.2) :=
  (List.map_mergeSort (f := fun p : Value × Value => (p.1, f p.2)) (by simp)).symm

theorem sortPairs_map_perm {ι : Type} (f : ι → Value × Value) (xs : List ι) :
    ∃ sorted : List ι, sorted.Perm xs ∧ sortPairs (xs.map f) = sorted.map f :=
  ⟨xs.mergeSort fun x y => (f x).1.cmpKey (f y).1 != some .gt, List.mergeSort_perm _ _,
    (List.map_mergeSort (by simp)).symm⟩

theorem repeatedKey?_eq_none_iff (hk : ∀ p ∈ pairs, p.1.isKeyOf key)
    (hs : pairs.Pairwise fun p q => p.1.cmpKey q.1 ≠ some .gt) :
    repeatedKey? pairs = none ↔ (pairs.map (·.1)).Nodup := by
  induction pairs with
  | nil => simp [repeatedKey?]
  | cons p pairs ih =>
    cases pairs with
    | nil => simp [repeatedKey?]
    | cons q pairs =>
      have ih := ih (fun r hr => hk r (List.mem_cons_of_mem _ hr)) hs.tail
      have hp := hk p (by simp)
      have hpq : p.1.cmpKey q.1 ≠ some .gt := (List.pairwise_cons.mp hs).1 q (by simp)
      rw [repeatedKey?, List.map_cons, List.nodup_cons]
      by_cases he : p.1.cmpKey q.1 = some .eq
      · rw [if_pos he]
        simp [Value.eq_of_cmpKey_eq he]
      · rw [if_neg he, ih]
        refine ⟨fun hn => ⟨fun hm => he ?_, hn⟩, fun hn => hn.2⟩
        obtain ⟨r, hr, hrp⟩ := List.mem_map.mp hm
        have hqp : q.1.cmpKey p.1 ≠ some .gt := by
          rcases List.mem_cons.mp hr with rfl | hr
          · rw [hrp, Value.cmpKey_self hp]
            simp
          · rw [← hrp]
            exact (List.pairwise_cons.mp hs.tail).1 r hr
        exact Value.cmpKey_le_antisymm hp (hk q (by simp)) hpq hqp

theorem orderPairs_eq_ok_iff {sorted : List (Value × Value)} :
    orderPairs key pairs = .ok sorted ↔
      (∀ p ∈ pairs, p.1.isKeyOf key) ∧ (pairs.map (·.1)).Nodup ∧ sorted = sortPairs pairs := by
  by_cases hk : ∀ p ∈ pairs, p.1.isKeyOf key
  · have hr := repeatedKey?_eq_none_iff (fun p hp => hk p (mem_sortPairs.mp hp))
      (pairwise_sortPairs hk)
    rw [((sortPairs_perm pairs).map _).nodup_iff] at hr
    rw [orderPairs, checkKeys_eq_ok_iff.mpr hk, Except.ok_bind, ← hr]
    dsimp only
    cases hq : repeatedKey? (sortPairs pairs) with
    | none =>
      dsimp only
      rw [Except.ok.injEq]
      exact ⟨fun he => ⟨hk, rfl, he.symm⟩, fun he => he.2.2.symm⟩
    | some k => simp
  · simp only [hk, false_and, iff_false]
    intro ho
    obtain ⟨⟨⟩, hc, -⟩ := Except.bind_eq_ok.mp ho
    exact hk (checkKeys_eq_ok_iff.mp hc)

theorem Shape.checkKey_eq_ok_iff : key.checkKey = .ok () ↔ key.isOrderable := by
  unfold Shape.checkKey
  split <;> simp_all

end Pairs

end ShapeCodec
