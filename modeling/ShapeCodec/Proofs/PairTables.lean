import ShapeCodec.Decoding
import ShapeCodec.Proofs.Entries
import ShapeCodec.Proofs.Outcome

/-!
The pairs of a map and the index of their slots, which decoding keeps in step: with both of them it
makes what putting each pair into a plain list makes.
-/

namespace ShapeCodec

section Slots

variable {κ β : Type} {entries : List (κ × β)} {key : κ}

theorem put_eq_modify [DecidableEq κ] {slot : Nat} {c : β} (h : entries[slot]? = some (key, c))
    (honly : ∀ i d, entries[i]? = some (key, d) → i = slot) (b : β) :
    put key b entries = entries.modify slot fun e => (e.1, b) := by
  induction entries generalizing slot with
  | nil => cases h
  | cons e entries ih =>
    obtain ⟨k, d⟩ := e
    rw [put]
    by_cases hk : k = key
    · subst hk
      obtain rfl := honly 0 d rfl
      rw [if_pos rfl, List.modify_zero_cons]
    · rw [if_neg hk]
      cases slot with
      | zero =>
        cases h
        exact absurd rfl hk
      | succ slot =>
        rw [List.modify_succ_cons, ih h fun i d hi => Nat.succ.inj (honly (i + 1) d hi)]

end Slots

namespace PairTable

variable {t : PairTable}

/-- The index has each key at its slot, and the key of each slot. -/
structure InStep (t : PairTable) : Prop where
  key_at {k : Value} {slot : Nat} : t.index.lookup k = some slot → ∃ v, t.pairs[slot]? = some (k, v)
  slot_of {k v : Value} {slot : Nat} : t.pairs[slot]? = some (k, v) → t.index.lookup k = some slot

theorem InStep.empty : InStep {} := ⟨nofun, nofun⟩

theorem InStep.not_mem (h : t.InStep) {k : Value} (hk : t.index.lookup k = none) :
    k ∉ t.pairs.toList.map (·.1) := by
  intro hm
  obtain ⟨⟨_, v⟩, hp, rfl⟩ := List.mem_map.mp hm
  obtain ⟨slot, hs⟩ := List.mem_iff_getElem?.mp hp
  rw [Array.getElem?_toList] at hs
  rw [h.slot_of hs] at hk
  cases hk

theorem InStep.put (h : t.InStep) (k v : Value) : (t.put k v).InStep := by
  rw [PairTable.put]
  cases hk : t.index.lookup k with
  | some slot =>
    -- A new value leaves the keys and their slots as they are.
    dsimp only
    constructor
    · intro l i hl
      obtain ⟨w, hw⟩ := h.key_at hl
      rw [Array.getElem?_modify, hw]
      split
      · exact ⟨v, rfl⟩
      · exact ⟨w, rfl⟩
    · intro l w i hi
      rw [Array.getElem?_modify] at hi
      split at hi
      · obtain ⟨⟨_, u⟩, hu, hw⟩ := Option.map_eq_some_iff.mp hi
        cases hw
        exact h.slot_of hu
      · exact h.slot_of hi
  | none =>
    dsimp only
    have hnew := h.not_mem hk
    constructor
    · intro l i hl
      rw [lookup_cons_eq] at hl
      rw [Array.getElem?_push]
      split at hl
      · next he =>
        cases hl
        rw [if_pos rfl, he]
        exact ⟨v, rfl⟩
      · obtain ⟨w, hw⟩ := h.key_at hl
        have hi := (Array.getElem?_eq_some_iff.mp hw).1
        rw [if_neg (Nat.ne_of_lt hi), hw]
        exact ⟨w, rfl⟩
    · intro l w i hi
      rw [Array.getElem?_push] at hi
      rw [lookup_cons_eq]
      split at hi
      · next he =>
        cases hi
        rw [if_pos rfl, he]
      · have hl : l ∈ t.pairs.toList.map (·.1) := by
          rw [← Array.getElem?_toList] at hi
          exact List.mem_map.mpr ⟨_, List.mem_of_getElem? hi, rfl⟩
        rw [if_neg (by rintro rfl; exact hnew hl), h.slot_of hi]

/-- What the table makes of a pair is what a list makes of it that is searched from the front. -/
theorem InStep.toList_put (h : t.InStep) (k v : Value) :
    (t.put k v).pairs.toList = ShapeCodec.put k v t.pairs.toList := by
  rw [PairTable.put]
  cases hk : t.index.lookup k with
  | some slot =>
    obtain ⟨w, hw⟩ := h.key_at hk
    rw [← Array.getElem?_toList] at hw
    rw [put_eq_modify hw, Array.toList_modify]
    intro i d hi
    rw [Array.getElem?_toList] at hi
    exact Option.some.inj ((h.slot_of hi).symm.trans hk)
  | none => rw [put_of_not_mem (h.not_mem hk), Array.toList_push]

end PairTable

namespace Wire

def readPairBy {σ : Type} (put : Value → Value → σ → σ) (key val : Update) (p : Payload) (i : Nat) (s : σ)
    (input : Bytes) : Except Error (σ × Bytes) := do
  let (k, rest) ← (fresh key input).mapError (.within .map (p.position input) (.mapKey i))
  let (v, after) ← (fresh val rest).mapError (.within .map (p.position rest) (.mapValue i))
  .ok (put k v s, after)

section Pairs

variable {σ τ : Type} {put : Value → Value → σ → σ} {key val : Update} {p : Payload} {i : Nat} {s s' : σ}
  {input rest : Bytes}

theorem readPair_eq (key val : Update) (p : Payload) :
    readPair key val p = readPairBy (fun k v t => t.put k v) key val p := rfl

theorem readPairBy_eq_ok (h : readPairBy put key val p i s input = .ok (s', rest)) :
    ∃ k mid v, fresh key input = .ok (k, mid) ∧ fresh val mid = .ok (v, rest) ∧ s' = put k v s := by
  obtain ⟨⟨k, mid⟩, hk, h'⟩ := Except.bind_eq_ok.mp h
  obtain ⟨⟨v, after⟩, hv, h''⟩ := Except.bind_eq_ok.mp h'
  cases h''
  exact ⟨k, mid, v, Except.mapError_eq_ok.mp hk, Except.mapError_eq_ok.mp hv, rfl⟩

theorem readPairBy_map {put' : Value → Value → τ → τ} (f : σ → τ) (hf : ∀ k v, f (put k v s) = put' k v (f s)) :
    readPairBy put' key val p i (f s) input = (readPairBy put key val p i s input).map fun r => (f r.1, r.2) := by
  rw [readPairBy, readPairBy]
  cases fresh key input with
  | error e => rfl
  | ok r =>
    obtain ⟨k, mid⟩ := r
    simp only [Except.ok_mapError, Except.ok_bind]
    cases fresh val mid with
    | error e => rfl
    | ok r => simp only [Except.ok_mapError, Except.ok_bind, Except.ok_map, hf]

end Pairs

theorem eachUnit_map {σ τ : Type} {read : Nat → σ → Bytes → Except Error (σ × Bytes)}
    {read' : Nat → τ → Bytes → Except Error (τ × Bytes)} {P : σ → Prop} {f : σ → τ}
    (hP : ∀ i s input s' rest, P s → read i s input = .ok (s', rest) → P s')
    (hf : ∀ i s input, P s → read' i (f s) input = (read i s input).map fun r => (f r.1, r.2))
    {fuel i : Nat} {s : σ} (hs : P s) {input : Bytes} :
    eachUnit read' fuel i (f s) input = (eachUnit read fuel i s input).map f := by
  induction fuel generalizing i s input with
  | zero => cases input <;> rfl
  | succ fuel ih =>
    cases input with
    | nil => rfl
    | cons b input =>
      rw [eachUnit, eachUnit, hf i s _ hs]
      cases hr : read i s (b :: input) with
      | error e => rfl
      | ok r => exact ih (hP i s _ r.1 r.2 hs hr)

/-- The table and its index come out of a payload in step, with the pairs that a plain list gets. -/
theorem fold_readPair (key val : Update) (p : Payload) :
    p.fold (readPairBy put key val p) [] = (p.fold (readPair key val p) {}).map fun t => t.pairs.toList := by
  refine eachUnit_map (P := PairTable.InStep) (f := fun t => t.pairs.toList) (fun i t input t' rest h hr => ?_)
    (fun i t input h => ?_) PairTable.InStep.empty
  · rw [readPair_eq] at hr
    obtain ⟨k, mid, v, -, -, rfl⟩ := readPairBy_eq_ok hr
    exact h.put k v
  · rw [readPair_eq]
    exact readPairBy_map (fun t : PairTable => t.pairs.toList) fun k v => h.toList_put k v

/-- Reading a map with its pairs in a plain list: the first pair of a key stays, with the last value of the key. -/
def readPairList (depth : Depth) (key val : Depth → Update) (input : Bytes) : Except Error (Value × Bytes) := do
  match ← openPayload .map input with
  | (none, rest) => .ok (.nil, rest)
  | (some p, rest) =>
    let depth ← depth.enter
    let pairs ← p.fold (readPairBy put (key depth) (val depth) p) []
    .ok (.map pairs, rest)

theorem readMap_eq (depth : Depth) (key val : Depth → Update) (input : Bytes) :
    readMap depth key val input = readPairList depth key val input := by
  rw [readMap, readPairList]
  cases openPayload .map input with
  | error e => rfl
  | ok r =>
    obtain ⟨_ | p, rest⟩ := r
    · rfl
    · cases depth.enter with
      | error e => rfl
      | ok depth =>
        simp only [Except.ok_bind, fold_readPair]
        cases p.fold (readPair (key depth) (val depth) p) {} <;> rfl

end Wire

end ShapeCodec
