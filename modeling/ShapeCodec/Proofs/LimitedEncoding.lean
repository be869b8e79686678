import ShapeCodec.Proofs.LimitedOutcomes

namespace ShapeCodec

open Wire

theorem kind_of_checkKeys {key : Shape} {i : Nat} {pairs : List (Value × Value)} {e : Error}
    (h : checkKeys key i pairs = .error e) : e.kind = .invalidType := by
  induction pairs generalizing i with
  | nil => cases h
  | cons p pairs ih =>
    rw [checkKeys] at h
    split at h
    · exact ih h
    · cases h
      rfl

theorem kind_of_orderPairs {key : Shape} {pairs : List (Value × Value)} {e : Error}
    (h : orderPairs key pairs = .error e) : e.kind = .invalidType := by
  rcases Except.bind_eq_error.mp h with h | ⟨⟨⟩, -, h⟩
  · exact kind_of_checkKeys h
  · dsimp only at h
    split at h
    · cases h
      rfl
    · cases h

theorem kind_of_checkKey {key : Shape} {e : Error} (h : key.checkKey = .error e) : e.kind = .invalidType := by
  rw [Shape.checkKey] at h
  split at h
  · cases h
  · cases h
    rfl

theorem kind_of_checkFields {known before : List String} {fields : List (String × Value)} {e : Error}
    (h : checkFields known before fields = .error e) : e.kind = .invalidType := by
  induction fields generalizing before with
  | nil => cases h
  | cons f fields ih =>
    rw [checkFields] at h
    split at h
    · cases h
      rfl
    · split at h
      · cases h
        rfl
      · exact ih h

def EncodesWithin (s : Shape) : Prop :=
  ∀ (d d' : Depth) (v : Value), d.left ≤ d'.left →
    Limited (d.left < v.depth ∧ d.left < s.depth) (d.left = d'.left) d'.limit (encode d s v) (encode d' s v)

theorem EncodesWithin.inside {s : Shape} (h : EncodesWithin s) {d d' e e' : Depth} (hle : d.left ≤ d'.left)
    (he : d.enter = .ok e) (he' : d'.enter = .ok e') {v : Value} {m n : Nat} (hm : v.depth ≤ m)
    (hn : s.depth ≤ n) : Limited (d.left < m + 1 ∧ d.left < n + 1) (d.left = d'.left) d'.limit
      (encode e s v) (encode e' s v) := by
  obtain ⟨-, hl⟩ := Depth.enter_eq_ok_iff.mp he
  obtain ⟨hlimit, hl'⟩ := Depth.enter_eq_ok_iff.mp he'
  rw [hlimit]
  apply (h e e' v (by omega)).imp
  · omega
  · omega

section Writers

variable {deep same : Prop} {limit : Nat}

theorem Limited.of_kind {α : Type} {r : Except Error α} (h : ∀ e, r = .error e → e.kind = .invalidType) :
    Limited deep same limit r r := by
  cases r with
  | ok x => exact .ok x
  | error e =>
    apply error
    intro hk
    rw [h e rfl] at hk
    cases hk

theorem Wire.limited_writeEach {α : Type} {write write' : Nat → Nat → α → Except Error Bytes} {xs : List α}
    (h : ∀ x ∈ xs, ∀ i pos, Limited deep same limit (write i pos x) (write' i pos x)) (i pos : Nat) :
    Limited deep same limit (writeEach write i pos xs) (writeEach write' i pos xs) := by
  induction xs generalizing i pos with
  | nil => exact .ok []
  | cons x xs ih =>
    apply (h x List.mem_cons_self i pos).bind
    intro part _
    apply (ih (fun y hy => h y (List.mem_cons_of_mem _ hy)) (i + 1) (pos + part.length)).bind
    intro parts _
    exact .ok _

theorem Wire.limited_writePair {key key' val val' : Value → Except Error Bytes} {p : Value × Value}
    (hk : Limited deep same limit (key p.1) (key' p.1)) (hv : Limited deep same limit (val p.2) (val' p.2))
    (i pos : Nat) : Limited deep same limit (writePair key val i pos p) (writePair key' val' i pos p) := by
  apply (hk.nested pos (.mapKey i)).bind
  intro k _
  apply (hv.nested (pos + k.length) (.mapValue i)).bind
  intro v _
  exact .ok _

theorem limited_encodeFields {d d' : Depth} {fields : List (String × Value)} {known : List (String × Shape)}
    (h : ∀ f ∈ known, ∀ v, (f.1, v) ∈ fields → Limited deep same limit (encode d f.2 v) (encode d' f.2 v))
    (pos : Nat) :
    Limited deep same limit (encodeFields d fields pos known) (encodeFields d' fields pos known) := by
  induction known generalizing pos with
  | nil => exact .ok []
  | cons f known ih =>
    obtain ⟨name, s⟩ := f
    have ih := ih fun f hf => h f (List.mem_cons_of_mem _ hf)
    rw [encodeFields, encodeFields]
    cases hl : fields.lookup name with
    | none => exact ih pos
    | some v =>
      have hs := h (name, s) List.mem_cons_self v (mem_of_lookup hl)
      apply (hs.nested (pos + (writeStr name).length) (.field name)).bind
      intro part _
      apply (ih (pos + (writeStr name).length + part.length)).bind
      intro parts _
      exact .ok _

end Writers

theorem encodesWithin_seq {elem : Shape} (h : EncodesWithin elem) : EncodesWithin (.seq elem) := by
  intro d d' v hle
  cases v with
  | nil => exact .ok _
  | seq items =>
    rw [encode, encode]
    apply Limited.enter hle (fun hz => ⟨Depth.left_lt_succ hz, Depth.left_lt_succ hz⟩) id
    intro e e' he he'
    apply Limited.bind
    · apply limited_writeEach
      intro v hv i pos
      have hdepth := Value.depthItems_le_iff.mp (Nat.le_refl _) v hv
      exact (h.inside hle he he' hdepth (Nat.le_refl _)).nested _ _
    · intro payload _
      exact .ok _
  | _ => exact .failure rfl

theorem encodesWithin_map {key val : Shape} (hk : EncodesWithin key) (hv : EncodesWithin val) :
    EncodesWithin (.map key val) := by
  intro d d' v hle
  rw [encode.eq_def, encode.eq_def]
  dsimp only
  apply (Limited.of_kind fun _ => kind_of_checkKey).bind
  intro _ _
  cases v with
  | nil => exact .ok _
  | map pairs =>
    apply (Limited.of_kind fun _ => kind_of_orderPairs).bind
    intro sorted hs
    obtain ⟨-, -, rfl⟩ := orderPairs_eq_ok_iff.mp hs
    apply Limited.enter hle (fun hz => ⟨Depth.left_lt_succ hz, Depth.left_lt_succ hz⟩) id
    intro e e' he he'
    apply Limited.bind
    · apply limited_writeEach
      intro p hp
      obtain ⟨hkd, hvd⟩ := Value.depthPairs_le_iff.mp (Nat.le_refl _) p (mem_sortPairs.mp hp)
      apply limited_writePair
      · exact hk.inside hle he he' hkd (Nat.le_max_left _ _)
      · exact hv.inside hle he he' hvd (Nat.le_max_right _ _)
    · intro payload _
      exact .ok _
  | _ => exact .failure rfl

theorem encodesWithin_record {known : List (String × Shape)} (h : ∀ f ∈ known, EncodesWithin f.2) :
    EncodesWithin (.record known) := by
  intro d d' v hle
  cases v with
  | nil => exact .ok _
  | record fields =>
    rw [encode, encode]
    apply (Limited.of_kind fun _ => kind_of_checkFields).bind
    intro _ _
    apply Limited.enter hle (fun hz => ⟨Depth.left_lt_succ hz, Depth.left_lt_succ hz⟩) id
    intro e e' he he'
    apply Limited.bind
    · apply limited_encodeFields
      intro f hf v hv
      have hvd := Value.depthFields_le_iff.mp (Nat.le_refl _) _ hv
      have hsd := Shape.depthFields_le_iff.mp (Nat.le_refl _) f hf
      exact (h f hf).inside hle he he' hvd hsd
    · intro payload _
      exact .ok _
  | _ => exact .failure rfl

theorem encodesWithin_optional {inner : Shape} (h : EncodesWithin inner) : EncodesWithin (.optional inner) := by
  intro d d' v hle
  cases v with
  | nil => exact .ok _
  | ref w =>
    rw [encode, encode]
    apply Limited.enter hle (fun hz => ⟨Depth.left_lt_succ hz, Depth.left_lt_succ hz⟩) id
    intro e e' he he'
    exact h.inside hle he he' (Nat.le_refl _) (Nat.le_refl _)
  | _ => exact .failure rfl

theorem encodesWithin (s : Shape) : EncodesWithin s := by
  induction s with
  | bool =>
    intro d d' v _
    cases v with
    | bool b => exact .ok _
    | _ => exact .failure rfl
  | int kind =>
    intro d d' v _
    cases v with
    | int n =>
      rw [encode, encode]
      split
      · exact .ok _
      · exact .failure rfl
    | _ => exact .failure rfl
  | str =>
    intro d d' v _
    cases v with
    | str x => exact .ok _
    | _ => exact .failure rfl
  | blob =>
    intro d d' v _
    cases v with
    | nil => exact .ok _
    | blob content => exact .ok _
    | _ => exact .failure rfl
  | seq elem ih => exact encodesWithin_seq ih
  | map key val ihk ihv => exact encodesWithin_map ihk ihv
  | record known ih => exact encodesWithin_record ih
  | optional inner ih => exact encodesWithin_optional ih

theorem limited_encodeValue {c c' : Config} (hd : c.maxDepth ≤ c'.maxDepth) (hm : c'.maxSize = c.maxSize)
    (s : Shape) (v : Value) : Limited (c.maxDepth < v.depth ∧ c.maxDepth < s.depth) (c.maxDepth = c'.maxDepth) c'.maxDepth
      (encodeValue c s v) (encodeValue c' s v) := by
  rw [encodeValue, encodeValue, hm]
  apply (encodesWithin s (.upTo c.maxDepth) (.upTo c'.maxDepth) v hd).bind
  intro b _
  split
  · exact .failure rfl
  · exact .ok b

end ShapeCodec
