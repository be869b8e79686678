import ShapeCodec.Proofs.FailedUpdates
import ShapeCodec.Proofs.LimitedOutcomes
import ShapeCodec.Proofs.UnitFailures

namespace ShapeCodec

open Wire

namespace Wire

section Readers

variable {deep same : Prop} {limit : Nat}

theorem limited_of_failsPlainly {α : Type} {r : Except Error α} (h : FailsPlainly r) :
    Limited deep same limit r r := by
  cases r with
  | ok x => exact .ok x
  | error e =>
    apply Limited.failure
    have he := h e rfl
    cases e <;> first | rfl | cases he

theorem limited_eachUnit {σ : Type} {read read' : Nat → σ → Bytes → Except Error (σ × Bytes)}
    (h : ∀ i s input, Limited deep same limit (read i s input) (read' i s input))
    (fuel i : Nat) (s : σ) (input : Bytes) :
    Limited deep same limit (eachUnit read fuel i s input) (eachUnit read' fuel i s input) := by
  induction fuel generalizing i s input with
  | zero => cases input <;> exact .ok s
  | succ fuel ih =>
    cases input with
    | nil => exact .ok s
    | cons b input =>
      apply (h i s (b :: input)).bind
      intro x _
      exact ih (i + 1) x.1 x.2

end Readers

def readOver (update : Update) (dst : Value) (input : Bytes) : Except Error (Value × Bytes) :=
  match update input dst with
  | .ok rest v => .ok (v, rest)
  | .error e _ => .error e

theorem readOver_of_replace {update : Update} {dst : Value} {input : Bytes} {r : Except Error (Value × Bytes)}
    (h : update input dst = replace r dst) : readOver update dst input = r := by
  rw [readOver, h]
  cases r <;> rfl

theorem readOver_throughLayer (update : Update) (dst : Value) (input : Bytes) :
    readOver (throughLayer update) dst input = (readOver update dst.target input).map fun r => (.ref r.1, r.2) := by
  cases dst <;> simp only [readOver, throughLayer, Value.target] <;> cases update input _ <;> rfl

theorem readOver_decodeInto_optional (inner : Shape) (d : Depth) (dst : Value) (input : Bytes) :
    readOver (decodeInto (.optional inner) d) dst input = (do
      match ← readAbsentLayers (.optional inner) input with
      | some rest => .ok (.nil, rest)
      | none =>
        let e ← d.enter
        (readOver (decodeInto inner e) dst.target input).map fun r => (.ref r.1, r.2)) := by
  rw [readOver, decodeInto]
  cases readAbsentLayers (.optional inner) input with
  | error e => rfl
  | ok r =>
    cases r with
    | some rest => rfl
    | none =>
      rw [Except.ok_bind]
      dsimp only
      cases d.enter with
      | error e => rfl
      | ok e => exact readOver_throughLayer (decodeInto inner e) dst input

theorem readField_eq (field : String → Option Update) (p : Payload) (i : Nat) (fields : List (String × Value))
    (input : Bytes) : readField field p i fields input = (do
      let r ← (readStr input).mapError (.within .record (p.position input) (.fieldName i))
      match field r.1 with
      | none => .error (.nested (p.position input) (.fieldName i) (.malformed (.unknownField r.1)))
      | some update =>
        ((readOver update ((fields.lookup r.1).getD .nil) r.2).mapError
          (.within .record (p.position r.2) (.field r.1))).map
          fun u => (Value.putField r.1 u.1 fields, u.2)) := by
  rw [readField]
  cases readStr input with
  | error e => rfl
  | ok r =>
    simp only [Except.ok_mapError, Except.ok_bind]
    cases field r.1 with
    | none => rfl
    | some update =>
      dsimp only [readOver]
      cases update r.2 ((fields.lookup r.1).getD .nil) <;> rfl

end Wire

def DecodesWithin (s : Shape) : Prop :=
  ∀ (d d' : Depth) (dst : Value) (input : Bytes), d.left ≤ d'.left →
    Limited (d.left < s.depth) (d.left = d'.left) d'.limit (readOver (decodeInto s d) dst input)
      (readOver (decodeInto s d') dst input)

theorem DecodesWithin.inside {s : Shape} (h : DecodesWithin s) {d d' e e' : Depth} (hle : d.left ≤ d'.left)
    (he : d.enter = .ok e) (he' : d'.enter = .ok e') {n : Nat} (hn : s.depth ≤ n) (dst : Value)
    (input : Bytes) : Limited (d.left < n + 1) (d.left = d'.left) d'.limit
      (readOver (decodeInto s e) dst input) (readOver (decodeInto s e') dst input) := by
  obtain ⟨-, hl⟩ := Depth.enter_eq_ok_iff.mp he
  obtain ⟨hlimit, hl'⟩ := Depth.enter_eq_ok_iff.mp he'
  rw [hlimit]
  apply (h e e' dst input (by omega)).imp
  · omega
  · omega

theorem decodesWithin_same {s : Shape} {read : Bytes → Except Error (Value × Bytes)}
    (hread : ∀ d input dst, decodeInto s d input dst = replace (read input) dst)
    (h : ∀ input, FailsPlainly (read input)) : DecodesWithin s := by
  intro d d' dst input _
  rw [readOver_of_replace (hread d input dst), readOver_of_replace (hread d' input dst)]
  exact limited_of_failsPlainly (h input)

theorem decodesWithin_seq {elem : Shape} (h : DecodesWithin elem) : DecodesWithin (.seq elem) := by
  intro d d' dst input hle
  rw [readOver_of_replace (decodeInto_seq d input dst elem), readOver_of_replace (decodeInto_seq d' input dst elem)]
  apply (limited_of_failsPlainly (failsPlainly_openPayload _ input)).bind
  rintro ⟨_ | p, rest⟩ _
  · exact .ok _
  · apply Limited.enter hle (fun hz => Depth.left_lt_succ hz) id
    intro e e' he he'
    apply Limited.bind
    · apply limited_eachUnit
      intro i items input
      apply Limited.bind
      · exact (h.inside hle he he' (Nat.le_refl _) .nil input).within _ _ _
      · intro x _
        exact .ok _
    · intro items _
      exact .ok _

theorem decodesWithin_map {key val : Shape} (hk : DecodesWithin key) (hv : DecodesWithin val) :
    DecodesWithin (.map key val) := by
  intro d d' dst input hle
  rw [readOver_of_replace (decodeInto_map d input dst key val),
    readOver_of_replace (decodeInto_map d' input dst key val)]
  rw [Shape.checkKey]
  split
  · apply (limited_of_failsPlainly (failsPlainly_openPayload _ input)).bind
    rintro ⟨_ | p, rest⟩ _
    · exact .ok _
    · apply Limited.enter hle (fun hz => Depth.left_lt_succ hz) id
      intro e e' he he'
      apply Limited.bind
      · apply limited_eachUnit
        intro i pairs input
        apply Limited.bind
        · exact (hk.inside hle he he' (Nat.le_max_left _ _) .nil input).within _ _ _
        · intro x _
          apply Limited.bind
          · exact (hv.inside hle he he' (Nat.le_max_right _ _) .nil x.2).within _ _ _
          · intro y _
            exact .ok _
      · intro pairs _
        exact .ok _
  · exact .failure rfl

theorem decodesWithin_record {known : List (String × Shape)} (h : ∀ f ∈ known, DecodesWithin f.2) :
    DecodesWithin (.record known) := by
  intro d d' dst input hle
  rw [readOver_of_replace (decodeInto_record d input dst known),
    readOver_of_replace (decodeInto_record d' input dst known)]
  apply (limited_of_failsPlainly (failsPlainly_openPayload _ input)).bind
  rintro ⟨_ | p, rest⟩ _
  · exact .ok _
  · apply Limited.enter hle (fun hz => Depth.left_lt_succ hz) id
    intro e e' he he'
    apply Limited.bind
    · apply limited_eachUnit
      intro i fields input
      rw [readField_eq, readField_eq]
      apply ((limited_of_failsPlainly (failsPlainly_readStr input)).within _ _ _).bind
      rintro ⟨name, after⟩ _
      dsimp only
      rw [decodeField_eq, decodeField_eq]
      cases ht : known.lookup name with
      | none => exact .failure rfl
      | some t =>
        have hmem := mem_of_lookup ht
        have hdepth := Shape.depthFields_le_iff.mp (Nat.le_refl _) _ hmem
        exact (((h _ hmem).inside hle he he' hdepth _ after).within _ _ _).map _
    · intro fields _
      exact .ok _

theorem decodesWithin_optional {inner : Shape} (h : DecodesWithin inner) : DecodesWithin (.optional inner) := by
  intro d d' dst input hle
  rw [readOver_decodeInto_optional, readOver_decodeInto_optional]
  apply (limited_of_failsPlainly (failsPlainly_readAbsentLayers _ input)).bind
  intro x _
  cases x with
  | some rest => exact .ok _
  | none =>
    apply Limited.enter hle (fun hz => Depth.left_lt_succ hz) id
    intro e e' he he'
    exact (h.inside hle he he' (Nat.le_refl _) dst.target input).map _

theorem decodesWithin (s : Shape) : DecodesWithin s := by
  induction s with
  | bool => exact decodesWithin_same decodeInto_bool fun input => (failsPlainly_readBool input).map _
  | int kind =>
    exact decodesWithin_same (fun d input dst => decodeInto_int d input dst kind) (failsPlainly_readInteger kind)
  | str => exact decodesWithin_same decodeInto_str fun input => (failsPlainly_readStr input).map _
  | blob => exact decodesWithin_same decodeInto_blob failsPlainly_readContent
  | seq elem ih => exact decodesWithin_seq ih
  | map key val ihk ihv => exact decodesWithin_map ihk ihv
  | record known ih => exact decodesWithin_record ih
  | optional inner ih => exact decodesWithin_optional ih

theorem limited_decodeValue {c c' : Config} (hd : c.maxDepth ≤ c'.maxDepth) (s : Shape) (data : Bytes) :
    Limited (c.maxDepth < s.depth) (c.maxDepth = c'.maxDepth) c'.maxDepth (decodeValue c s data)
      (decodeValue c' s data) := by
  rw [decodeValue_eq, decodeValue_eq]
  exact (decodesWithin s (.upTo c.maxDepth) (.upTo c'.maxDepth) .nil data hd).map _

theorem decodeValueInto_eq_readOver (c : Config) (s : Shape) (data : Bytes) (dst : Value) :
    decodeValueInto c s data dst = match readOver (decodeInto s (.upTo c.maxDepth)) dst data with
      | .ok (v, rest) => .ok (data.length - rest.length) v
      | .error e => .error e dst := by
  have herr := @decodeValueInto_eq_error c s data dst
  rw [decodeValueInto_eq] at herr ⊢
  rw [readOver]
  cases hd : decodeInto s (.upTo c.maxDepth) data dst with
  | ok rest v => rfl
  | error e v =>
    rw [hd] at herr
    dsimp only
    rw [herr rfl]

def ExceedsInto (r : EStateM.Result Error Value Nat) : Prop :=
  ∃ e dst, r = .error e dst ∧ e.kind = .parseLimit

theorem decodeValueInto_of_not_exceeds {c c' : Config} (hd : c.maxDepth ≤ c'.maxDepth) {s : Shape} {data : Bytes}
    {dst : Value} (h : ¬ ExceedsInto (decodeValueInto c s data dst)) :
    decodeValueInto c' s data dst = decodeValueInto c s data dst := by
  rw [decodeValueInto_eq_readOver] at h ⊢
  rw [decodeValueInto_eq_readOver,
    (decodesWithin s (.upTo c.maxDepth) (.upTo c'.maxDepth) dst data hd).eq_of_not_exceeds]
  rintro ⟨e, he, hk⟩
  rw [he] at h
  exact h ⟨e, dst, rfl, hk⟩

theorem not_exceedsInto {c : Config} {s : Shape} (h : s.depth ≤ c.maxDepth) (data : Bytes) (dst : Value) :
    ¬ ExceedsInto (decodeValueInto c s data dst) := by
  have hover := (decodesWithin s (.upTo c.maxDepth) (.upTo c.maxDepth) dst data (Nat.le_refl _)).not_exceeds
    (Nat.not_lt.mpr h)
  rw [decodeValueInto_eq_readOver]
  rintro ⟨e, dst', he, hk⟩
  cases hr : readOver (decodeInto s (.upTo c.maxDepth)) dst data with
  | ok r =>
    rw [hr] at he
    cases he
  | error e' =>
    rw [hr] at he
    cases he
    exact hover ⟨_, hr, hk⟩

end ShapeCodec
