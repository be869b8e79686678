import ShapeCodec.Config
import ShapeCodec.Proofs.Overlay
import ShapeCodec.Proofs.PairTables

namespace ShapeCodec

open Wire

theorem Depth.enter_of_pos {d : Depth} (h : 0 < d.left) : d.enter = .ok ⟨d.limit, d.left - 1⟩ :=
  Depth.enter_eq_ok_iff.mpr ⟨rfl, by dsimp only; omega⟩

namespace Wire

theorem eachUnit_invariant {σ : Type} {read : Nat → σ → Bytes → Except Error (σ × Bytes)}
    {P : σ → Bytes → Prop}
    (hstep : ∀ i s input s' rest, P s input → read i s input = .ok (s', rest) →
      rest.length < input.length ∧ P s' rest)
    {fuel i : Nat} {s s' : σ} {input : Bytes} (hf : input.length ≤ fuel) (hP : P s input)
    (h : eachUnit read fuel i s input = .ok s') : P s' [] := by
  induction fuel generalizing i s input with
  | zero =>
    obtain rfl := List.eq_nil_of_length_eq_zero (Nat.le_zero.mp hf)
    cases h
    exact hP
  | succ fuel ih =>
    cases input with
    | nil => cases h; exact hP
    | cons b input =>
      obtain ⟨⟨t, rest⟩, hr, ht⟩ := Except.bind_eq_ok.mp h
      obtain ⟨hlt, hPt⟩ := hstep i s (b :: input) t rest hP hr
      rw [List.length_cons] at hf hlt
      exact ih (by omega) hPt ht

theorem fold_invariant {σ : Type} {p : Payload} {read : Nat → σ → Bytes → Except Error (σ × Bytes)}
    {P : σ → Bytes → Prop}
    (hstep : ∀ i s input s' rest, P s input → read i s input = .ok (s', rest) →
      rest.length < input.length ∧ P s' rest)
    {s s' : σ} (hP : P s p.bytes) (h : p.fold read s = .ok s') : P s' [] :=
  eachUnit_invariant hstep (Nat.le_refl _) hP h

theorem replace_eq_ok {r : Except Error (Value × Bytes)} {dst v : Value} {rest : Bytes} :
    replace r dst = .ok rest v ↔ r = .ok (v, rest) := by
  rcases r with e | ⟨w, after⟩
  · simp [replace]
  · simp [replace, and_comm]

theorem readItem_eq_ok {elem : Update} {p : Payload} {i : Nat} {items items' : Array Value}
    {input rest : Bytes} (h : readItem elem p i items input = .ok (items', rest)) :
    ∃ v, fresh elem input = .ok (v, rest) ∧ items' = items.push v := by
  obtain ⟨⟨v, after⟩, hv, h'⟩ := Except.bind_eq_ok.mp h
  cases h'
  exact ⟨v, Except.mapError_eq_ok.mp hv, rfl⟩

theorem readField_eq_ok {field : String → Option Update} {p : Payload} {i : Nat}
    {fields fields' : List (String × Value)} {input rest : Bytes}
    (h : readField field p i fields input = .ok (fields', rest)) :
    ∃ name mid update v, readStr input = .ok (name, mid) ∧ field name = some update ∧
      update mid ((fields.lookup name).getD .nil) = .ok rest v ∧ fields' = put name v fields := by
  obtain ⟨⟨name, mid⟩, hn, h'⟩ := Except.bind_eq_ok.mp h
  dsimp only at h'
  cases hf : field name with
  | none => rw [hf] at h'; cases h'
  | some update =>
    rw [hf] at h'
    dsimp only at h'
    cases hu : update mid ((fields.lookup name).getD .nil) with
    | error e w => rw [hu] at h'; cases h'
    | ok after v =>
      rw [hu] at h'
      cases h'
      exact ⟨name, mid, update, v, Except.mapError_eq_ok.mp hn, hf, hu, putField_eq_put name v fields⟩

theorem throughLayer_eq_ok {update : Update} {input rest : Bytes} {dst v : Value} :
    throughLayer update input dst = .ok rest v ↔
      ∃ w, update input dst.target = .ok rest w ∧ .ref w = v := by
  cases dst <;> simp only [throughLayer, Value.target] <;> cases update input _ <;> simp

theorem fresh_of_replace {update : Update} {input : Bytes} {r : Except Error (Value × Bytes)}
    (h : update input .nil = replace r .nil) : fresh update input = r := by
  rw [fresh, h]
  cases r <;> rfl

theorem fresh_throughLayer (update : Update) (input : Bytes) :
    fresh (throughLayer update) input = (fresh update input).map fun r => (.ref r.1, r.2) := by
  simp only [fresh, throughLayer]
  cases update input .nil <;> rfl

end Wire

section Shapes

variable (d : Depth) (input : Bytes) (dst : Value)

def readInteger (kind : IntKind) (input : Bytes) : Except Error (Value × Bytes) := do
  let r ← readInt input
  match kind.ofBits? r.1 with
  | some n => .ok (.int n, r.2)
  | none => .error (.invalidType (.outOfRange r.1.toInt kind))

def readContent (input : Bytes) : Except Error (Value × Bytes) := do
  match ← readAbsent input with
  | some rest => .ok (.blob none, rest)
  | none => (readBlob input).map fun r => (.blob r.1, r.2)

theorem decodeInto_bool :
    decodeInto .bool d input dst = replace ((readBool input).map fun r => (.bool r.1, r.2)) dst := by
  rw [decodeInto]

theorem decodeInto_int (kind : IntKind) :
    decodeInto (.int kind) d input dst = replace (readInteger kind input) dst := by
  rw [decodeInto]
  rfl

theorem decodeInto_str :
    decodeInto .str d input dst = replace ((readStr input).map fun r => (.str r.1, r.2)) dst := by
  rw [decodeInto]

theorem decodeInto_blob : decodeInto .blob d input dst = replace (readContent input) dst := by
  rw [decodeInto]
  rfl

theorem decodeInto_seq (elem : Shape) :
    decodeInto (.seq elem) d input dst = replace (readSeq d (decodeInto elem) input) dst := by
  rw [decodeInto]

theorem decodeInto_map (key val : Shape) :
    decodeInto (.map key val) d input dst =
      replace (key.checkKey >>= fun _ => readPairList d (decodeInto key) (decodeInto val) input) dst := by
  simp only [decodeInto, readMap_eq]

theorem decodeInto_record (known : List (String × Shape)) :
    decodeInto (.record known) d input dst =
      replace (readRecord d (decodeField known) dst.fields input) dst := by
  rw [decodeInto]

end Shapes

theorem decodeField_eq (known : List (String × Shape)) (d : Depth) (name : String) :
    decodeField known d name = (known.lookup name).map fun s => decodeInto s d := by
  induction known with
  | nil => rfl
  | cons f known ih =>
    obtain ⟨n, s⟩ := f
    rw [decodeField, lookup_cons_eq, ih]
    split <;> rfl

theorem fresh_decodeInto_optional (inner : Shape) (d : Depth) (input : Bytes) :
    fresh (decodeInto (.optional inner) d) input = (do
      match ← readAbsentLayers (.optional inner) input with
      | some rest => .ok (.nil, rest)
      | none =>
        let e ← d.enter
        (fresh (decodeInto inner e) input).map fun r => (.ref r.1, r.2)) := by
  rw [fresh, decodeInto]
  cases readAbsentLayers (.optional inner) input with
  | error e => rfl
  | ok r =>
    cases r with
    | some rest => rfl
    | none =>
      rw [Except.ok_bind]
      dsimp only
      cases d.enter with
      | error e => rfl
      | ok e => exact fresh_throughLayer (decodeInto inner e) input

theorem decodeValueInto_eq (c : Config) (s : Shape) (input : Bytes) (dst : Value) :
    decodeValueInto c s input dst =
      match decodeInto s (.upTo c.maxDepth) input dst with
      | .ok rest v => .ok (input.length - rest.length) v
      | .error e v => .error e v := by
  rw [decodeValueInto]
  change EStateM.bind _ _ dst = _
  rw [EStateM.bind]
  cases decodeInto s (.upTo c.maxDepth) input dst <;> rfl

theorem decodeValue_eq (c : Config) (s : Shape) (input : Bytes) :
    decodeValue c s input =
      (fresh (decodeInto s (.upTo c.maxDepth)) input).map fun r => (r.1, input.length - r.2.length) := by
  rw [decodeValue, decodeValueInto_eq, fresh]
  cases decodeInto s (.upTo c.maxDepth) input .nil <;> rfl

end ShapeCodec
