import ShapeCodec.Proofs.TypedData

namespace ShapeCodec

namespace Value

@[induction_eliminator]
theorem induct {motive : Value → Prop} (nil : motive .nil) (ref : ∀ v, motive v → motive (.ref v))
    (bool : ∀ b, motive (.bool b)) (int : ∀ n, motive (.int n)) (str : ∀ s, motive (.str s))
    (blob : ∀ content, motive (.blob content)) (seq : ∀ items, (∀ v ∈ items, motive v) → motive (.seq items))
    (map : ∀ pairs, (∀ p ∈ pairs, motive p.1) → (∀ p ∈ pairs, motive p.2) → motive (.map pairs))
    (record : ∀ fields, (∀ f ∈ fields, motive f.2) → motive (.record fields)) : ∀ v, motive v := fun v =>
  Value.rec (motive_1 := motive) (motive_2 := fun items => ∀ v ∈ items, motive v)
    (motive_3 := fun pairs => (∀ p ∈ pairs, motive p.1) ∧ ∀ p ∈ pairs, motive p.2)
    (motive_4 := fun fields => ∀ f ∈ fields, motive f.2) (motive_5 := fun p => motive p.1 ∧ motive p.2)
    (motive_6 := fun f => motive f.2)
    nil ref bool int str blob seq (fun pairs h => map pairs h.1 h.2) record
    (fun _ h => nomatch h)
    (fun _ _ head tail => List.forall_mem_cons.mpr ⟨head, tail⟩)
    ⟨fun _ h => (nomatch h), fun _ h => (nomatch h)⟩
    (fun _ _ head tail => ⟨List.forall_mem_cons.mpr ⟨head.1, tail.1⟩, List.forall_mem_cons.mpr ⟨head.2, tail.2⟩⟩)
    (fun _ h => nomatch h)
    (fun _ _ head tail => List.forall_mem_cons.mpr ⟨head, tail⟩)
    (fun _ _ hk hv => ⟨hk, hv⟩)
    (fun _ _ h => h) v

mutual

/-- The value with maps in the place of all records, and nothing in the place of all absent blobs. -/
def erase : Value → Value
  | .nil | .blob none => .nil
  | .ref v => .ref v.erase
  | .bool b => .bool b
  | .int n => .int n
  | .str s => .str s
  | .blob (some bs) => .blob (some bs)
  | .seq items => .seq (eraseItems items)
  | .map pairs => .map (erasePairs pairs)
  | .record fields => .map (eraseFields fields)

def eraseItems : List Value → List Value
  | [] => []
  | v :: items => v.erase :: eraseItems items

def erasePairs : List (Value × Value) → List (Value × Value)
  | [] => []
  | (k, v) :: pairs => (k.erase, v.erase) :: erasePairs pairs

def eraseFields : List (String × Value) → List (Value × Value)
  | [] => []
  | (name, v) :: fields => (.str name, v.erase) :: eraseFields fields

end

inductive Plain : Value → Prop
  | nil : Plain .nil
  | ref {v : Value} : Plain v → Plain (.ref v)
  | bool (b : Bool) : Plain (.bool b)
  | int (n : Integer) : Plain (.int n)
  | str (s : String) : Plain (.str s)
  | blob (bs : Bytes) : Plain (.blob (some bs))
  | seq {items : List Value} : (∀ v ∈ items, Plain v) → Plain (.seq items)
  | map {pairs : List (Value × Value)} : (∀ p ∈ pairs, Plain p.1) → (∀ p ∈ pairs, Plain p.2) → Plain (.map pairs)

theorem eraseItems_eq (items : List Value) : eraseItems items = items.map erase := by
  induction items with
  | nil => rfl
  | cons v items ih => rw [eraseItems, ih, List.map_cons]

theorem erasePairs_eq (pairs : List (Value × Value)) :
    erasePairs pairs = pairs.map fun p => (p.1.erase, p.2.erase) := by
  induction pairs with
  | nil => rfl
  | cons p pairs ih => rw [erasePairs, ih, List.map_cons]

theorem eraseFields_eq (fields : List (String × Value)) :
    eraseFields fields = fields.map fun f => (.str f.1, f.2.erase) := by
  induction fields with
  | nil => rfl
  | cons f fields ih => rw [eraseFields, ih, List.map_cons]

theorem plain_erase (v : Value) : v.erase.Plain := by
  induction v with
  | nil => exact .nil
  | ref v ih => exact .ref ih
  | bool b => exact .bool b
  | int n => exact .int n
  | str s => exact .str s
  | blob content =>
    cases content with
    | none => exact .nil
    | some bs => exact .blob bs
  | seq items ih =>
    rw [erase, eraseItems_eq]
    exact .seq (List.forall_mem_map.mpr ih)
  | map pairs ihk ihv =>
    rw [erase, erasePairs_eq]
    exact .map (List.forall_mem_map.mpr ihk) (List.forall_mem_map.mpr ihv)
  | record fields ih =>
    rw [erase, eraseFields_eq]
    exact .map (List.forall_mem_map.mpr fun f _ => .str f.1) (List.forall_mem_map.mpr ih)

theorem Plain.erase_eq {v : Value} (h : v.Plain) : v.erase = v := by
  induction h with
  | seq h ih =>
    rw [erase, eraseItems_eq, List.map_congr_left ih, List.map_id']
  | @map pairs hk hv ihk ihv =>
    have hp : ∀ p ∈ pairs, (p.1.erase, p.2.erase) = p := fun p hp => Prod.ext (ihk p hp) (ihv p hp)
    rw [erase, erasePairs_eq, List.map_congr_left hp, List.map_id']
  | ref h ih => rw [erase, ih]
  | _ => rfl

theorem erase_eq_self_iff {v : Value} : v.erase = v ↔ v.Plain :=
  ⟨fun h => h ▸ v.plain_erase, Plain.erase_eq⟩

end Value

namespace Datum

mutual

def dynamic? : Datum → Option Value
  | .absent => some .nil
  | .present d => d.dynamic?.map .ref
  | .bool b => some (.bool b)
  | .int n => some (.int n)
  | .str s => some (.str s)
  | .bytes bs => some (.blob (some bs))
  | .seq items => (dynamicItems? items).map .seq
  | .map pairs => (dynamicPairs? pairs).map .map
  | _ => none

def dynamicItems? : List Datum → Option (List Value)
  | [] => some []
  | d :: items => do some ((← d.dynamic?) :: (← dynamicItems? items))

def dynamicPairs? : List (Datum × Datum) → Option (List (Value × Value))
  | [] => some []
  | (k, d) :: pairs => do some ((← k.dynamic?, ← d.dynamic?) :: (← dynamicPairs? pairs))

end

theorem ofItems_eq (items : List Value) : ofItems items = items.map ofValue := by
  induction items with
  | nil => rfl
  | cons v items ih => rw [ofItems, ih, List.map_cons]

theorem ofPairs_eq (pairs : List (Value × Value)) : ofPairs pairs = pairs.map fun p => (ofValue p.1, ofValue p.2) := by
  induction pairs with
  | nil => rfl
  | cons p pairs ih => rw [ofPairs, ih, List.map_cons]

theorem ofFields_eq (fields : List (String × Value)) :
    ofFields fields = fields.map fun f => (.str f.1, ofValue f.2) := by
  induction fields with
  | nil => rfl
  | cons f fields ih => rw [ofFields, ih, List.map_cons]

section Lists

variable {ι : Type} {xs : List ι}

theorem dynamicItems?_map {f : ι → Datum} {g : ι → Value} (h : ∀ x ∈ xs, (f x).dynamic? = some (g x)) :
    dynamicItems? (xs.map f) = some (xs.map g) := by
  induction xs with
  | nil => rfl
  | cons x xs ih =>
    obtain ⟨hx, hxs⟩ := List.forall_mem_cons.mp h
    rw [List.map_cons, dynamicItems?, hx, ih hxs]
    rfl

theorem dynamicPairs?_map {f : ι → Datum × Datum} {g : ι → Value × Value}
    (hk : ∀ x ∈ xs, (f x).1.dynamic? = some (g x).1) (hv : ∀ x ∈ xs, (f x).2.dynamic? = some (g x).2) :
    dynamicPairs? (xs.map f) = some (xs.map g) := by
  induction xs with
  | nil => rfl
  | cons x xs ih =>
    obtain ⟨hkx, hkxs⟩ := List.forall_mem_cons.mp hk
    obtain ⟨hvx, hvxs⟩ := List.forall_mem_cons.mp hv
    rw [List.map_cons, dynamicPairs?, hkx, hvx, ih hkxs hvxs]
    rfl

end Lists

theorem dynamic?_ofValue (v : Value) : (ofValue v).dynamic? = some v.erase := by
  induction v with
  | nil | bool | int | str => rfl
  | ref v ih => rw [ofValue, dynamic?, ih, Option.map_some, Value.erase]
  | blob content => cases content <;> rfl
  | seq items ih =>
    rw [ofValue, ofItems_eq, dynamic?, dynamicItems?_map ih, Option.map_some, Value.erase, Value.eraseItems_eq]
  | map pairs ihk ihv =>
    have hp : dynamicPairs? (pairs.map fun p => (ofValue p.1, ofValue p.2)) =
        some (pairs.map fun p => (p.1.erase, p.2.erase)) := dynamicPairs?_map ihk ihv
    rw [ofValue, ofPairs_eq, dynamic?, hp, Option.map_some, Value.erase, Value.erasePairs_eq]
  | record fields ih =>
    have hf : dynamicPairs? (fields.map fun f => (.str f.1, ofValue f.2)) =
        some (fields.map fun f => (.str f.1, f.2.erase)) := dynamicPairs?_map (fun _ _ => rfl) ih
    rw [ofValue, ofFields_eq, dynamic?, hf, Option.map_some, Value.erase, Value.eraseFields_eq]

theorem toValue_ofValue (v : Value) : (ofValue v).toValue = .ok v.erase := by
  induction v with
  | nil | bool | int | str => rfl
  | ref v ih => rw [ofValue, toValue, ih, Except.ok_map, Value.erase]
  | blob content => cases content <;> rfl
  | seq items ih =>
    rw [ofValue, ofItems_eq, toValue, toItems_map ih, Except.ok_map, Value.erase, Value.eraseItems_eq]
  | map pairs ihk ihv =>
    have hp : toPairs (pairs.map fun p => (ofValue p.1, ofValue p.2)) =
        .ok (pairs.map fun p => (p.1.erase, p.2.erase)) := toPairs_map ihk ihv
    rw [ofValue, ofPairs_eq, toValue, hp, Except.ok_map, Value.erase, Value.erasePairs_eq]
  | record fields ih =>
    have hf : toPairs (fields.map fun f => (.str f.1, ofValue f.2)) =
        .ok (fields.map fun f => (.str f.1, f.2.erase)) := toPairs_map (fun _ _ => rfl) ih
    rw [ofValue, ofFields_eq, toValue, hf, Except.ok_map, Value.erase, Value.eraseFields_eq]

end Datum

namespace Value

open Reading

theorem read_value (env : Env) (v : Value) : v.read env .value = .ok (Datum.ofValue v) := by
  induction v with
  | nil | bool | int | str => rfl
  | ref v ih => exact congrArg (Except.map Datum.present) ih
  | blob content => cases content <;> rfl
  | seq items ih =>
    have hi : (itemReadings env items).mapM (fun (item : Reading) => item .value) =
        .ok (items.map Datum.ofValue) := by
      rw [itemReadings_eq]
      exact Except.mapM_map_eq_ok ih
    rw [Datum.ofValue, Datum.ofItems_eq]
    exact congrArg (Except.map Datum.seq) hi
  | map pairs ihk ihv =>
    rw [Datum.ofValue, Datum.ofPairs_eq]
    change readPairs .value .value (pairEntries env pairs) = _
    rw [pairEntries_eq]
    exact readPairs_map ihk ihv
  | record fields ih =>
    rw [Datum.ofValue, Datum.ofFields_eq]
    change readPairs .value .value (fieldEntries env fields) = _
    rw [fieldEntries_eq]
    exact readPairs_map (fun _ _ => rfl) ih

/-- A dynamic value is written as data, and read as its own type, without fail and with the same outcome. This
is the value itself exactly if there are no records and no absent blobs in it, and always one that is not
changed again. -/
theorem read_as_erased (v : Value) :
    (Datum.ofValue v).toValue = .ok v.erase ∧
    (∃ d, v.toDatum .value = .ok d ∧ d.dynamic? = some v.erase) ∧
    (v.erase = v ↔ v.Plain) ∧ v.erase.Plain ∧ v.erase.erase = v.erase :=
  ⟨Datum.toValue_ofValue v, ⟨_, read_value _ v, Datum.dynamic?_ofValue v⟩, erase_eq_self_iff, plain_erase v,
    (plain_erase v).erase_eq⟩

example : (record [("a", .blob none), ("a", .ref (.bool true))]).erase =
    map [(.str "a", .nil), (.str "a", .ref (.bool true))] :=
  rfl

end Value

end ShapeCodec
