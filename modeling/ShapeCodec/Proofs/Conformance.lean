import ShapeCodec.Encoding
import ShapeCodec.Proofs.KeyOrder
import ShapeCodec.Proofs.ShapeParts
import Mathlib.Logic.Basic

namespace ShapeCodec

open Wire

namespace Value

mutual

def depth : Value → Nat
  | .ref v => v.depth + 1
  | .seq items => depthItems items + 1
  | .map pairs => depthPairs pairs + 1
  | .record fields => depthFields fields + 1
  | .nil | .bool _ | .int _ | .str _ | .blob _ => 0

def depthItems : List Value → Nat
  | [] => 0
  | v :: items => max v.depth (depthItems items)

def depthPairs : List (Value × Value) → Nat
  | [] => 0
  | (k, v) :: pairs => max (max k.depth v.depth) (depthPairs pairs)

def depthFields : List (String × Value) → Nat
  | [] => 0
  | (_, v) :: fields => max v.depth (depthFields fields)

end

theorem depthItems_le_iff {items : List Value} {n : Nat} :
    depthItems items ≤ n ↔ ∀ v ∈ items, v.depth ≤ n := by
  induction items with
  | nil => simp [depthItems]
  | cons v items ih => rw [depthItems, Nat.max_le, ih, List.forall_mem_cons]

theorem depthPairs_le_iff {pairs : List (Value × Value)} {n : Nat} :
    depthPairs pairs ≤ n ↔ ∀ p ∈ pairs, p.1.depth ≤ n ∧ p.2.depth ≤ n := by
  induction pairs with
  | nil => simp [depthPairs]
  | cons p pairs ih => rw [depthPairs, Nat.max_le, Nat.max_le, ih, List.forall_mem_cons]

theorem depthFields_le_iff {fields : List (String × Value)} {n : Nat} :
    depthFields fields ≤ n ↔ ∀ f ∈ fields, f.2.depth ≤ n := by
  induction fields with
  | nil => simp [depthFields]
  | cons f fields ih => rw [depthFields, Nat.max_le, ih, List.forall_mem_cons]

end Value

namespace Shape

mutual

/-- The value is one of the shape: keys of maps and names of fields are not repeated, and every
absent part is one that may be absent. -/
def Conforms : Shape → Value → Prop
  | .bool, v => ∃ b, v = .bool b
  | .int kind, v => ∃ n, v = .int n ∧ kind.contains n
  | .str, v => ∃ s, v = .str s
  | .blob, v => v = .nil ∨ ∃ content, v = .blob content
  | .seq elem, v => v = .nil ∨ ∃ items, v = .seq items ∧ ∀ w ∈ items, elem.Conforms w
  | .map key val, v => key.isOrderable ∧ (v = .nil ∨ ∃ pairs, v = .map pairs ∧
      (pairs.map (·.1)).Nodup ∧ ∀ p ∈ pairs, key.Conforms p.1 ∧ val.Conforms p.2)
  | .record known, v => v = .nil ∨ ∃ fields, v = .record fields ∧
      (fields.map (·.1)).Nodup ∧ ∀ f ∈ fields, ConformsField known f.1 f.2
  | .optional inner, v => v = .nil ∨ ∃ w, v = .ref w ∧ inner.Conforms w

def ConformsField : List (String × Shape) → String → Value → Prop
  | [], _, _ => False
  | (n, s) :: known, name, v => if n = name then s.Conforms v else ConformsField known name v

end

theorem conformsField_iff {known : List (String × Shape)} {name : String} {v : Value} :
    ConformsField known name v ↔ ∃ s, known.lookup name = some s ∧ s.Conforms v := by
  induction known with
  | nil => simp [ConformsField]
  | cons f known ih =>
    obtain ⟨n, s⟩ := f
    rw [lookup_cons_eq, ConformsField]
    split
    · simp
    · exact ih

theorem isKeyOf_of_conforms {key : Shape} {k : Value} (ho : key.isOrderable) (h : key.Conforms k) :
    k.isKeyOf key := by
  cases key <;> simp only [isOrderable, Bool.false_eq_true] at ho
  · obtain ⟨b, rfl⟩ := h; rfl
  · obtain ⟨n, rfl, -⟩ := h; rfl
  · obtain ⟨s, rfl⟩ := h; rfl

end Shape

mutual

def encoding : Shape → Value → Bytes
  | .optional inner, v =>
    match v with
    | .nil => writeNil (inner.layers + 1)
    | .ref w => encoding inner w
    | _ => []
  | .bool, v =>
    match v with
    | .bool b => writeBool b
    | _ => []
  | .int _, v =>
    match v with
    | .int n => writeInt n.bits
    | _ => []
  | .str, v =>
    match v with
    | .str s => writeStr s
    | _ => []
  | .blob, v =>
    match v with
    | .blob content => writeCounted content
    | _ => writeCounted none
  | .seq elem, v =>
    match v with
    | .seq items => writeCounted (some (items.flatMap (encoding elem)))
    | _ => writeCounted none
  | .map key val, v =>
    match v with
    | .map pairs => writeCounted (some ((sortPairs pairs).flatMap fun p =>
        encoding key p.1 ++ encoding val p.2))
    | _ => writeCounted none
  | .record known, v =>
    match v with
    | .record fields => writeCounted (some (encodingFields fields known))
    | _ => writeCounted none

def encodingFields (fields : List (String × Value)) : List (String × Shape) → Bytes
  | [] => []
  | (name, s) :: known =>
    match fields.lookup name with
    | none => encodingFields fields known
    | some v => writeStr name ++ encoding s v ++ encodingFields fields known

end

theorem Depth.enter_eq_ok_iff {d e : Depth} :
    d.enter = .ok e ↔ d.limit = e.limit ∧ d.left = e.left + 1 := by
  obtain ⟨limit, left⟩ := d
  obtain ⟨limit', left'⟩ := e
  cases left <;> simp [Depth.enter]

theorem writeEach_eq_ok_iff {α : Type} (P : α → Prop) (code : α → Bytes)
    {write : Nat → Nat → α → Except Error Bytes} {xs : List α}
    (h : ∀ x ∈ xs, ∀ i pos b, write i pos x = .ok b ↔ P x ∧ b = code x) {i pos : Nat} {b : Bytes} :
    writeEach write i pos xs = .ok b ↔ (∀ x ∈ xs, P x) ∧ b = xs.flatMap code := by
  induction xs generalizing i pos b with
  | nil => simp [writeEach, eq_comm]
  | cons x xs ih =>
    have hx := h x List.mem_cons_self
    have ih := @ih fun y hy => h y (List.mem_cons_of_mem _ hy)
    rw [writeEach, Except.bind_eq_ok, List.forall_mem_cons, List.flatMap_cons]
    constructor
    · rintro ⟨part, hp, hr⟩
      obtain ⟨parts, hps, hb⟩ := Except.bind_eq_ok.mp hr
      obtain ⟨hPx, rfl⟩ := (hx i pos part).mp hp
      obtain ⟨hPs, rfl⟩ := ih.mp hps
      cases hb
      exact ⟨⟨hPx, hPs⟩, rfl⟩
    · rintro ⟨⟨hPx, hPs⟩, rfl⟩
      refine ⟨code x, (hx i pos _).mpr ⟨hPx, rfl⟩, ?_⟩
      rw [ih.mpr ⟨hPs, rfl⟩, Except.ok_bind]

theorem checkFields_eq_ok_iff {known before : List String} {fields : List (String × Value)} :
    checkFields known before fields = .ok () ↔
      (∀ f ∈ fields, f.1 ∈ known ∧ f.1 ∉ before) ∧ (fields.map (·.1)).Nodup := by
  induction fields generalizing before with
  | nil => simp [checkFields]
  | cons f fields ih =>
    obtain ⟨name, v⟩ := f
    rw [checkFields, List.forall_mem_cons, List.map_cons, List.nodup_cons]
    by_cases hk : name ∈ known
    · by_cases hb : name ∈ before
      · simp [hk, hb]
      · rw [if_neg (by simpa using hk), if_neg (by simpa using hb), ih]
        constructor
        · rintro ⟨hf, hn⟩
          refine ⟨⟨⟨hk, hb⟩, fun f hm => ⟨(hf f hm).1, fun h => (hf f hm).2 ?_⟩⟩, ?_, hn⟩
          · exact List.mem_cons_of_mem _ h
          · intro hm
            obtain ⟨g, hg, hname⟩ := List.mem_map.mp hm
            exact (hf g hg).2 (hname ▸ List.mem_cons_self)
        · rintro ⟨⟨-, hf⟩, hm, hn⟩
          refine ⟨fun f hf' => ⟨(hf f hf').1, fun h => ?_⟩, hn⟩
          rcases List.mem_cons.mp h with hname | h
          · exact hm (List.mem_map.mpr ⟨f, hf', hname⟩)
          · exact (hf f hf').2 h
    · simp [hk]

theorem encodeFields_eq_ok_iff {d : Depth} {known : List (String × Shape)} (P : Shape → Value → Prop)
    (fields : List (String × Value))
    (h : ∀ f ∈ known, ∀ v, fields.lookup f.1 = some v → ∀ b,
      encode d f.2 v = .ok b ↔ P f.2 v ∧ b = encoding f.2 v) (pos : Nat) {b : Bytes} :
    encodeFields d fields pos known = .ok b ↔
      (∀ f ∈ known, ∀ v, fields.lookup f.1 = some v → P f.2 v) ∧ b = encodingFields fields known := by
  induction known generalizing pos b with
  | nil => simp [encodeFields, encodingFields, eq_comm]
  | cons f known ih =>
    obtain ⟨name, s⟩ := f
    have hs := h (name, s) List.mem_cons_self
    have ih := ih fun g hg => h g (List.mem_cons_of_mem _ hg)
    rw [encodeFields, encodingFields, List.forall_mem_cons]
    cases hl : fields.lookup name with
    | none => simpa [hl] using ih pos
    | some v =>
      have hs := hs v hl
      dsimp only
      rw [Except.bind_eq_ok]
      constructor
      · rintro ⟨part, hp, hr⟩
        obtain ⟨parts, hps, hb⟩ := Except.bind_eq_ok.mp hr
        obtain ⟨hv, rfl⟩ := (hs part).mp (Except.mapError_eq_ok.mp hp)
        obtain ⟨hPs, rfl⟩ := (ih _).mp hps
        cases hb
        exact ⟨⟨fun w hw => by cases hw; exact hv, hPs⟩, rfl⟩
      · rintro ⟨⟨hv, hPs⟩, rfl⟩
        refine ⟨encoding s v, Except.mapError_eq_ok.mpr ((hs _).mpr ⟨hv v rfl, rfl⟩), ?_⟩
        rw [(ih _).mpr ⟨hPs, rfl⟩, Except.ok_bind]

theorem encodeFields_append_eq_ok {d : Depth} {fields : List (String × Value)}
    {before after : List (String × Shape)} {pos : Nat} {b : Bytes}
    (h : encodeFields d fields pos (before ++ after) = .ok b) :
    ∃ front back, encodeFields d fields pos before = .ok front ∧
      encodeFields d fields (pos + front.length) after = .ok back ∧ b = front ++ back := by
  induction before generalizing pos b with
  | nil => exact ⟨[], b, rfl, h, rfl⟩
  | cons f before ih =>
    obtain ⟨name, s⟩ := f
    rw [List.cons_append, encodeFields] at h
    rw [encodeFields]
    cases hl : fields.lookup name with
    | none =>
      rw [hl] at h
      exact ih h
    | some v =>
      rw [hl] at h
      dsimp only at h ⊢
      obtain ⟨part, hp, h⟩ := Except.bind_eq_ok.mp h
      obtain ⟨parts, hps, hb⟩ := Except.bind_eq_ok.mp h
      obtain ⟨front, back, hf, hbk, rfl⟩ := ih hps
      cases hb
      refine ⟨writeStr name ++ part ++ front, back, ?_, ?_, by simp⟩
      · rw [hp, Except.ok_bind, hf, Except.ok_bind]
      · rw [← hbk]
        congr 1
        simp only [List.length_append]
        omega

theorem forall_lookup_iff {known : List (String × Shape)} {fields : List (String × Value)}
    (hk : (known.map (·.1)).Nodup) (hf : (fields.map (·.1)).Nodup)
    (hn : ∀ f ∈ fields, f.1 ∈ known.map (·.1)) {P : Shape → Value → Prop} :
    (∀ f ∈ known, ∀ v, fields.lookup f.1 = some v → P f.2 v) ↔
      ∀ f ∈ fields, ∃ s, known.lookup f.1 = some s ∧ P s f.2 := by
  constructor
  · intro h f hm
    obtain ⟨s, hs⟩ := exists_lookup_of_mem (hn f hm)
    exact ⟨s, hs, h (f.1, s) (mem_of_lookup hs) f.2 (lookup_of_mem hf hm)⟩
  · intro h f hm v hv
    obtain ⟨s, hs, hP⟩ := h (f.1, v) (mem_of_lookup hv)
    rw [lookup_of_mem hk hm] at hs
    cases hs
    exact hP

theorem enter_counted_eq_ok_iff {d : Depth} {f : Depth → Except Error Bytes} {A : Prop} {m : Nat}
    {code b : Bytes} (h : ∀ e b, f e = .ok b ↔ (A ∧ m ≤ e.left) ∧ b = code) :
    (do let payload ← f (← d.enter); .ok (writeCounted (some payload))) = .ok b ↔
      (A ∧ m + 1 ≤ d.left) ∧ b = writeCounted (some code) := by
  rw [Except.bind_eq_ok]
  constructor
  · rintro ⟨e, he, hr⟩
    obtain ⟨payload, hp, hb⟩ := Except.bind_eq_ok.mp hr
    obtain ⟨⟨hA, hm⟩, rfl⟩ := (h e payload).mp hp
    obtain ⟨-, hl⟩ := Depth.enter_eq_ok_iff.mp he
    cases hb
    exact ⟨⟨hA, by omega⟩, rfl⟩
  · rintro ⟨⟨hA, hm⟩, rfl⟩
    have hl : d.left = (d.left - 1) + 1 := by omega
    refine ⟨⟨d.limit, d.left - 1⟩, Depth.enter_eq_ok_iff.mpr ⟨rfl, hl⟩, ?_⟩
    rw [(h _ code).mpr ⟨⟨hA, by dsimp only; omega⟩, rfl⟩, Except.ok_bind]

theorem writePair_eq_ok_iff {key val : Value → Except Error Bytes} {p : Value × Value} {K V : Prop}
    {kb vb : Bytes} (hk : ∀ b, key p.1 = .ok b ↔ K ∧ b = kb) (hv : ∀ b, val p.2 = .ok b ↔ V ∧ b = vb)
    {i pos : Nat} {b : Bytes} : writePair key val i pos p = .ok b ↔ (K ∧ V) ∧ b = kb ++ vb := by
  rw [writePair, Except.bind_eq_ok]
  constructor
  · rintro ⟨b', hb, hr⟩
    obtain ⟨b'', hb', hr'⟩ := Except.bind_eq_ok.mp hr
    obtain ⟨hK, rfl⟩ := (hk b').mp (Except.mapError_eq_ok.mp hb)
    obtain ⟨hV, rfl⟩ := (hv b'').mp (Except.mapError_eq_ok.mp hb')
    cases hr'
    exact ⟨⟨hK, hV⟩, rfl⟩
  · rintro ⟨⟨hK, hV⟩, rfl⟩
    refine ⟨kb, Except.mapError_eq_ok.mpr ((hk kb).mpr ⟨hK, rfl⟩), ?_⟩
    rw [Except.mapError_eq_ok.mpr ((hv vb).mpr ⟨hV, rfl⟩), Except.ok_bind]

def EncodesConforming (s : Shape) : Prop :=
  ∀ (d : Depth) (v : Value) (b : Bytes),
    encode d s v = .ok b ↔ (s.Conforms v ∧ v.depth ≤ d.left) ∧ b = encoding s v

theorem encodesConforming_seq {elem : Shape} (h : EncodesConforming elem) :
    EncodesConforming (.seq elem) := by
  intro d v b
  cases v with
  | nil => simpa [encode, encoding, Shape.Conforms, Value.depth] using eq_comm
  | seq items =>
    have hp (e : Depth) (b : Bytes) : writeEach (fun i pos w => (encode e elem w).mapError
        (.nested pos (.element i))) 0 0 items = .ok b ↔
        ((∀ w ∈ items, elem.Conforms w) ∧ Value.depthItems items ≤ e.left) ∧
          b = items.flatMap (encoding elem) := by
      rw [writeEach_eq_ok_iff (fun w => elem.Conforms w ∧ w.depth ≤ e.left) (encoding elem),
        Value.depthItems_le_iff, ← forall₂_and]
      intro w hw i pos b
      rw [Except.mapError_eq_ok, h]
    rw [encode, enter_counted_eq_ok_iff hp]
    simp [Shape.Conforms, encoding, Value.depth]
  | _ => simp [encode, Shape.Conforms]

theorem encodesConforming_map {key val : Shape} (hk : EncodesConforming key)
    (hv : EncodesConforming val) : EncodesConforming (.map key val) := by
  intro d v b
  cases v with
  | nil =>
    cases ho : key.isOrderable
    · simp [encode, Shape.checkKey, Shape.Conforms, ho]
    · simpa [encode, encoding, Shape.checkKey, Shape.Conforms, Value.depth, ho] using eq_comm
  | map pairs =>
    have hp (e : Depth) (b : Bytes) :
        writeEach (writePair (encode e key) (encode e val)) 0 0 (sortPairs pairs) = .ok b ↔
        ((∀ p ∈ pairs, key.Conforms p.1 ∧ val.Conforms p.2) ∧ Value.depthPairs pairs ≤ e.left) ∧
          b = (sortPairs pairs).flatMap fun p => encoding key p.1 ++ encoding val p.2 := by
      rw [writeEach_eq_ok_iff (fun p : Value × Value => (key.Conforms p.1 ∧ val.Conforms p.2) ∧
          p.1.depth ≤ e.left ∧ p.2.depth ≤ e.left)
        fun p => encoding key p.1 ++ encoding val p.2]
      · simp only [mem_sortPairs, Value.depthPairs_le_iff, ← forall₂_and]
      · intro p hp i pos b
        rw [writePair_eq_ok_iff (hk e p.1) (hv e p.2)]
        exact and_congr_left fun _ => and_and_and_comm
    constructor
    · intro h
      rw [encode] at h
      obtain ⟨⟨⟩, ho, h⟩ := Except.bind_eq_ok.mp h
      obtain ⟨sorted, hs, h⟩ := Except.bind_eq_ok.mp h
      obtain ⟨-, hn, rfl⟩ := orderPairs_eq_ok_iff.mp hs
      obtain ⟨⟨hc, hd⟩, rfl⟩ := (enter_counted_eq_ok_iff hp).mp h
      exact ⟨⟨⟨Shape.checkKey_eq_ok_iff.mp ho, .inr ⟨pairs, rfl, hn, hc⟩⟩, hd⟩, rfl⟩
    · rintro ⟨⟨⟨ho, he⟩, hd⟩, rfl⟩
      obtain ⟨_, ⟨⟩, hn, hc⟩ := he.resolve_left nofun
      have hi : ∀ p ∈ pairs, p.1.isKeyOf key := fun p hp =>
        Shape.isKeyOf_of_conforms ho (hc p hp).1
      rw [encode, Shape.checkKey_eq_ok_iff.mpr ho, Except.ok_bind,
        orderPairs_eq_ok_iff.mpr ⟨hi, hn, rfl⟩, Except.ok_bind,
        (enter_counted_eq_ok_iff hp).mpr ⟨⟨hc, hd⟩, rfl⟩, encoding]
  | _ => cases ho : key.isOrderable <;> simp [encode, Shape.checkKey, Shape.Conforms, ho]

theorem encodesConforming_record {known : List (String × Shape)}
    (hn : (known.map (·.1)).Nodup) (h : ∀ f ∈ known, EncodesConforming f.2) :
    EncodesConforming (.record known) := by
  intro d v b
  cases v with
  | nil => simpa [encode, encoding, Shape.Conforms, Value.depth] using eq_comm
  | record fields =>
    have hp (e : Depth) (b : Bytes) := encodeFields_eq_ok_iff (fun s v => s.Conforms v ∧ v.depth ≤ e.left)
      fields (b := b) (fun f hf v _ => h f hf e v) 0
    have hc (e : Depth) (hf : (fields.map (·.1)).Nodup)
        (hk : ∀ f ∈ fields, f.1 ∈ known.map (·.1)) (b : Bytes) :
        encodeFields e fields 0 known = .ok b ↔
          ((∀ f ∈ fields, Shape.ConformsField known f.1 f.2) ∧ Value.depthFields fields ≤ e.left) ∧
            b = encodingFields fields known := by
      rw [hp, forall_lookup_iff (P := fun s v => s.Conforms v ∧ v.depth ≤ e.left) hn hf hk,
        Value.depthFields_le_iff, ← forall₂_and]
      simp only [Shape.conformsField_iff, exists_and_right, ← and_assoc]
    constructor
    · intro h
      rw [encode] at h
      obtain ⟨⟨⟩, hf, h⟩ := Except.bind_eq_ok.mp h
      obtain ⟨hk, hf⟩ := checkFields_eq_ok_iff.mp hf
      obtain ⟨⟨hs, hd⟩, rfl⟩ :=
        (enter_counted_eq_ok_iff fun e => hc e hf fun f hm => (hk f hm).1).mp h
      exact ⟨⟨.inr ⟨fields, rfl, hf, hs⟩, hd⟩, rfl⟩
    · rintro ⟨⟨he, hd⟩, rfl⟩
      obtain ⟨_, ⟨⟩, hf, hs⟩ := he.resolve_left nofun
      have hk : ∀ f ∈ fields, f.1 ∈ known.map (·.1) := by
        intro f hm
        obtain ⟨s, hl, -⟩ := Shape.conformsField_iff.mp (hs f hm)
        exact List.mem_map.mpr ⟨_, mem_of_lookup hl, rfl⟩
      rw [encode, checkFields_eq_ok_iff.mpr ⟨fun f hm => ⟨hk f hm, List.not_mem_nil⟩, hf⟩,
        Except.ok_bind, (enter_counted_eq_ok_iff fun e => hc e hf hk).mpr ⟨⟨hs, hd⟩, rfl⟩, encoding]
  | _ => simp [encode, Shape.Conforms]

theorem encodesConforming_optional {inner : Shape} (h : EncodesConforming inner) :
    EncodesConforming (.optional inner) := by
  intro d v b
  cases v with
  | nil => simpa [encode, encoding, Shape.Conforms, Value.depth] using eq_comm
  | ref w =>
    rw [encode, Except.bind_eq_ok]
    constructor
    · rintro ⟨e, he, hr⟩
      obtain ⟨-, hl⟩ := Depth.enter_eq_ok_iff.mp he
      obtain ⟨⟨hc, hd⟩, rfl⟩ := (h e w b).mp hr
      exact ⟨⟨.inr ⟨w, rfl, hc⟩, by rw [Value.depth]; omega⟩, rfl⟩
    · rintro ⟨⟨he, hd⟩, rfl⟩
      obtain ⟨_, ⟨⟩, hc⟩ := he.resolve_left nofun
      rw [Value.depth] at hd
      refine ⟨⟨d.limit, d.left - 1⟩, Depth.enter_eq_ok_iff.mpr ⟨rfl, by dsimp only; omega⟩, ?_⟩
      exact (h _ w _).mpr ⟨⟨hc, by dsimp only; omega⟩, rfl⟩
  | _ => simp [encode, Shape.Conforms]

theorem encodesConforming {s : Shape} (hs : s.Distinct) : EncodesConforming s := by
  induction s with
  | bool =>
    intro d v b
    cases v with
    | bool x => simpa [encode, encoding, Shape.Conforms, Value.depth] using eq_comm
    | _ => simp [encode, Shape.Conforms]
  | int kind =>
    intro d v b
    cases v with
    | int n =>
      by_cases hn : kind.contains n
      · simpa [encode, encoding, Shape.Conforms, Value.depth, hn] using eq_comm
      · simp [encode, Shape.Conforms, hn]
    | _ => simp [encode, Shape.Conforms]
  | str =>
    intro d v b
    cases v with
    | str x => simpa [encode, encoding, Shape.Conforms, Value.depth] using eq_comm
    | _ => simp [encode, Shape.Conforms]
  | blob =>
    intro d v b
    cases v with
    | nil => simpa [encode, encoding, Shape.Conforms, Value.depth] using eq_comm
    | blob content => simpa [encode, encoding, Shape.Conforms, Value.depth] using eq_comm
    | _ => simp [encode, Shape.Conforms]
  | seq elem ih => exact encodesConforming_seq (ih hs.elem)
  | map key val ihk ihv => exact encodesConforming_map (ihk hs.key) (ihv hs.val)
  | record known ih => exact encodesConforming_record hs.names fun f hf => ih f hf (hs.field hf)
  | optional inner ih => exact encodesConforming_optional (ih hs.inner)

end ShapeCodec
