import ShapeCodec.Proofs.LimitedEncoding
import ShapeCodec.Proofs.RoundTrip

namespace ShapeCodec

open Wire

/-- A step of the encoder, which fails over the type of what it is given or over the limit on nesting. -/
def Refuses {α : Type} (r : Except Error α) : Prop :=
  ∀ e, r = .error e → e.kind = .invalidType ∨ e.kind = .parseLimit

namespace Refuses

variable {α β : Type} {r : Except Error α}

theorem ok (x : α) : Refuses (.ok x) := by
  intro e he
  cases he

theorem of_kind (h : ∀ e, r = .error e → e.kind = .invalidType) : Refuses r :=
  fun e he => .inl (h e he)

theorem invalidType (fault : TypeFault) : Refuses (.error (.invalidType fault) : Except Error α) := by
  apply of_kind
  rintro _ ⟨⟩
  rfl

theorem bind {f : α → Except Error β} (h : Refuses r) (hf : ∀ x, Refuses (f x)) : Refuses (r >>= f) := by
  intro e he
  rcases Except.bind_eq_error.mp he with he | ⟨x, -, he⟩
  · exact h e he
  · exact hf x e he

theorem nested (h : Refuses r) (offset : Nat) (location : Location) :
    Refuses (r.mapError (.nested offset location)) := by
  intro e he
  cases r with
  | ok x => cases he
  | error cause =>
    cases he
    exact h cause rfl

theorem enter (d : Depth) : Refuses d.enter := by
  intro e he
  obtain ⟨limit, left⟩ := d
  cases left with
  | zero =>
    cases he
    exact .inr rfl
  | succ left => cases he

theorem writeEach {write : Nat → Nat → α → Except Error Bytes} {xs : List α}
    (h : ∀ x ∈ xs, ∀ i pos, Refuses (write i pos x)) (i pos : Nat) : Refuses (writeEach write i pos xs) := by
  induction xs generalizing i pos with
  | nil => exact .ok _
  | cons x xs ih =>
    apply (h x List.mem_cons_self i pos).bind
    intro part
    apply (ih (fun y hy => h y (List.mem_cons_of_mem _ hy)) (i + 1) (pos + part.length)).bind
    exact fun _ => .ok _

theorem writePair {key val : Value → Except Error Bytes} {p : Value × Value} (hk : Refuses (key p.1))
    (hv : Refuses (val p.2)) (i pos : Nat) : Refuses (writePair key val i pos p) := by
  apply (hk.nested pos (.mapKey i)).bind
  intro k
  apply (hv.nested (pos + k.length) (.mapValue i)).bind
  exact fun _ => .ok _

theorem encodeFields {d : Depth} {known : List (String × Shape)}
    (h : ∀ f ∈ known, ∀ v, Refuses (encode d f.2 v)) (fields : List (String × Value)) (pos : Nat) : Refuses (encodeFields d fields pos known) := by
  induction known generalizing pos with
  | nil => exact .ok _
  | cons f known ih =>
    obtain ⟨name, s⟩ := f
    have ih := ih fun f hf => h f (List.mem_cons_of_mem _ hf)
    rw [ShapeCodec.encodeFields]
    cases fields.lookup name with
    | none => exact ih pos
    | some v =>
      apply ((h (name, s) List.mem_cons_self v).nested _ _).bind
      intro part
      apply (ih _).bind
      exact fun _ => .ok _

end Refuses

theorem refuses_encode_seq {elem : Shape} (h : ∀ d v, Refuses (encode d elem v)) (d : Depth) (v : Value) :
    Refuses (encode d (.seq elem) v) := by
  cases v with
  | nil => exact .ok _
  | seq items =>
    rw [encode]
    apply (Refuses.enter d).bind
    intro e
    apply (Refuses.writeEach (fun w _ i pos => (h e w).nested _ _) 0 0).bind
    exact fun _ => .ok _
  | _ => exact .invalidType _

theorem refuses_encode_map {key val : Shape} (hk : ∀ d v, Refuses (encode d key v))
    (hv : ∀ d v, Refuses (encode d val v)) (d : Depth) (v : Value) : Refuses (encode d (.map key val) v) := by
  rw [encode.eq_def]
  dsimp only
  apply (Refuses.of_kind fun _ => kind_of_checkKey).bind
  intro _
  cases v with
  | nil => exact .ok _
  | map pairs =>
    apply (Refuses.of_kind fun _ => kind_of_orderPairs).bind
    intro sorted
    apply (Refuses.enter d).bind
    intro e
    apply (Refuses.writeEach (fun p _ => Refuses.writePair (hk e p.1) (hv e p.2)) 0 0).bind
    exact fun _ => .ok _
  | _ => exact .invalidType _

theorem refuses_encode_record {known : List (String × Shape)}
    (h : ∀ f ∈ known, ∀ d v, Refuses (encode d f.2 v)) (d : Depth) (v : Value) : Refuses (encode d (.record known) v) := by
  cases v with
  | nil => exact .ok _
  | record fields =>
    rw [encode]
    apply (Refuses.of_kind fun _ => kind_of_checkFields).bind
    intro _
    apply (Refuses.enter d).bind
    intro e
    apply (Refuses.encodeFields (fun f hf => h f hf e) fields 0).bind
    exact fun _ => .ok _
  | _ => exact .invalidType _

theorem refuses_encode (s : Shape) (d : Depth) (v : Value) : Refuses (encode d s v) := by
  induction s generalizing d v with
  | bool =>
    cases v with
    | bool b => exact .ok _
    | _ => exact .invalidType _
  | int kind =>
    cases v with
    | int n =>
      rw [encode]
      split
      · exact .ok _
      · exact .invalidType _
    | _ => exact .invalidType _
  | str =>
    cases v with
    | str x => exact .ok _
    | _ => exact .invalidType _
  | blob =>
    cases v with
    | nil => exact .ok _
    | blob content => exact .ok _
    | _ => exact .invalidType _
  | seq elem ih => exact refuses_encode_seq ih d v
  | map key val ihk ihv => exact refuses_encode_map ihk ihv d v
  | record known ih => exact refuses_encode_record ih d v
  | optional inner ih =>
    cases v with
    | nil => exact .ok _
    | ref w =>
      rw [encode]
      apply (Refuses.enter d).bind
      exact fun e => ih e w
    | _ => exact .invalidType _

theorem encode_of_not_conforms {s : Shape} (hs : s.Distinct) {d : Depth} {v : Value} (hd : v.depth ≤ d.left)
    (h : ¬ s.Conforms v) : ∃ e, encode d s v = .error e ∧ e.kind = .invalidType := by
  cases he : encode d s v with
  | ok b =>
    obtain ⟨⟨hc, -⟩, -⟩ := (encodesConforming hs d v b).mp he
    exact absurd hc h
  | error e =>
    have hlimit := (encodesWithin s d d v (Nat.le_refl _)).not_exceeds fun hdeep =>
      Nat.not_le.mpr hdeep.1 hd
    rcases refuses_encode s d v e he with hk | hk
    · exact ⟨e, rfl, hk⟩
    · exact absurd ⟨e, he, hk⟩ hlimit

/-- A value that is not nested too deep encodes exactly if it conforms to the shape and its encoding is not
too long. One that does not conform is of the wrong type, however long it is. -/
theorem encodeValue_accepts_iff {c : Config} {s : Shape} (hs : s.Distinct) {v : Value}
    (hd : v.depth ≤ c.maxDepth) :
    ((∃ b, encodeValue c s v = .ok b) ↔ s.Conforms v ∧ (encoding s v).length ≤ c.maxSize) ∧
    (∀ b, encodeValue c s v = .ok b → b = encoding s v) ∧
    (¬ s.Conforms v → ∃ e, encodeValue c s v = .error e ∧ e.kind = .invalidType) ∧
    (s.Conforms v → c.maxSize < (encoding s v).length →
      ∃ e, encodeValue c s v = .error e ∧ e.kind = .lengthTooLong) := by
  refine ⟨⟨?_, ?_⟩, ?_, ?_, ?_⟩
  · rintro ⟨b, h⟩
    obtain ⟨⟨hc, -⟩, rfl, hl⟩ := (encodeValue_eq_ok_iff hs).mp h
    exact ⟨hc, hl⟩
  · rintro ⟨hc, hl⟩
    exact ⟨_, (encodeValue_eq_ok_iff hs).mpr ⟨⟨hc, hd⟩, rfl, hl⟩⟩
  · intro b h
    exact ((encodeValue_eq_ok_iff hs).mp h).2.1
  · intro hc
    obtain ⟨e, he, hk⟩ := encode_of_not_conforms (d := .upTo c.maxDepth) hs hd hc
    refine ⟨e, ?_, hk⟩
    rw [encodeValue, he, Except.error_bind]
  · intro hc hl
    have he := (encodesConforming hs (.upTo c.maxDepth) v _).mpr ⟨⟨hc, hd⟩, rfl⟩
    refine ⟨.tooLong c.maxSize (encoding s v).length, ?_, rfl⟩
    rw [encodeValue, he, Except.ok_bind, if_pos hl]

theorem encodeValue_accepts_iff_map :
    let s : Shape := .map .bool .bool
    let v : Value := .map [(.bool true, .bool false), (.bool false, .bool true)]
    let repeated : Value := .map [(.bool true, .bool false), (.bool false, .bool true), (.bool true, .bool true)]
    (∃ b, encodeValue {} s v = .ok b) ∧
      (∃ e, encodeValue { maxSize := 5 } s v = .error e ∧ e.kind = .lengthTooLong) ∧
      ∃ e, encodeValue {} s repeated = .error e ∧ e.kind = .invalidType := by
  intro s v repeated
  have hs : s.Distinct := by simp [s, Shape.Distinct, Shape.All, Shape.NamesDiffer]
  have hc : s.Conforms v := by
    refine ⟨rfl, .inr ⟨_, rfl, by decide, ?_⟩⟩
    rw [List.forall_mem_cons, List.forall_mem_singleton]
    exact ⟨⟨⟨_, rfl⟩, _, rfl⟩, ⟨_, rfl⟩, _, rfl⟩
  have hr : ¬ s.Conforms repeated := by simp [s, repeated, Shape.Conforms]
  have hl : (encoding s v).length = 6 := by
    simp [s, v, encoding, sortPairs, List.mergeSort, List.merge, Value.cmpKey]
    rfl
  obtain ⟨fits, -⟩ := @encodeValue_accepts_iff {} s hs v (by decide)
  obtain ⟨-, -, -, tooLong⟩ := @encodeValue_accepts_iff { maxSize := 5 } s hs v (by decide)
  obtain ⟨-, -, mistyped, -⟩ := @encodeValue_accepts_iff {} s hs repeated (by decide)
  exact ⟨fits.mpr ⟨hc, by rw [hl]; decide⟩, tooLong hc (by rw [hl]; decide), mistyped hr⟩

end ShapeCodec
