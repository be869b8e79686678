import ShapeCodec.Proofs.Entries

namespace ShapeCodec

namespace Shape

@[induction_eliminator]
theorem induct {motive : Shape → Prop} (bool : motive .bool) (int : ∀ kind, motive (.int kind))
    (str : motive .str) (blob : motive .blob) (seq : ∀ elem, motive elem → motive (.seq elem))
    (map : ∀ key val, motive key → motive val → motive (.map key val))
    (record : ∀ known, (∀ f ∈ known, motive f.2) → motive (.record known))
    (optional : ∀ inner, motive inner → motive (.optional inner)) : ∀ s, motive s := fun s =>
  Shape.rec (motive_1 := motive) (motive_2 := fun known => ∀ f ∈ known, motive f.2)
    (motive_3 := fun f => motive f.2)
    bool int str blob seq map record optional
    (fun _ h => nomatch h)
    (fun _ _ head tail => List.forall_mem_cons.mpr ⟨head, tail⟩)
    (fun _ _ h => h) s

mutual

def All (P : Shape → Prop) : Shape → Prop
  | .bool => P .bool
  | .int kind => P (.int kind)
  | .str => P .str
  | .blob => P .blob
  | .seq elem => P (.seq elem) ∧ elem.All P
  | .map key val => P (.map key val) ∧ key.All P ∧ val.All P
  | .record known => P (.record known) ∧ AllFields P known
  | .optional inner => P (.optional inner) ∧ inner.All P

def AllFields (P : Shape → Prop) : List (String × Shape) → Prop
  | [] => True
  | (_, s) :: known => s.All P ∧ AllFields P known

end

theorem allFields_iff {P : Shape → Prop} {known : List (String × Shape)} :
    AllFields P known ↔ ∀ f ∈ known, f.2.All P := by
  induction known with
  | nil => simp [AllFields]
  | cons f known ih => simp [AllFields, ih]

theorem All.self {P : Shape → Prop} {s : Shape} (h : s.All P) : P s := by
  cases s with
  | bool => exact h
  | int kind => exact h
  | str => exact h
  | blob => exact h
  | seq elem => exact h.1
  | map key val => exact h.1
  | record known => exact h.1
  | optional inner => exact h.1

theorem All.imp {P Q : Shape → Prop} {s : Shape} (h : s.All P) (hPQ : ∀ t, P t → Q t) : s.All Q := by
  induction s with
  | bool => exact hPQ _ h
  | int kind => exact hPQ _ h
  | str => exact hPQ _ h
  | blob => exact hPQ _ h
  | seq elem ih => exact ⟨hPQ _ h.1, ih h.2⟩
  | map key val ihk ihv => exact ⟨hPQ _ h.1, ihk h.2.1, ihv h.2.2⟩
  | record known ih => exact ⟨hPQ _ h.1, allFields_iff.mpr fun f hf => ih f hf (allFields_iff.mp h.2 f hf)⟩
  | optional inner ih => exact ⟨hPQ _ h.1, ih h.2⟩

def NamesDiffer : Shape → Prop
  | .record known => (known.map (·.1)).Nodup
  | _ => True

/-- No record in the shape, at any depth, names a field twice. -/
def Distinct (s : Shape) : Prop :=
  s.All NamesDiffer

theorem Distinct.elem {elem : Shape} (h : (Shape.seq elem).Distinct) : elem.Distinct := h.2

theorem Distinct.key {key val : Shape} (h : (Shape.map key val).Distinct) : key.Distinct := h.2.1

theorem Distinct.val {key val : Shape} (h : (Shape.map key val).Distinct) : val.Distinct := h.2.2

theorem Distinct.inner {inner : Shape} (h : (Shape.optional inner).Distinct) : inner.Distinct := h.2

theorem Distinct.names {known : List (String × Shape)} (h : (Shape.record known).Distinct) :
    (known.map (·.1)).Nodup := h.1

theorem Distinct.field {known : List (String × Shape)} (h : (Shape.record known).Distinct)
    {f : String × Shape} (hf : f ∈ known) : f.2.Distinct :=
  allFields_iff.mp h.2 f hf

/-- The second shape has the structure of the first, except that its records may list the fields in
another order and have fields besides them. -/
inductive ExtendedBy : Shape → Shape → Prop
  | bool : ExtendedBy .bool .bool
  | int (kind : IntKind) : ExtendedBy (.int kind) (.int kind)
  | str : ExtendedBy .str .str
  | blob : ExtendedBy .blob .blob
  | seq {elem elem' : Shape} : ExtendedBy elem elem' → ExtendedBy (.seq elem) (.seq elem')
  | map (key : Shape) {val val' : Shape} : ExtendedBy val val' → ExtendedBy (.map key val) (.map key val')
  | record {known known' : List (String × Shape)} : (∀ f ∈ known, f.1 ∈ known'.map (·.1)) →
      (∀ f ∈ known, ∀ t, known'.lookup f.1 = some t → ExtendedBy f.2 t) →
      ExtendedBy (.record known) (.record known')
  | optional {inner inner' : Shape} : ExtendedBy inner inner' →
      ExtendedBy (.optional inner) (.optional inner')

theorem ExtendedBy.refl {s : Shape} (hs : s.Distinct) : s.ExtendedBy s := by
  induction s with
  | bool => exact .bool
  | int kind => exact .int kind
  | str => exact .str
  | blob => exact .blob
  | seq elem ih => exact .seq (ih hs.elem)
  | map key val _ ih => exact .map key (ih hs.val)
  | record known ih =>
    refine .record (fun f hf => List.mem_map_of_mem hf) fun f hf t ht => ?_
    obtain rfl : f.2 = t := Option.some.inj ((lookup_of_mem hs.names hf).symm.trans ht)
    exact ih f hf (hs.field hf)
  | optional inner ih => exact .optional (ih hs.inner)

theorem ExtendedBy.of_subset {known known' : List (String × Shape)} (hs : (Shape.record known).Distinct)
    (hn : (known'.map (·.1)).Nodup) (h : ∀ f ∈ known, f ∈ known') :
    (Shape.record known).ExtendedBy (.record known') := by
  refine .record (fun f hf => List.mem_map_of_mem (h f hf)) fun f hf t ht => ?_
  rw [lookup_of_mem hn (h f hf)] at ht
  cases ht
  exact .refl (hs.field hf)

theorem ExtendedBy.layers_eq {s t : Shape} (h : s.ExtendedBy t) : s.layers = t.layers := by
  induction h with
  | optional _ ih => exact congrArg (· + 1) ih
  | _ => rfl

mutual

/-- The condition holds of a shape with the value there, and of all the shapes inside with the
values that stand at them. -/
def Everywhere (P : Shape → Value → Prop) : Shape → Value → Prop
  | .bool, v => P .bool v
  | .int kind, v => P (.int kind) v
  | .str, v => P .str v
  | .blob, v => P .blob v
  | .seq elem, v => P (.seq elem) v ∧
    match v with
    | .seq items => ∀ w ∈ items, elem.Everywhere P w
    | _ => True
  | .map key val, v => P (.map key val) v ∧
    match v with
    | .map pairs => ∀ p ∈ pairs, key.Everywhere P p.1 ∧ val.Everywhere P p.2
    | _ => True
  | .record known, v => P (.record known) v ∧
    match v with
    | .record fields => ∀ f ∈ fields, EverywhereField P known f.1 f.2
    | _ => True
  | .optional inner, v => P (.optional inner) v ∧
    match v with
    | .ref w => inner.Everywhere P w
    | _ => True

def EverywhereField (P : Shape → Value → Prop) : List (String × Shape) → String → Value → Prop
  | [], _, _ => True
  | (n, s) :: known, name, v =>
    if n = name then s.Everywhere P v else EverywhereField P known name v

end

theorem everywhereField_iff {P : Shape → Value → Prop} {known : List (String × Shape)}
    {name : String} {v : Value} :
    EverywhereField P known name v ↔ ∀ s, known.lookup name = some s → s.Everywhere P v := by
  induction known with
  | nil => simp [EverywhereField]
  | cons f known ih =>
    obtain ⟨n, s⟩ := f
    rw [lookup_cons_eq, EverywhereField]
    split
    · simp
    · exact ih

end Shape

end ShapeCodec
