import ShapeCodec.Proofs.Reading

/-!
Outcomes within two limits on nesting, of which the second leaves as many levels or more.
-/

namespace ShapeCodec

namespace Shape

mutual

def depth : Shape → Nat
  | .seq elem => elem.depth + 1
  | .map key val => max key.depth val.depth + 1
  | .record known => depthFields known + 1
  | .optional inner => inner.depth + 1
  | .bool | .int _ | .str | .blob => 0

def depthFields : List (String × Shape) → Nat
  | [] => 0
  | (_, s) :: known => max s.depth (depthFields known)

end

theorem depthFields_le_iff {known : List (String × Shape)} {n : Nat} :
    depthFields known ≤ n ↔ ∀ f ∈ known, f.2.depth ≤ n := by
  induction known with
  | nil => simp [depthFields]
  | cons f known ih => rw [depthFields, Nat.max_le, ih, List.forall_mem_cons]

end Shape

namespace Error

def requote (limit : Nat) : Error → Error
  | depthExceeded _ => depthExceeded limit
  | nested offset location cause => nested offset location (cause.requote limit)
  | e => e

theorem isIncomplete_requote (limit : Nat) (e : Error) : (e.requote limit).isIncomplete = e.isIncomplete := by
  induction e with
  | nested offset location cause ih => exact ih
  | _ => rfl

theorem isIncomplete_of_parseLimit {e : Error} (h : e.kind = .parseLimit) : e.isIncomplete = false := by
  induction e with
  | nested offset location cause ih => exact ih h
  | unexpectedEnd => cases h
  | headerCutShort => cases h
  | _ => rfl

theorem requote_of_ne {e : Error} (h : e.kind ≠ .parseLimit) (limit : Nat) : e.requote limit = e := by
  induction e with
  | nested offset location cause ih => rw [requote, ih h]
  | depthExceeded _ => exact absurd rfl h
  | _ => rfl

theorem kind_within (of : Composite) (offset : Nat) (location : Location) (e : Error) :
    (e.within of offset location).kind = .parseLimit ↔ e.kind = .parseLimit := by
  rw [within, kind]
  cases hi : e.isIncomplete with
  | true =>
    constructor
    · intro h
      cases h
    · intro h
      rw [isIncomplete_of_parseLimit h] at hi
      cases hi
  | false => rfl

theorem requote_within {e : Error} (h : e.kind = .parseLimit) (limit : Nat) (of : Composite) (offset : Nat)
    (location : Location) :
    (e.within of offset location).requote limit = (e.requote limit).within of offset location := by
  have hi := isIncomplete_of_parseLimit h
  simp [within, requote, isIncomplete_requote, hi]

end Error

theorem Depth.left_lt_succ {d : Depth} (h : d.left = 0) {n : Nat} : d.left < n + 1 := by
  rw [h]
  exact Nat.succ_pos n

/-- The outcomes of one step within two limits on nesting. They are the same, unless the first limit is
exceeded: then `deep` holds and, where the limits leave as many levels (`same`), the second one is exceeded
too, with the same failure but for the limit in its words. -/
inductive Limited {α : Type} (deep same : Prop) (limit : Nat) : Except Error α → Except Error α → Prop
  | ok (x : α) : Limited deep same limit (.ok x) (.ok x)
  | error {e : Error} : e.kind ≠ .parseLimit → Limited deep same limit (.error e) (.error e)
  | exceeded {e : Error} {r' : Except Error α} : e.kind = .parseLimit → deep →
      (same → r' = .error (e.requote limit)) → Limited deep same limit (.error e) r'

def Exceeds {α : Type} (r : Except Error α) : Prop :=
  ∃ e, r = .error e ∧ e.kind = .parseLimit

namespace Limited

variable {α β : Type} {deep deep' same same' : Prop} {limit : Nat} {r r' : Except Error α}

theorem failure {e : Error} (h : (e.kind == .parseLimit) = false) :
    Limited deep same limit (.error e : Except Error α) (.error e) := by
  apply error
  intro hk
  rw [hk] at h
  cases h

theorem imp (h : Limited deep same limit r r') (hd : deep → deep') (hs : same' → same) :
    Limited deep' same' limit r r' := by
  cases h with
  | ok x => exact .ok x
  | error he => exact .error he
  | exceeded he hdeep hr => exact .exceeded he (hd hdeep) fun h => hr (hs h)

theorem eq_of_not_exceeds (h : Limited deep same limit r r') (hr : ¬ Exceeds r) : r' = r := by
  cases h with
  | ok x => rfl
  | error he => rfl
  | exceeded he _ _ => exact absurd ⟨_, rfl, he⟩ hr

theorem not_exceeds (h : Limited deep same limit r r') (hd : ¬ deep) : ¬ Exceeds r := by
  rintro ⟨e, rfl, he⟩
  cases h with
  | error hne => exact hne he
  | exceeded _ hdeep _ => exact hd hdeep

theorem eq_mapError (h : Limited deep same limit r r') (hs : same) : r' = r.mapError (.requote limit) := by
  cases h with
  | ok x => rfl
  | error he => rw [Except.error_mapError, Error.requote_of_ne he]
  | exceeded _ _ hr => exact hr hs

theorem of_ok {x : α} (h : Limited deep same limit r r') (hr : r = .ok x) : r' = .ok x := by
  subst hr
  cases h
  rfl

theorem bind {f f' : α → Except Error β} (h : Limited deep same limit r r')
    (hf : ∀ x, r = .ok x → Limited deep same limit (f x) (f' x)) :
    Limited deep same limit (r >>= f) (r' >>= f') := by
  cases h with
  | ok x => exact hf x rfl
  | error he => exact .error he
  | exceeded he hd hr =>
    apply exceeded he hd
    intro hs
    rw [hr hs]
    rfl

theorem map (h : Limited deep same limit r r') (f : α → β) :
    Limited deep same limit (r.map f) (r'.map f) := by
  cases h with
  | ok x => exact .ok (f x)
  | error he => exact .error he
  | exceeded he hd hr =>
    apply exceeded he hd
    intro hs
    rw [hr hs]
    rfl

theorem mapError {g : Error → Error} (h : Limited deep same limit r r')
    (hk : ∀ e, (g e).kind = .parseLimit ↔ e.kind = .parseLimit)
    (hg : ∀ e, e.kind = .parseLimit → (g e).requote limit = g (e.requote limit)) :
    Limited deep same limit (r.mapError g) (r'.mapError g) := by
  cases h with
  | ok x => exact .ok x
  | error he => exact .error fun h => he ((hk _).mp h)
  | @exceeded e _ he hd hr =>
    apply exceeded ((hk e).mpr he) hd
    intro hs
    rw [hr hs, hg e he]
    rfl

theorem nested (h : Limited deep same limit r r') (offset : Nat) (location : Location) :
    Limited deep same limit (r.mapError (.nested offset location)) (r'.mapError (.nested offset location)) :=
  h.mapError (fun _ => Iff.rfl) fun _ _ => rfl

theorem within (h : Limited deep same limit r r') (of : Composite) (offset : Nat) (location : Location) :
    Limited deep same limit (r.mapError (.within of offset location))
      (r'.mapError (.within of offset location)) :=
  h.mapError (Error.kind_within of offset location) fun _ he =>
    Error.requote_within he limit of offset location

theorem enter {d d' : Depth} {f f' : Depth → Except Error α} (hle : d.left ≤ d'.left)
    (hd : d.left = 0 → deep) (hs : same → d.left = d'.left)
    (hf : ∀ e e', d.enter = .ok e → d'.enter = .ok e' → Limited deep same d'.limit (f e) (f' e')) :
    Limited deep same d'.limit (d.enter >>= f) (d'.enter >>= f') := by
  rcases Nat.eq_zero_or_pos d.left with hz | hp
  · obtain ⟨m, left⟩ := d
    obtain rfl : left = 0 := hz
    apply exceeded rfl (hd rfl)
    intro h
    obtain ⟨m', left'⟩ := d'
    obtain rfl : 0 = left' := hs h
    rfl
  · have he := Depth.enter_of_pos hp
    have he' := Depth.enter_of_pos (Nat.lt_of_lt_of_le hp hle)
    have h := hf _ _ he he'
    rw [he, he']
    exact h

end Limited

end ShapeCodec
