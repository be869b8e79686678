import ShapeCodec.Proofs.LimitedDecoding
import ShapeCodec.Proofs.LimitedEncoding
import ShapeCodec.Proofs.NamedTypes

namespace ShapeCodec

namespace Shape

def parts : Shape → List Shape
  | .seq elem => [elem]
  | .map key val => [key, val]
  | .record known => known.map (·.2)
  | .optional inner => [inner]
  | .bool | .int _ | .str | .blob => []

theorem depth_le_succ {s : Shape} {m : Nat} (h : ∀ u ∈ s.parts, u.depth ≤ m) : s.depth ≤ m + 1 := by
  cases s with
  | seq elem => exact Nat.succ_le_succ (h elem List.mem_cons_self)
  | map key val =>
    apply Nat.succ_le_succ
    apply Nat.max_le.mpr
    exact ⟨h key List.mem_cons_self, h val (List.mem_cons_of_mem _ List.mem_cons_self)⟩
  | record known =>
    apply Nat.succ_le_succ
    apply depthFields_le_iff.mpr
    exact fun f hf => h f.2 (List.mem_map_of_mem hf)
  | optional inner => exact Nat.succ_le_succ (h inner List.mem_cons_self)
  | _ => exact Nat.zero_le _

end Shape

namespace Ty

/-- How the questions for a type come to be answered: what stands for another type as that one is, and a type
with parts once as many of these are as it takes. -/
inductive Answered (env : Env) (limit : Nat) : Nat → Ty → Except Error (Option Shape) → Prop
  | unwrap {left : Nat} {t u : Ty} {r : Except Error (Option Shape)} : Unwraps env t u →
      Answered env limit left u r → Answered env limit left t r
  | leaf {left : Nat} {t : Ty} {r : Except Error (Option Shape)} : (∀ u, ¬ Unwraps env t u) →
      t.leaf? = some (r.mapError .fault) → Answered env limit left t r
  | exceeded {t : Ty} : t.leaf? = none → Answered env limit 0 t (.error (.depthExceeded limit))
  | parts {left : Nat} {t : Ty} {r : Except Error (Option Shape)} {answer : Ty → Except NoShape (Option Shape)} :
      t.leaf? = none →
      (∀ p ∈ t.parts, ∀ r', answer p = r'.mapError .fault → Answered env limit left p r') →
      compound answer t = r.mapError .fault → Answered env limit (left + 1) t r

def Ends {α : Type} (r : Except NoShape α) : Prop :=
  r ≠ .error .endless

theorem ends_ok {α : Type} (x : α) : Ends (.ok x) := by
  intro h
  cases h

theorem ends_fault {α : Type} (e : Error) : @Ends α (.error (.fault e)) := by
  intro h
  cases h

theorem ends_iff {α : Type} {r : Except NoShape α} : Ends r ↔ ∃ r' : Except Error α, r = r'.mapError .fault := by
  constructor
  · intro h
    cases r with
    | ok x => exact ⟨.ok x, rfl⟩
    | error why =>
      cases why with
      | fault e => exact ⟨.error e, rfl⟩
      | endless => exact absurd rfl h
  · rintro ⟨r', rfl⟩
    cases r' with
    | ok x => exact ends_ok x
    | error e => exact ends_fault e

theorem Ends.bind {α β : Type} {r : Except NoShape α} {f : α → Except NoShape β} (h : Ends r)
    (hf : ∀ x, Ends (f x)) : Ends (r >>= f) := by
  obtain ⟨r', rfl⟩ := ends_iff.mp h
  cases r' with
  | ok x => exact hf x
  | error e => exact ends_fault e

theorem ends_requested (found : Option Shape) : Ends (requested found) := by
  cases found with
  | none => exact ends_fault _
  | some s => exact ends_ok s

theorem ends_tupleShape (shapes : List Shape) : Ends (tupleShape shapes) := by
  cases shapes with
  | nil => exact ends_ok none
  | cons s shapes =>
    rw [tupleShape]
    split
    · exact ends_ok _
    · exact ends_fault _

structure Respected (R : ∀ {α : Type}, Except NoShape α → Except NoShape α → Prop) : Prop where
  refl : ∀ {α : Type} {r : Except NoShape α}, Ends r → R r r
  bind : ∀ {α β : Type} {r r' : Except NoShape α} {f f' : α → Except NoShape β}, R r r' →
    (∀ x, R (f x) (f' x)) → R (r >>= f) (r' >>= f')

def Keeps {α : Type} (r r' : Except NoShape α) : Prop :=
  ∀ x, r = .ok x → r' = .ok x

theorem respected_keeps : Respected Keeps where
  refl _ _ h := h
  bind h hf y hy := by
    obtain ⟨x, hx, hy⟩ := Except.bind_eq_ok.mp hy
    exact Except.bind_eq_ok.mpr ⟨x, h x hx, hf x y hy⟩

def Ahead {α : Type} (r r' : Except NoShape α) : Prop :=
  Ends r → r = r'

theorem respected_ahead : Respected Ahead where
  refl _ _ := rfl
  bind {_ _ r r' f f'} h hf hends := by
    have hr : Ends r := by
      rintro rfl
      exact hends rfl
    rw [← h hr] at *
    cases r with
    | ok x => exact hf x hends
    | error why => rfl

theorem respected_ends : Respected fun r _ => Ends r where
  refl h := h
  bind h hf := h.bind hf

section Compound

variable {ask ask' : Ty → Except NoShape (Option Shape)} {t : Ty} {s : Shape}

theorem parts_of_compound (h : compound ask t = .ok (some s)) :
    (∀ u ∈ s.parts, ∃ p, ask p = .ok (some u)) ∧ ∀ p ∈ t.parts, ∃ u, ask p = .ok (some u) := by
  have helems {elems : List Ty} {s' : Shape} (hne : elems ≠ []) (h : ∀ t ∈ elems, ask t = .ok (some s')) :
      (∀ u ∈ (Shape.seq s').parts, ∃ p, ask p = .ok (some u)) ∧
        ∀ p ∈ elems, ∃ u, ask p = .ok (some u) := by
    obtain ⟨p, hp⟩ := List.exists_mem_of_ne_nil _ hne
    exact ⟨List.forall_mem_singleton.mpr ⟨p, h p hp⟩, fun p hp => ⟨s', h p hp⟩⟩
  cases t with
  | option inner =>
    obtain ⟨s', rfl, hs⟩ := compound_option h
    exact ⟨List.forall_mem_singleton.mpr ⟨inner, hs⟩, List.forall_mem_singleton.mpr ⟨s', hs⟩⟩
  | seq elem =>
    obtain ⟨s', rfl, hs⟩ := compound_seq h
    exact ⟨List.forall_mem_singleton.mpr ⟨elem, hs⟩, List.forall_mem_singleton.mpr ⟨s', hs⟩⟩
  | tuple elems =>
    obtain ⟨s', rfl, hne, hs⟩ := compound_tuple h
    exact helems hne hs
  | tupleStruct name elems =>
    obtain ⟨s', rfl, hne, hs⟩ := compound_tupleStruct h
    exact helems hne hs
  | map key val =>
    obtain ⟨k, v, rfl, -, hk, hv⟩ := compound_map h
    constructor
    · exact List.forall_mem_cons.mpr ⟨⟨key, hk⟩, List.forall_mem_singleton.mpr ⟨val, hv⟩⟩
    · exact List.forall_mem_cons.mpr ⟨⟨k, hk⟩, List.forall_mem_singleton.mpr ⟨v, hv⟩⟩
  | struct name fields =>
    obtain ⟨known, rfl, hf⟩ := compound_struct h
    rw [← List.map_id fields] at hf
    obtain ⟨both, hfields, rfl, hask, -, -⟩ := fieldShapes_map_eq_ok hf
    constructor
    · intro u hu
      simp only [Shape.parts, List.map_map, List.mem_map] at hu
      obtain ⟨b, hb, rfl⟩ := hu
      exact ⟨_, hask b hb⟩
    · intro p hp
      simp only [parts, hfields, List.map_map, List.mem_map] at hp
      obtain ⟨b, hb, rfl⟩ := hp
      exact ⟨b.2, hask b hb⟩
  | _ => cases h

section Respected

variable {R : ∀ {α : Type}, Except NoShape α → Except NoShape α → Prop} (hR : Respected R)

include hR

theorem requested_respected {f : Shape → Except NoShape (Option Shape)} (hf : ∀ s, Ends (f s))
    (h : R (ask t) (ask' t)) : R (do f (← requested (← ask t))) (do f (← requested (← ask' t))) := by
  apply hR.bind h
  exact fun found => hR.refl ((ends_requested found).bind hf)

theorem elems_respected {elems : List Ty} (h : ∀ p ∈ elems, R (ask p) (ask' p)) :
    R (do tupleShape (← elems.mapM fun t => do requested (← ask t)))
      (do tupleShape (← elems.mapM fun t => do requested (← ask' t))) := by
  apply hR.bind
  · induction elems with
    | nil => exact hR.refl (ends_ok _)
    | cons p elems ih =>
      obtain ⟨hp, helems⟩ := List.forall_mem_cons.mp h
      rw [List.mapM_cons, List.mapM_cons]
      apply hR.bind (hR.bind hp fun found => hR.refl (ends_requested found))
      intro s
      apply hR.bind (ih helems)
      exact fun shapes => hR.refl (ends_ok _)
  · exact fun shapes => hR.refl (ends_tupleShape shapes)

theorem fieldShapes_respected {fields : List (String × Ty)} (h : ∀ f ∈ fields, R (ask f.2) (ask' f.2))
    (before : List String) : R (fieldShapes ask before fields) (fieldShapes ask' before fields) := by
  induction fields generalizing before with
  | nil => exact hR.refl (ends_ok _)
  | cons f fields ih =>
    obtain ⟨name, t⟩ := f
    obtain ⟨ht, hfields⟩ := List.forall_mem_cons.mp h
    rw [fieldShapes, fieldShapes]
    split
    · exact hR.refl (ends_fault _)
    · apply hR.bind ht
      intro found
      apply hR.bind (hR.refl (ends_requested found))
      intro s
      apply hR.bind (ih hfields (name :: before))
      exact fun known => hR.refl (ends_ok _)

theorem compound_respected (h : ∀ p ∈ t.parts, R (ask p) (ask' p)) : R (compound ask t) (compound ask' t) := by
  cases t with
  | option inner => exact requested_respected hR (fun _ => ends_ok _) (h inner List.mem_cons_self)
  | seq elem => exact requested_respected hR (fun _ => ends_ok _) (h elem List.mem_cons_self)
  | tuple elems => exact elems_respected hR h
  | tupleStruct name elems => exact elems_respected hR h
  | map key val =>
    apply hR.bind (h key List.mem_cons_self)
    intro k
    apply hR.bind (h val (List.mem_cons_of_mem _ List.mem_cons_self))
    intro v
    apply hR.refl
    apply (ends_requested k).bind
    intro key
    apply (ends_iff.mpr ⟨key.checkKey, rfl⟩).bind
    exact fun _ => (ends_requested v).bind fun _ => ends_ok _
  | struct name fields =>
    apply hR.bind (fieldShapes_respected hR (List.forall_mem_map.mp h) [])
    exact fun known => hR.refl (ends_ok _)
  | _ => exact hR.refl (ends_ok _)

end Respected

end Compound

section Tracing

open Relation

variable {env : Env} {t u : Ty} {limit limit' left left' : Nat} {s : Shape}

theorem not_unwraps_of_leaf? (h : t.leaf? = none) (u : Ty) : ¬ Unwraps env t u := by
  intro hu
  cases hu <;> cases h

theorem head_of_leaf?_eq_none (h : t.leaf? = none) : head env t = t :=
  head_of_not_unwraps (not_unwraps_of_leaf? h)

theorem ask_of_leaf {found : Except NoShape (Option Shape)} (hu : ∀ u, ¬ Unwraps env t u) (hl : t.leaf? = some found) :
    ask env limit left t = found :=
  ask_leaf (by rw [head_of_not_unwraps hu, hl])

theorem ask_zero (hl : t.leaf? = none) : ask env limit 0 t = noShape (.depthExceeded limit) := by
  rw [ask, head_of_leaf?_eq_none hl, hl]

theorem ask_succ (hl : t.leaf? = none) : ask env limit (left + 1) t = compound (ask env limit left) t := by
  rw [ask, head_of_leaf?_eq_none hl, hl]

theorem leaf?_of_part (h : u ∈ t.parts) : t.leaf? = none := by
  cases t with
  | tuple elems =>
    cases elems with
    | nil => cases h
    | cons p elems => rfl
  | tupleStruct name elems =>
    cases elems with
    | nil => cases h
    | cons p elems => rfl
  | option inner => rfl
  | seq elem => rfl
  | map key val => rfl
  | struct name fields => rfl
  | _ => cases h

theorem keeps_ask (h : left ≤ left') : Keeps (ask env limit left t) (ask env limit' left' t) := by
  induction left generalizing left' t with
  | zero =>
    intro r hr
    rw [ask] at hr
    split at hr
    · next found hl => rw [ask_leaf hl, hr]
    · cases hr
  | succ left ih =>
    obtain ⟨left', rfl⟩ := Nat.exists_eq_add_of_le' (Nat.le_trans (Nat.succ_pos left) h)
    rw [ask, ask]
    split
    · exact fun _ hr => hr
    · exact compound_respected respected_keeps fun p _ => ih (Nat.le_of_succ_le_succ h)

theorem depth_of_ask (h : ask env limit left t = .ok (some s)) : s.depth ≤ left := by
  induction left using Nat.strongRecOn generalizing t s with
  | _ left ih =>
    rcases ask_eq_ok h with hl | ⟨m, rfl, hc⟩
    · rcases leaf_shape hl with rfl | ⟨kind, rfl⟩ | rfl | rfl <;> exact Nat.zero_le _
    · apply Shape.depth_le_succ
      intro u hu
      obtain ⟨p, hp⟩ := (parts_of_compound hc).1 u hu
      exact ih m (Nat.lt_succ_self m) hp

theorem ask_of_leads (hl : Leads env t u) (h : ask env limit left t = .ok (some s)) :
    ∃ left' s', ask env limit left' u = .ok (some s') ∧
      (left' < left ∨ left' = left ∧ Unwraps env t u) := by
  rcases hl with hu | hu
  · have hleaf := leaf?_of_part hu
    have hhead : head env t = t := head_of_leaf?_eq_none hleaf
    obtain ⟨m, rfl, hc⟩ := compound_of_ask (by rw [hhead, hleaf]) h
    rw [hhead] at hc
    obtain ⟨s', hs⟩ := (parts_of_compound hc).2 u hu
    exact ⟨m, s', hs, .inl (Nat.lt_succ_self m)⟩
  · exact ⟨left, s, ask_unwraps hu ▸ h, .inr ⟨rfl, hu⟩⟩

theorem ask_of_leads_trans (hl : TransGen (Leads env) t u) (h : ask env limit left t = .ok (some s)) :
    ∃ left' s', ask env limit left' u = .ok (some s') ∧
      (left' < left ∨ left' = left ∧ TransGen (Unwraps env) t u) := by
  induction hl with
  | single hl =>
    obtain ⟨left', s', hs, hlt | ⟨he, hu⟩⟩ := ask_of_leads hl h
    · exact ⟨left', s', hs, .inl hlt⟩
    · exact ⟨left', s', hs, .inr ⟨he, .single hu⟩⟩
  | tail _ hl ih =>
    obtain ⟨m, s', hs, hm⟩ := ih
    obtain ⟨left', s'', hs', hlt | ⟨rfl, hu⟩⟩ := ask_of_leads hl hs
    · exact ⟨left', s'', hs', .inl (by omega)⟩
    · rcases hm with hlt | ⟨rfl, htrans⟩
      · exact ⟨left', s'', hs', .inl hlt⟩
      · exact ⟨left', s'', hs', .inr ⟨rfl, htrans.tail hu⟩⟩

theorem ask_of_cycle (h : TransGen (Leads env) t t) : ask env limit left t ≠ .ok (some s) := by
  -- the type is asked for again with fewer levels, unless it is only another name for itself
  induction left using Nat.strongRecOn generalizing s with
  | _ left ih =>
    intro hs
    obtain ⟨left', s', hs', hlt | ⟨-, hself⟩⟩ := ask_of_leads_trans h hs
    · exact ih left' hlt hs'
    · rw [ask_of_circles ⟨t, .refl, hself⟩] at hs
      cases hs

theorem ask_of_leads_to_cycle (hl : ReflTransGen (Leads env) t u) (hu : TransGen (Leads env) u u) :
    ask env limit left t ≠ .ok (some s) := by
  intro hs
  rcases reflTransGen_iff_eq_or_transGen.mp hl with rfl | hl
  · exact ask_of_cycle hu hs
  · obtain ⟨left', s', hs', -⟩ := ask_of_leads_trans hl hs
    exact ask_of_cycle hu hs'

theorem shapeIn_of_ask (h : ask env limit limit t = .ok (some s)) : t.shapeIn env limit = .ok s := by
  rw [shapeIn, trace, h]
  rfl

theorem ask_of_answered {r : Except Error (Option Shape)} (h : Answered env limit left t r) :
    ask env limit left t = r.mapError .fault := by
  -- parts without an answer come after the one that settles the matter, so it makes no difference what they give
  induction h with
  | unwrap hu _ ih => rw [ask_unwraps hu, ih]
  | leaf ht hl => exact ask_of_leaf ht hl
  | exceeded hl => exact ask_zero hl
  | @parts left t r answer hl _ hr ih =>
    rw [ask_succ hl, ← hr]
    apply (compound_respected respected_ahead _ (ends_iff.mpr ⟨r, hr⟩)).symm
    intro p hp hends
    obtain ⟨r', hr'⟩ := ends_iff.mp hends
    rw [hr', ih p hp r' hr']

theorem not_circles_of_ends (h : Ends (ask env limit left t)) : ¬ Circles env t :=
  fun ht => h (ask_of_circles ht)

theorem answered_of_ask {r : Except Error (Option Shape)} (h : ask env limit left t = r.mapError .fault) :
    Answered env limit left t r := by
  -- each part has a level less, and with as many levels only what is unwrapped follows
  induction left using Nat.strongRecOn generalizing t r with
  | _ left ih =>
    have ht : ¬ Circles env t := not_circles_of_ends (ends_iff.mpr ⟨r, h⟩)
    refine unwraps_induct (P := fun t => ask env limit left t = r.mapError .fault → Answered env limit left t r)
      (fun t u hu answered h => ?_) (fun t hu h => ?_) ht h
    · rw [ask_unwraps hu] at h
      exact .unwrap hu (answered h)
    · cases hl : t.leaf? with
      | some found =>
        rw [ask_of_leaf hu hl] at h
        exact .leaf hu (h ▸ hl)
      | none =>
        cases left with
        | zero =>
          rw [ask_zero hl] at h
          cases r <;> cases h
          exact .exceeded hl
        | succ left =>
          rw [ask_succ hl] at h
          exact .parts hl (fun p _ r' hr' => ih left (Nat.lt_succ_self left) hr') h

theorem answered_iff {r : Except Error (Option Shape)} :
    Answered env limit left t r ↔ ask env limit left t = r.mapError .fault :=
  ⟨ask_of_answered, answered_of_ask⟩

theorem Answered.of_meanings {env' : Env} {r : Except Error (Option Shape)}
    (h : Answered env limit left t r)
    (hsame : ∀ name, ReflTransGen (Leads env) t (.named name) → env.meaning name = env'.meaning name) :
    Answered env' limit left t r := by
  induction h with
  | unwrap hu _ ih =>
    cases hu with
    | newtype => exact .unwrap .newtype (ih fun name hl => hsame name (.head (.inr .newtype) hl))
    | @named name =>
      have ht := ih fun name hl => hsame name (.head (.inr .named) hl)
      rw [hsame name .refl] at ht
      exact .unwrap .named ht
  | leaf ht hl =>
    refine .leaf (fun u hu => ?_) hl
    cases hu with
    | newtype => exact ht _ .newtype
    | named => exact ht _ .named
  | exceeded hl => exact .exceeded hl
  | parts hl _ hr ih =>
    exact .parts hl (fun p hp r' hr' => ih p hp r' hr' fun name hn => hsame name (.head (.inl hp) hn)) hr

theorem not_answered_of_circles {r : Except Error (Option Shape)} (h : Circles env t) :
    ¬ Answered env limit left t r := by
  rw [answered_iff, ask_of_circles h]
  exact (ends_iff.mpr ⟨r, rfl⟩).symm

theorem ends_leaf {found : Except NoShape (Option Shape)} (hu : ∀ u, ¬ Unwraps env t u) (h : t.leaf? = some found) :
    Ends found := by
  rintro rfl
  cases t with
  | named name => exact hu _ .named
  | tuple elems => cases elems <;> cases h
  | tupleStruct name elems => cases elems <;> cases h
  | blob cap =>
    rw [leaf?, Option.some_inj] at h
    cases hcap : cap.ofBlob (some []) <;> rw [hcap] at h <;> cases h
  | _ => cases h

theorem not_circles (h : ∀ u, ReflTransGen (Leads env) t u → ¬ TransGen (Unwraps env) u u) : ¬ Circles env t := by
  rintro ⟨u, hu, hcircle⟩
  exact h u (hu.lift id fun _ _ => .inr) hcircle

theorem ends_ask (h : ∀ u, ReflTransGen (Leads env) t u → ¬ TransGen (Unwraps env) u u) :
    Ends (ask env limit left t) := by
  induction left using Nat.strongRecOn generalizing t with
  | _ left ih =>
    refine unwraps_induct
      (P := fun t => (∀ u, ReflTransGen (Leads env) t u → ¬ TransGen (Unwraps env) u u) → Ends (ask env limit left t))
      (fun t u hu ends h => ?_) (fun t hu h => ?_) (not_circles h) h
    · rw [ask_unwraps hu]
      exact ends fun v hv => h v (.head (.inr hu) hv)
    · cases hl : t.leaf? with
      | some found =>
        rw [ask_of_leaf hu hl]
        exact ends_leaf hu hl
      | none =>
        cases left with
        | zero =>
          rw [ask_zero hl]
          exact ends_fault _
        | succ left =>
          rw [ask_succ hl]
          have hparts : ∀ p ∈ t.parts, Ends (ask env limit left p) := fun p hp =>
            ih left (Nat.lt_succ_self left) fun v hv => h v (.head (.inl hp) hv)
          exact @compound_respected _ (ask env limit left) t _ respected_ends hparts

end Tracing

open Relation in
/-- The shape of a type is nested no deeper than the limit that it is found within, so that it is found within
every larger one and neither encoding nor decoding under it meets the limit. A type that leads to one that leads
back to itself has no shape within any limit, and its questions come to an end if each way back goes through a
part. Those for a circle of newtypes and names do not. -/
theorem shapeIn_limits (env : Env) (t : Ty) :
    (∀ limit s, t.shapeIn env limit = .ok s →
      s.depth ≤ limit ∧
      (∀ limit', limit ≤ limit' → t.shapeIn env limit' = .ok s) ∧
      ∀ c : Config, limit ≤ c.maxDepth →
        (∀ v, ¬ Exceeds (encodeValue c s v)) ∧ (∀ data, ¬ Exceeds (decodeValue c s data)) ∧
        ∀ data dst, ¬ ExceedsInto (decodeValueInto c s data dst)) ∧
    (∀ u, ReflTransGen (Leads env) t u → TransGen (Leads env) u u → ∀ limit,
      (∀ s, t.shapeIn env limit ≠ .ok s) ∧
      ((∀ v, ReflTransGen (Leads env) t v → ¬ TransGen (Unwraps env) v v) →
        (∃ r, Answered env limit limit t r) ∧ ∃ e, t.trace env limit = .error (.fault e))) ∧
    (Circles env t → ∀ limit left r, ¬ Answered env limit left t r) := by
  refine ⟨fun limit s hs => ?_, fun u htu hu limit => ⟨fun s hs => ?_, fun hparts => ?_⟩, ?_⟩
  · have hask := ask_of_shapeIn hs
    have hdepth := depth_of_ask hask
    refine ⟨hdepth, fun limit' hle => shapeIn_of_ask (keeps_ask hle _ hask), fun c hc => ⟨fun v => ?_, fun data => ?_, ?_⟩⟩
    · apply (limited_encodeValue (Nat.le_refl c.maxDepth) rfl s v).not_exceeds
      omega
    · apply (limited_decodeValue (Nat.le_refl c.maxDepth) s data).not_exceeds
      omega
    · exact not_exceedsInto (Nat.le_trans hdepth hc)
  · exact ask_of_leads_to_cycle htu hu (ask_of_shapeIn hs)
  · have hends : Ends (ask env limit limit t) := ends_ask hparts
    obtain ⟨r, hr⟩ := ends_iff.mp hends
    refine ⟨⟨r, answered_of_ask hr⟩, ?_⟩
    obtain ⟨traced, htraced⟩ := ends_iff.mp (hends.bind ends_requested)
    cases traced with
    | ok s => exact absurd (ask_of_trace htraced) (ask_of_leads_to_cycle htu hu)
    | error e => exact ⟨e, htraced⟩
  · exact fun h limit left r => not_answered_of_circles h

theorem shapeIn_limits_list :
    let env : Env := [("Point", .struct "Point" [("x", .option .bool)]),
      ("List", .struct "List" [("point", .named "Point"), ("rest", .option (.named "List"))])]
    let s : Shape := .seq (.record [("x", .optional .bool)])
    (Ty.seq (.named "Point")).shapeIn env 3 = .ok s ∧ (Ty.seq (.named "Point")).shapeIn env 9 = .ok s ∧ s.depth ≤ 3 ∧
      ¬ Exceeds (decodeValue { maxDepth := 3 } s [1, 1, 1]) ∧
      (∀ s, (Ty.named "List").shapeIn env 64 ≠ .ok s) ∧ ∃ e, (Ty.named "List").trace env 64 = .error (.fault e) := by
  intro env s
  have hs : (Ty.seq (.named "Point")).shapeIn env 3 = .ok s := rfl
  obtain ⟨hdepth, larger, within⟩ := (shapeIn_limits env (.seq (.named "Point"))).1 3 s hs
  have hcycle : Relation.TransGen (Leads env) (.named "List") (.named "List") :=
    .head (.inr .named) (.head (.inl (List.mem_cons_of_mem _ List.mem_cons_self)) (.single (.inl List.mem_cons_self)))
  have hparts (name name' : String) : (env.meaning name).bare ≠ .named name' := by
    rw [Env.meaning, lookup_cons_eq, lookup_cons_eq]
    intro h
    split_ifs at h <;> cases h
  obtain ⟨none, ends⟩ := (shapeIn_limits env (.named "List")).2.1 _ .refl hcycle 64
  exact ⟨hs, larger 9 (by decide), hdepth, (within { maxDepth := 3 } (Nat.le_refl 3)).2.1 _, none,
    (ends fun v _ => not_transGen_unwraps hparts).2⟩

/-- A newtype that holds itself is never answered, and so neither is a struct with a field of it, though that leads
back to itself through parts only. -/
theorem shapeIn_limits_endless :
    let a : Ty := .struct "A" [("b", .named "B"), ("a", .option (.named "A"))]
    let env : Env := [("A", a), ("B", .newtype "B" (.named "B"))]
    Relation.TransGen (Leads env) a a ∧ ¬ Relation.TransGen (Unwraps env) a a ∧
      ∀ limit r, ¬ Answered env (limit + 1) (limit + 1) a r ∧ ¬ Answered env limit limit (.named "B") r := by
  intro a env
  have hb : Circles env (.named "B") := ⟨.named "B", .refl, .head .named (.single .newtype)⟩
  refine ⟨?_, ?_, fun limit r => ⟨?_, not_answered_of_circles hb⟩⟩
  · exact .head (.inl (List.mem_cons_of_mem _ List.mem_cons_self)) (.head (.inl List.mem_cons_self) (.single (.inr .named)))
  · intro h
    obtain ⟨u, hu, -⟩ := Relation.TransGen.head'_iff.mp h
    exact not_unwraps_of_leaf? rfl u hu
  · have hask : ask env (limit + 1) (limit + 1) a = .error .endless := by
      rw [ask_succ rfl]
      simp only [a, compound, fieldShapes, ask_of_circles hb]
      rfl
    rw [answered_iff, hask]
    exact (ends_iff.mpr ⟨r, rfl⟩).symm

end Ty

end ShapeCodec
