import ShapeCodec.Proofs.Tracing
import Mathlib.Data.List.Nodup
import Mathlib.Logic.Relation

/-!
Types that lead to one another by way of names. Newtypes and names are followed until something else comes, or
in a circle.
-/

namespace ShapeCodec

namespace Ty

/-- The types that a type asks for when it is asked for in its turn, each of them a level further in. -/
def parts : Ty → List Ty
  | .option inner | .seq inner => [inner]
  | .tuple elems | .tupleStruct _ elems => elems
  | .map key val => [key, val]
  | .struct _ fields => fields.map (·.2)
  | _ => []

/-- What stands for another type and takes no level of its own. -/
inductive Unwraps (env : Env) : Ty → Ty → Prop
  | newtype {name : String} {inner : Ty} : Unwraps env (.newtype name inner) inner
  | named {name : String} : Unwraps env (.named name) (env.meaning name)

def Leads (env : Env) (t u : Ty) : Prop :=
  u ∈ t.parts ∨ Unwraps env t u

open Relation

def Circles (env : Env) (t : Ty) : Prop :=
  ∃ u, ReflTransGen (Unwraps env) t u ∧ TransGen (Unwraps env) u u

variable {env : Env} {t u v : Ty} {name : String} {n limit left : Nat}

theorem Unwraps.unique (h : Unwraps env t u) (h' : Unwraps env t v) : u = v := by
  cases h <;> cases h' <;> rfl

theorem unwraps_to_bare (env : Env) (t : Ty) : ReflTransGen (Unwraps env) t t.bare := by
  fun_induction bare t with
  | case1 name inner ih => exact .head .newtype ih
  | case2 t => exact .refl

theorem follow_of_named (h : t.bare = .named name) : follow bare env (n + 1) t = follow bare env n (env.meaning name) := by
  rw [follow, h]

theorem follow_of_ne_named (h : ∀ name, t.bare ≠ .named name) : follow bare env n t = t.bare := by
  cases n with
  | zero => rfl
  | succ n =>
    rw [follow]
    split
    · next name hname => exact absurd hname (h name)
    · rfl

theorem follow_nothing : follow bare env n .nothing = .nothing :=
  follow_of_ne_named nofun

/-- Who follows names for longer than there are definitions comes round to one of them again. -/
theorem circles_of_follow {seen : List String} (hn : seen.Nodup) (hdef : ∀ a ∈ seen, a ∈ env.map (·.1))
    (hto : ∀ a ∈ seen, TransGen (Unwraps env) (.named a) t) (hlen : env.length < seen.length + n)
    (h : follow bare env n t = .named name) : Circles env t := by
  -- each lookup adds a defined name to those seen, so that one of them comes again before the lookups run out
  induction n generalizing t seen with
  | zero =>
    have hle := (hn.subperm hdef).length_le
    rw [List.length_map] at hle
    omega
  | succ n ih =>
    by_cases hname : ∃ a, t.bare = .named a
    · obtain ⟨a, ha⟩ := hname
      rw [follow_of_named ha] at h
      have hbare : ReflTransGen (Unwraps env) t (.named a) := ha ▸ unwraps_to_bare env t
      by_cases hseen : a ∈ seen
      · exact ⟨.named a, hbare, (hto a hseen).trans_left hbare⟩
      by_cases hin : a ∈ env.map (·.1)
      · have hto' : ∀ b ∈ a :: seen, TransGen (Unwraps env) (.named b) (env.meaning a) :=
          List.forall_mem_cons.mpr ⟨.single .named, fun b hb => ((hto b hb).trans_left hbare).tail .named⟩
        obtain ⟨u, hu, hcircle⟩ := ih (List.nodup_cons.mpr ⟨hseen, hn⟩) (List.forall_mem_cons.mpr ⟨hin, hdef⟩) hto'
          (by rw [List.length_cons]; omega) h
        exact ⟨u, (hbare.tail .named).trans hu, hcircle⟩
      · rw [Env.meaning, lookup_eq_none_iff_not_mem.mpr hin, Option.getD_none, follow_nothing] at h
        cases h
    · rw [follow_of_ne_named (not_exists.mp hname)] at h
      exact absurd ⟨name, h⟩ hname

theorem not_rel_of_acc {α : Type} {r : α → α → Prop} {a : α} (h : Acc r a) : ¬ r a a := by
  induction h with
  | intro a _ ih => exact fun ha => ih a ha ha

theorem not_acc_of_circles (h : Circles env t) : ¬ Acc (Function.swap (Unwraps env)) t := by
  obtain ⟨u, htu, hu⟩ := h
  intro ht
  have hacc : Acc (Function.swap (Unwraps env)) u := by
    clear hu
    induction htu with
    | refl => exact ht
    | tail _ hstep ih => exact ih.inv hstep
  exact not_rel_of_acc hacc.transGen (transGen_swap.mpr hu)

theorem acc_of_bare (h : ∀ name, t.bare = .named name → Acc (Function.swap (Unwraps env)) (.named name)) :
    Acc (Function.swap (Unwraps env)) t := by
  fun_induction bare t with
  | case1 name inner ih =>
    constructor
    rintro u ⟨⟩
    exact ih h
  | case2 t ht =>
    constructor
    intro u hu
    cases hu with
    | newtype => exact absurd rfl (ht _ _)
    | named => exact (h _ rfl).inv .named

theorem acc_of_follow (h : ∀ name, follow bare env n t ≠ .named name) : Acc (Function.swap (Unwraps env)) t := by
  induction n generalizing t with
  | zero => exact acc_of_bare fun name hname => absurd hname (h name)
  | succ n ih =>
    apply acc_of_bare
    intro name hname
    constructor
    rintro u ⟨⟩
    rw [follow_of_named hname] at h
    exact ih h

theorem not_transGen_unwraps (h : ∀ name name', (env.meaning name).bare ≠ .named name') :
    ¬ TransGen (Unwraps env) t t := by
  intro ht
  apply not_acc_of_circles ⟨t, .refl, ht⟩
  apply acc_of_bare
  intro name _
  constructor
  rintro u ⟨⟩
  exact acc_of_bare fun name' hname => absurd hname (h name name')

theorem circles_of_head (h : head env t = .named name) : Circles env t :=
  circles_of_follow List.nodup_nil nofun nofun (by rw [List.length_nil]; omega) h

theorem circles_iff_head : Circles env t ↔ ∃ name, head env t = .named name := by
  constructor
  · intro h
    by_contra hne
    exact not_acc_of_circles h (acc_of_follow (not_exists.mp hne))
  · rintro ⟨name, h⟩
    exact circles_of_head h

theorem acc_of_not_circles (h : ¬ Circles env t) : Acc (Function.swap (Unwraps env)) t := by
  rw [circles_iff_head, not_exists] at h
  exact acc_of_follow h

theorem unwraps_induct {P : Ty → Prop} (unwrap : ∀ t u, Unwraps env t u → P u → P t)
    (stop : ∀ t, (∀ u, ¬ Unwraps env t u) → P t) (ht : ¬ Circles env t) : P t := by
  have hacc := acc_of_not_circles ht
  clear ht
  induction hacc with
  | intro t _ ih =>
    by_cases hu : ∃ u, Unwraps env t u
    · obtain ⟨u, hu⟩ := hu
      exact unwrap t u hu (ih u hu)
    · exact stop t (not_exists.mp hu)

theorem Circles.of_unwraps (h : Unwraps env t u) (ht : Circles env t) : Circles env u := by
  by_contra hu
  refine not_acc_of_circles ht ⟨_, fun v hv => ?_⟩
  obtain rfl := h.unique hv
  exact acc_of_not_circles hu

theorem follow_succ (h : ∀ name, follow bare env n t ≠ .named name) :
    follow bare env (n + 1) t = follow bare env n t := by
  induction n generalizing t with
  | zero => exact follow_of_ne_named h
  | succ n ih =>
    by_cases hname : ∃ name, t.bare = .named name
    · obtain ⟨name, hname⟩ := hname
      rw [follow_of_named hname] at h
      rw [follow_of_named hname, follow_of_named hname, ih h]
    · rw [follow_of_ne_named (not_exists.mp hname), follow_of_ne_named (not_exists.mp hname)]

theorem head_unwraps (h : Unwraps env t u) (ht : ¬ Circles env t) : head env t = head env u := by
  rw [circles_iff_head, not_exists] at ht
  cases h with
  | newtype => rfl
  | named => exact (follow_succ ht).symm

theorem head_of_not_unwraps (h : ∀ u, ¬ Unwraps env t u) : head env t = t := by
  cases t with
  | newtype name inner => exact absurd .newtype (h inner)
  | named name => exact absurd .named (h _)
  | _ => rfl

theorem ask_of_circles (h : Circles env t) : ask env limit left t = .error .endless := by
  obtain ⟨name, hname⟩ := circles_iff_head.mp h
  exact ask_leaf (by rw [hname]; rfl)

theorem ask_unwraps (h : Unwraps env t u) : ask env limit left t = ask env limit left u := by
  by_cases ht : Circles env t
  · rw [ask_of_circles ht, ask_of_circles (ht.of_unwraps h)]
  · cases left <;> rw [ask, ask, head_unwraps h ht]

end Ty

end ShapeCodec
