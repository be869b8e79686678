import ShapeCodec.Proofs.TypedRoundTrip

namespace ShapeCodec

namespace Ty

/-- Data of the types that shapes are found for, as `Holds` has them, but that a struct may leave out a field
of any type that `leaves` holds of. -/
inductive HoldsLeaving (leaves : Ty → Prop) : Ty → Datum → Prop
  | bool (b : Bool) : HoldsLeaving leaves .bool (.bool b)
  | int {kind : IntKind} {n : Integer} : kind.contains n → HoldsLeaving leaves (.int kind) (.int n)
  | char (c : Char) : HoldsLeaving leaves .char (.char c)
  | string (s : String) : HoldsLeaving leaves .string (.str s)
  | str (s : String) : HoldsLeaving leaves .str (.str s)
  | bytes (bs : Bytes) : HoldsLeaving leaves .bytes (.bytes bs)
  | byteBuf (bs : Bytes) : HoldsLeaving leaves .byteBuf (.bytes bs)
  | blob {cap : Capability} {content data : Option Bytes} : cap.toBlob content = .ok data →
      cap.ofBlob data = .ok content → HoldsLeaving leaves (.blob cap) (.blob cap content)
  | absent (t : Ty) : HoldsLeaving leaves (.option t) .absent
  | present {t : Ty} {d : Datum} : HoldsLeaving leaves t d → HoldsLeaving leaves (.option t) (.present d)
  | seq {t : Ty} {items : List Datum} : (∀ d ∈ items, HoldsLeaving leaves t d) →
      HoldsLeaving leaves (.seq t) (.seq items)
  | tuple {parts : List (Ty × Datum)} : (∀ p ∈ parts, HoldsLeaving leaves p.1 p.2) →
      HoldsLeaving leaves (.tuple (parts.map (·.1))) (.seq (parts.map (·.2)))
  | tupleStruct {name : String} {parts : List (Ty × Datum)} : (∀ p ∈ parts, HoldsLeaving leaves p.1 p.2) →
      HoldsLeaving leaves (.tupleStruct name (parts.map (·.1))) (.seq (parts.map (·.2)))
  | map {key val : Ty} {pairs : List (Datum × Datum)} : (pairs.map (·.1)).Nodup →
      (∀ p ∈ pairs, HoldsLeaving leaves key p.1) → (∀ p ∈ pairs, HoldsLeaving leaves val p.2) →
      HoldsLeaving leaves (.map key val) (.map pairs)
  | struct {name : String} {contents : List (String × Ty × Option Datum)} :
      (∀ c ∈ contents, ∀ d, c.2.2 = some d → HoldsLeaving leaves c.2.1 d) →
      (∀ c ∈ contents, c.2.2 = none → leaves c.2.1) →
      HoldsLeaving leaves (.struct name (contents.map fun c => (c.1, c.2.1)))
        (.struct (contents.filterMap fun c => c.2.2.map (Prod.mk c.1)))
  | newtype {name : String} {t : Ty} {d : Datum} : HoldsLeaving leaves t d →
      HoldsLeaving leaves (.newtype name t) (.newtype d)

def IsOption (t : Ty) : Prop :=
  ∃ inner, t = .option inner

theorem HoldsLeaving.holds {leaves : Ty → Prop} (hl : ∀ t, leaves t → t.IsOption) {t : Ty}
    {d : Datum} (h : t.HoldsLeaving leaves d) : t.Holds d := by
  induction h with
  | bool b => exact .bool b
  | int hn => exact .int hn
  | char c => exact .char c
  | string s => exact .string s
  | str s => exact .str s
  | bytes bs => exact .bytes bs
  | byteBuf bs => exact .byteBuf bs
  | blob ht ho => exact .blob ht ho
  | absent t => exact .absent t
  | present _ ih => exact .present ih
  | seq _ ih => exact .seq ih
  | tuple _ ih => exact .tuple ih
  | tupleStruct _ ih => exact .tupleStruct ih
  | map hn _ _ ihk ihv => exact .map hn ihk ihv
  | struct _ hleft ih => exact .struct ih fun c hc hd => hl _ (hleft c hc hd)
  | newtype _ ih => exact .newtype ih

mutual

def completed : Ty → Datum → Datum
  | .option t, .present d => .present (t.completed d)
  | .seq t, .seq items => .seq (items.map t.completed)
  | .tuple ts, .seq items => .seq (completedItems ts items)
  | .tupleStruct _ ts, .seq items => .seq (completedItems ts items)
  | .map key val, .map pairs => .map (pairs.map fun p => (key.completed p.1, val.completed p.2))
  | .struct _ fields, .struct ds => .struct (completedFields fields ds)
  | .newtype _ t, .newtype d => .newtype (t.completed d)
  | _, d => d

def completedItems : List Ty → List Datum → List Datum
  | t :: ts, d :: ds => t.completed d :: completedItems ts ds
  | _, ds => ds

def completedFields : List (String × Ty) → List (String × Datum) → List (String × Datum)
  | [], _ => []
  | (name, t) :: fields, ds =>
    (name, ((ds.lookup name).map t.completed).getD .absent) :: completedFields fields ds

end

theorem completedItems_map {ι : Type} (ty : ι → Ty) (d : ι → Datum) (xs : List ι) :
    completedItems (xs.map ty) (xs.map d) = xs.map fun x => (ty x).completed (d x) := by
  induction xs with
  | nil => rfl
  | cons x xs ih => rw [List.map_cons, List.map_cons, completedItems, ih, List.map_cons]

theorem completedFields_eq (fields : List (String × Ty)) (ds : List (String × Datum)) :
    completedFields fields ds = fields.map fun f => (f.1, ((ds.lookup f.1).map f.2.completed).getD .absent) := by
  induction fields with
  | nil => rfl
  | cons f fields ih => rw [completedFields, ih, List.map_cons]

end Ty

open Ty

/-- A datum of a type and of its shape, the value that it is written as, and the completed datum that is read
back from there where options alone may be left out. -/
structure Writes (env : Env) (leaves : Ty → Prop) (t : Ty) (s : Shape) (d : Datum) (v : Value) : Prop where
  written : d.toValue = .ok v
  conforms : s.Conforms v
  read : (∀ t, leaves t → t.IsOption) → v.read env t = .ok (t.completed d)

namespace Writes

variable {env : Env} {t : Ty} {leaves : Ty → Prop} {s : Shape}

theorem newtype {d : Datum} {v : Value} {name : String} (h : Writes env leaves t s d v) :
    Writes env leaves (.newtype name t) s (.newtype d) v where
  written := h.written
  conforms := h.conforms
  read hl := by rw [Value.read_newtype, h.read hl, Except.ok_map, completed]

theorem present {d : Datum} {v : Value} (h : Writes env leaves t s d v) :
    Writes env leaves (.option t) (.optional s) (.present d) (.ref v) where
  written := by rw [Datum.toValue, h.written, Except.ok_map]
  conforms := .inr ⟨v, rfl, h.conforms⟩
  read hl := by
    change (v.read env t).map Datum.present = _
    rw [h.read hl, Except.ok_map, completed]

section Items

variable {ι : Type} {xs : List ι} {ty : ι → Ty} {d : ι → Datum} {v : ι → Value}

theorem items {u : Ty} (h : ∀ x ∈ xs, Writes env leaves (ty x) s (d x) (v x))
    (hread : (∀ t, leaves t → t.IsOption) →
      (Value.seq (xs.map v)).read env u = .ok (u.completed (.seq (xs.map d)))) :
    Writes env leaves u (.seq s) (.seq (xs.map d)) (.seq (xs.map v)) where
  written := by rw [Datum.toValue, Datum.toItems_map fun x hx => (h x hx).written, Except.ok_map]
  conforms := .inr ⟨_, rfl, List.forall_mem_map.mpr fun x hx => (h x hx).conforms⟩
  read := hread

theorem seq (h : ∀ x ∈ xs, Writes env leaves t s (d x) (v x)) :
    Writes env leaves (.seq t) (.seq s) (.seq (xs.map d)) (.seq (xs.map v)) := by
  refine items h fun hl => ?_
  rw [completed, List.map_map]
  exact Value.read_seq fun x hx => (h x hx).read hl

theorem tuple (h : ∀ x ∈ xs, Writes env leaves (ty x) s (d x) (v x)) :
    Writes env leaves (.tuple (xs.map ty)) (.seq s) (.seq (xs.map d)) (.seq (xs.map v)) := by
  refine items h fun hl => ?_
  rw [completed, completedItems_map]
  exact Value.read_tuple fun x hx => (h x hx).read hl

theorem tupleStruct (h : ∀ x ∈ xs, Writes env leaves (ty x) s (d x) (v x)) (name : String) :
    Writes env leaves (.tupleStruct name (xs.map ty)) (.seq s) (.seq (xs.map d)) (.seq (xs.map v)) := by
  refine items h fun hl => ?_
  rw [completed, completedItems_map]
  exact Value.read_tupleStruct (fun x hx => (h x hx).read hl) name

end Items

theorem map {key val : Ty} {k v : Shape} (ho : k.isOrderable) {both : List ((Datum × Datum) × Value × Value)}
    (hn : (both.map (·.2.1)).Nodup) (hkey : ∀ b ∈ both, Writes env leaves key k b.1.1 b.2.1)
    (hval : ∀ b ∈ both, Writes env leaves val v b.1.2 b.2.2) :
    Writes env leaves (.map key val) (.map k v) (.map (both.map (·.1))) (.map (both.map (·.2))) where
  written := by
    have hpairs : Datum.toPairs (both.map (·.1)) = .ok (both.map (·.2)) :=
      Datum.toPairs_map (fun b hb => (hkey b hb).written) fun b hb => (hval b hb).written
    rw [Datum.toValue, hpairs, Except.ok_map]
  conforms := by
    refine ⟨ho, .inr ⟨_, rfl, ?_, List.forall_mem_map.mpr fun b hb => ?_⟩⟩
    · rwa [List.map_map]
    · exact ⟨(hkey b hb).conforms, (hval b hb).conforms⟩
  read hl := by
    rw [completed, List.map_map]
    exact Value.read_map (fun b hb => (hkey b hb).read hl) fun b hb => (hval b hb).read hl

theorem struct {ι : Type} {xs : List ι} {name : ι → String} {ty : ι → Ty} {shape : ι → Shape}
    {content : ι → Option Datum} {value : ι → Option Value} (hn : (xs.map name).Nodup)
    (hleft : ∀ x ∈ xs, content x = none → leaves (ty x))
    (h : ∀ x ∈ xs, (content x = none ∧ value x = none) ∨
      ∃ d v, content x = some d ∧ value x = some v ∧ Writes env leaves (ty x) (shape x) d v) (struct : String) :
    Writes env leaves (.struct struct (xs.map fun x => (name x, ty x)))
      (.record (xs.map fun x => (name x, shape x)))
      (.struct (xs.filterMap fun x => (content x).map (Prod.mk (name x))))
      (.record (xs.filterMap fun x => (value x).map (Prod.mk (name x)))) where
  written := by
    rw [Datum.toValue, Datum.toFields_filterMap fun x hx => ?_, Except.ok_map]
    rcases h x hx with ⟨hc, hv⟩ | ⟨d, v, hc, hv, hw⟩
    · exact .inl ⟨hc, hv⟩
    · exact .inr ⟨d, v, hc, hv, hw.written⟩
  conforms := by
    have hnames : ((xs.map fun x => (name x, shape x)).map (·.1)).Nodup := by
      rw [List.map_map]
      exact hn
    refine .inr ⟨_, rfl, nodup_keys_filterMap hn, fun f hf => ?_⟩
    obtain ⟨x, hx, hname, hv⟩ := mem_filterMap_iff.mp hf
    rcases h x hx with ⟨-, hnone⟩ | ⟨d, v, -, hv', hw⟩
    · rw [hnone] at hv
      cases hv
    · rw [hv] at hv'
      cases hv'
      refine Shape.conformsField_iff.mpr ⟨shape x, lookup_of_mem hnames ?_, hw.conforms⟩
      exact List.mem_map.mpr ⟨x, hx, by rw [hname]⟩
  read hl := by
    rw [completed, completedFields_eq, List.map_map]
    have hback : ∀ x ∈ xs, ((fun f : String × Ty => (f.1, (((xs.filterMap fun x =>
        (content x).map (Prod.mk (name x))).lookup f.1).map f.2.completed).getD .absent)) ∘
          fun x => (name x, ty x)) x = (name x, ((content x).map (ty x).completed).getD .absent) := by
      intro x hx
      rw [Function.comp_apply, lookup_filterMap hn hx]
    rw [List.map_congr_left hback]
    refine Value.read_struct hn (fun x hx w hw => ?_) (fun x hx hw => ?_) struct
    · rcases h x hx with ⟨-, hnone⟩ | ⟨d, v, hc, hv, hwr⟩
      · rw [hnone] at hw
        cases hw
      · rw [hv] at hw
        cases hw
        rw [hc]
        exact hwr.read hl
    · rcases h x hx with ⟨hc, -⟩ | ⟨d, v, -, hv, -⟩
      · rw [hc]
        exact ⟨rfl, hl _ (hleft x hx hc)⟩
      · rw [hv] at hw
        cases hw

end Writes

section Written

variable {env : Env} {t : Ty} {leaves : Ty → Prop} {limit left : Nat} {s : Shape}

theorem not_orderable_of_compound {answer : Ty → Except NoShape (Option Shape)}
    (h : compound answer t = .ok (some s)) : ¬ s.isOrderable := by
  cases t with
  | option inner =>
    obtain ⟨s, rfl, -⟩ := compound_option h
    nofun
  | seq elem =>
    obtain ⟨s, rfl, -⟩ := compound_seq h
    nofun
  | tuple elems =>
    obtain ⟨s, rfl, -⟩ := compound_tuple h
    nofun
  | tupleStruct name elems =>
    obtain ⟨s, rfl, -⟩ := compound_tupleStruct h
    nofun
  | map key val =>
    obtain ⟨k, v, rfl, -⟩ := compound_map h
    nofun
  | struct name fields =>
    obtain ⟨known, rfl, -⟩ := compound_struct h
    nofun
  | _ => cases h

theorem leaf_of_orderable (h : ask env limit left t = .ok (some s)) (ho : s.isOrderable) :
    (head env t).leaf? = some (.ok (some s)) := by
  rcases ask_eq_ok h with hl | ⟨m, -, hc⟩
  · exact hl
  · exact absurd ho (not_orderable_of_compound hc)

theorem holds_of_orderable {d : Datum} (hd : t.HoldsLeaving leaves d) (h : ask env limit left t = .ok (some s))
    (ho : s.isOrderable) : t.Holds d := by
  induction hd with
  | bool b => exact .bool b
  | int hn => exact .int hn
  | char c => exact .char c
  | string text => exact .string text
  | str text => exact .str text
  | bytes bs => exact .bytes bs
  | byteBuf bs => exact .byteBuf bs
  | blob ht hc => exact .blob ht hc
  | newtype _ ih => exact .newtype (ih (ask_newtype _ _ ▸ h))
  | @tuple parts _ _ => rcases parts with _ | ⟨p, parts⟩ <;> cases leaf_of_orderable h ho
  | @tupleStruct name parts _ _ => rcases parts with _ | ⟨p, parts⟩ <;> cases leaf_of_orderable h ho
  | _ => cases leaf_of_orderable h ho

theorem read_of_orderable {d : Datum} (hd : t.HoldsLeaving leaves d) (h : ask env limit left t = .ok (some s))
    (ho : s.isOrderable) {v : Value} (hv : d.toValue = .ok v) : v.read env t = .ok d := by
  obtain ⟨v', back, hcar⟩ := carries_of_ask (holds_of_orderable hd h ho) h
  obtain rfl : v = v' := Except.ok.inj (hv.symm.trans hcar.written)
  have hread := hcar.read
  rwa [canon_of_orderable ho, hcar.exact ho] at hread

theorem writes_scalar {d : Datum} {v : Value} (hw : d.toValue = .ok v) (hc : s.Conforms v)
    (hr : v.read env t = .ok (t.completed d)) : ∃ v, Writes env leaves t s d v :=
  ⟨v, hw, hc, fun _ => hr⟩

theorem writes_of_ask {d : Datum} (hd : t.HoldsLeaving leaves d) (h : ask env limit left t = .ok (some s)) :
    ∃ v, Writes env leaves t s d v := by
  induction hd generalizing left s with
  | bool b =>
    cases shape_of_leaf rfl h
    exact writes_scalar rfl ⟨b, rfl⟩ rfl
  | int hn =>
    cases shape_of_leaf rfl h
    exact writes_scalar rfl ⟨_, rfl, hn⟩ (if_pos hn)
  | char c =>
    cases shape_of_leaf rfl h
    refine writes_scalar rfl ⟨_, rfl⟩ ?_
    change Reading.ofStr c.toString .char = _
    simp [Reading.ofStr, completed]
  | string text =>
    cases shape_of_leaf rfl h
    exact writes_scalar rfl ⟨text, rfl⟩ rfl
  | str text =>
    cases shape_of_leaf rfl h
    exact writes_scalar rfl ⟨text, rfl⟩ rfl
  | bytes bs =>
    cases shape_of_leaf rfl h
    exact writes_scalar rfl (.inr ⟨some bs, rfl⟩) rfl
  | byteBuf bs =>
    cases shape_of_leaf rfl h
    exact writes_scalar rfl (.inr ⟨some bs, rfl⟩) rfl
  | @blob cap content data ht ho =>
    rw [ask_leaf rfl] at h
    obtain ⟨_, -, h⟩ := Except.map_eq_ok.mp h
    cases h
    have hconvert : Reading.convert cap data = .ok (.blob cap content) := by
      rw [Reading.convert, ho]
      rfl
    cases data with
    | some bs =>
      refine writes_scalar ?_ (.inr ⟨some bs, rfl⟩) hconvert
      rw [Datum.toValue, ht]
    | none =>
      refine writes_scalar ?_ (.inl rfl) hconvert
      rw [Datum.toValue, ht]
  | absent t =>
    obtain ⟨m, rfl, hc⟩ := compound_of_ask rfl h
    obtain ⟨s, rfl, -⟩ := compound_option hc
    exact writes_scalar rfl (.inl rfl) rfl
  | present _ ih =>
    obtain ⟨m, rfl, hc⟩ := compound_of_ask rfl h
    obtain ⟨s, rfl, hs⟩ := compound_option hc
    obtain ⟨v, hv⟩ := ih hs
    exact ⟨_, hv.present⟩
  | @seq t items _ ih =>
    obtain ⟨m, rfl, hc⟩ := compound_of_ask rfl h
    obtain ⟨s, rfl, hs⟩ := compound_seq hc
    obtain ⟨both, rfl, hboth⟩ := exists_both fun d hd => ih d hd hs
    exact ⟨_, Writes.seq hboth⟩
  | @tuple parts _ ih =>
    rcases ask_eq_ok h with hleaf | ⟨m, rfl, hc⟩
    · rcases parts with _ | ⟨p, parts⟩ <;> cases hleaf
    · obtain ⟨s, rfl, -, hs⟩ := compound_tuple hc
      obtain ⟨both, rfl, hboth⟩ := exists_both fun p hp => ih p hp (hs p.1 (List.mem_map_of_mem hp))
      rw [List.map_map, List.map_map]
      exact ⟨_, Writes.tuple hboth⟩
  | @tupleStruct name parts _ ih =>
    rcases ask_eq_ok h with hleaf | ⟨m, rfl, hc⟩
    · rcases parts with _ | ⟨p, parts⟩ <;> cases hleaf
    · obtain ⟨s, rfl, -, hs⟩ := compound_tupleStruct hc
      obtain ⟨both, rfl, hboth⟩ := exists_both fun p hp => ih p hp (hs p.1 (List.mem_map_of_mem hp))
      rw [List.map_map, List.map_map]
      exact ⟨_, Writes.tupleStruct hboth name⟩
  | @map key val pairs hn hkeys _ ihk ihv =>
    obtain ⟨m, rfl, hc⟩ := compound_of_ask rfl h
    obtain ⟨k, v, rfl, ho, hk, hv⟩ := compound_map hc
    have hparts : ∀ p ∈ pairs, ∃ q : Value × Value,
        (Writes env leaves key k p.1 q.1 ∧ q.1.read env key = .ok p.1) ∧ Writes env leaves val v p.2 q.2 := by
      intro p hp
      obtain ⟨kv, hkw⟩ := ihk p hp hk
      obtain ⟨vv, hvw⟩ := ihv p hp hv
      exact ⟨(kv, vv), ⟨hkw, read_of_orderable (hkeys p hp) hk ho hkw.written⟩, hvw⟩
    obtain ⟨both, rfl, hboth⟩ := exists_both hparts
    rw [List.map_map] at hn
    have hnodup : (both.map (·.2.1)).Nodup := Value.nodup_of_read hn fun b hb => (hboth b hb).1.2
    exact ⟨_, Writes.map ho hnodup (fun b hb => (hboth b hb).1.1) fun b hb => (hboth b hb).2⟩
  | @struct name contents _ hleft ih =>
    obtain ⟨m, rfl, hc⟩ := compound_of_ask rfl h
    obtain ⟨known, rfl, hf⟩ := compound_struct hc
    obtain ⟨asked, rfl, rfl, hask, -, hn⟩ := fieldShapes_map_eq_ok hf
    have hparts : ∀ a ∈ asked, ∃ value : Option Value, (a.1.2.2 = none ∧ value = none) ∨
        ∃ d v, a.1.2.2 = some d ∧ value = some v ∧ Writes env leaves a.1.2.1 a.2 d v := by
      intro a ha
      cases hd : a.1.2.2 with
      | none => exact ⟨none, .inl ⟨rfl, rfl⟩⟩
      | some d =>
        obtain ⟨v, hv⟩ := ih a.1 (List.mem_map_of_mem ha) d hd (hask a ha)
        exact ⟨some v, .inr ⟨d, v, rfl, rfl, hv⟩⟩
    obtain ⟨both, rfl, hboth⟩ := exists_both hparts
    rw [List.map_map] at hn
    rw [List.map_map, List.map_map, List.map_map, List.filterMap_map, List.filterMap_map]
    have hnone : ∀ b ∈ both, b.1.1.2.2 = none → leaves b.1.1.2.1 :=
      fun b hb => hleft b.1.1 (List.mem_map_of_mem (List.mem_map_of_mem hb))
    exact ⟨_, Writes.struct hn hnone hboth name⟩
  | newtype _ ih =>
    rw [ask_newtype] at h
    obtain ⟨v, hv⟩ := ih h
    exact ⟨_, hv.newtype⟩

theorem completed_eq_self {d : Datum} (hd : t.HoldsLeaving (fun _ => False) d)
    (h : ask env limit left t = .ok (some s)) : t.completed d = d := by
  induction hd generalizing left s with
  | present _ ih =>
    obtain ⟨m, rfl, hc⟩ := compound_of_ask rfl h
    obtain ⟨s, rfl, hs⟩ := compound_option hc
    rw [completed, ih hs]
  | seq _ ih =>
    obtain ⟨m, rfl, hc⟩ := compound_of_ask rfl h
    obtain ⟨s, rfl, hs⟩ := compound_seq hc
    rw [completed, List.map_congr_left fun d hd => ih d hd hs, List.map_id']
  | @tuple parts _ ih =>
    rcases ask_eq_ok h with hleaf | ⟨m, rfl, hc⟩
    · rcases parts with _ | ⟨p, parts⟩ <;> cases hleaf
    · obtain ⟨s, rfl, -, hs⟩ := compound_tuple hc
      rw [completed, completedItems_map, List.map_congr_left fun p hp => ih p hp (hs p.1 (List.mem_map_of_mem hp))]
  | @tupleStruct name parts _ ih =>
    rcases ask_eq_ok h with hleaf | ⟨m, rfl, hc⟩
    · rcases parts with _ | ⟨p, parts⟩ <;> cases hleaf
    · obtain ⟨s, rfl, -, hs⟩ := compound_tupleStruct hc
      rw [completed, completedItems_map, List.map_congr_left fun p hp => ih p hp (hs p.1 (List.mem_map_of_mem hp))]
  | map _ _ _ ihk ihv =>
    obtain ⟨m, rfl, hc⟩ := compound_of_ask rfl h
    obtain ⟨k, v, rfl, -, hk, hv⟩ := compound_map hc
    rw [completed, List.map_congr_left fun p hp => by rw [ihk p hp hk, ihv p hp hv], List.map_id']
  | @struct name contents _ hleft ih =>
    obtain ⟨m, rfl, hc⟩ := compound_of_ask rfl h
    obtain ⟨known, rfl, hf⟩ := compound_struct hc
    obtain ⟨asked, rfl, rfl, hask, -, hn⟩ := fieldShapes_map_eq_ok hf
    have hn : ((asked.map Prod.fst).map (·.1)).Nodup := by rwa [List.map_map]
    rw [completed, completedFields_eq, List.map_map, ← List.filterMap_eq_map]
    refine congrArg Datum.struct (List.filterMap_congr fun c hm => ?_)
    obtain ⟨a, ha, rfl⟩ := List.mem_map.mp hm
    obtain ⟨d, hd⟩ := Option.ne_none_iff_exists'.mp fun hnone => hleft a.1 hm hnone
    simp only [Function.comp_apply]
    rw [lookup_filterMap hn hm, hd]
    exact congrArg (fun back => some (a.1.1, back)) (ih a.1 hm d hd (hask a ha))
  | newtype _ ih =>
    rw [ask_newtype] at h
    rw [completed, ih h]
  | _ => rfl

end Written

end ShapeCodec
