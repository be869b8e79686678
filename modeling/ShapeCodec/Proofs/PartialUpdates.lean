import ShapeCodec.Proofs.PartialData
import ShapeCodec.Proofs.TracingLimit

namespace ShapeCodec

open Ty

def Datum.field? (name : String) : Datum → Option Datum
  | .struct fields => fields.lookup name
  | _ => none

theorem Datum.lookup_toFields {ds : List (String × Datum)} {vs : List (String × Value)}
    (h : toFields ds = .ok vs) (name : String) : (ds.lookup name = none ∧ vs.lookup name = none) ∨
      ∃ d v, ds.lookup name = some d ∧ vs.lookup name = some v ∧ d.toValue = .ok v := by
  induction ds generalizing vs with
  | nil =>
    cases h
    exact .inl ⟨rfl, rfl⟩
  | cons f ds ih =>
    obtain ⟨n, d⟩ := f
    obtain ⟨v, hv, h⟩ := Except.bind_eq_ok.mp h
    obtain ⟨vs, hvs, h⟩ := Except.bind_eq_ok.mp h
    cases h
    rw [lookup_cons_eq, lookup_cons_eq]
    by_cases hn : n = name
    · rw [if_pos hn, if_pos hn]
      exact .inr ⟨d, v, rfl, rfl, hv⟩
    · rw [if_neg hn, if_neg hn]
      exact ih hvs

namespace Value

inductive FieldRead (env : Env) (old new : Option Value) (t : Ty) (back : Datum) : Prop
  | updated {u : Value} : new = some u → (overlay (old.getD .nil) u).read env t = .ok back → FieldRead env old new t back
  | kept {v : Value} : new = none → old = some v → v.read env t = .ok back → FieldRead env old new t back
  | missing : new = none → old = none → back = .absent → t.IsOption → FieldRead env old new t back

theorem read_overlayFields {ι : Type} {env : Env} {xs : List ι} {name : ι → String} {ty : ι → Ty} {back : ι → Datum}
    {fields us : List (String × Value)} (hn : (xs.map name).Nodup) (hf : (fields.map (·.1)).Nodup)
    (hu : (us.map (·.1)).Nodup) (hkf : ∀ f ∈ fields, f.1 ∈ xs.map name) (hku : ∀ u ∈ us, u.1 ∈ xs.map name)
    (h : ∀ x ∈ xs, FieldRead env (fields.lookup (name x)) (us.lookup (name x)) (ty x) (back x)) (struct : String) :
    (Value.record (overlayFields fields us)).read env (.struct struct (xs.map fun x => (name x, ty x))) =
      .ok (.struct (xs.map fun x => (name x, back x))) := by
  refine read_record hn (nodup_overlayFields hf us) (fun f hm => ?_) (fun x hx v hv => ?_) (fun x hx hv => ?_) struct
  · rcases name_mem_of_overlayFields hm with hm | hm
    · obtain ⟨g, hg, he⟩ := List.mem_map.mp hm
      exact he ▸ hkf g hg
    · obtain ⟨g, hg, he⟩ := List.mem_map.mp hm
      exact he ▸ hku g hg
  · rw [lookup_overlayFields hu] at hv
    rcases h x hx with ⟨hnew, hr⟩ | ⟨hnew, hold, hr⟩ | ⟨hnew, hold, -, -⟩
    · rw [hnew] at hv
      cases hv
      exact hr
    · rw [hnew, hold] at hv
      cases hv
      exact hr
    · rw [hnew, hold] at hv
      cases hv
  · rw [lookup_overlayFields hu] at hv
    rcases h x hx with ⟨hnew, -⟩ | ⟨hnew, hold, -⟩ | ⟨-, -, hb, ht⟩
    · rw [hnew] at hv
      cases hv
    · rw [hnew, hold] at hv
      cases hv
    · exact ⟨hb, ht⟩

end Value

section Whole

variable {env : Env} {t : Ty} {limit left : Nat} {s : Shape}

theorem fields_of_conforms {known : List (String × Shape)} (hk : (known.map (·.1)).Nodup) {w : Value}
    (hw : (Shape.record known).Conforms w) :
    (w.fields.map (·.1)).Nodup ∧ (∀ f ∈ w.fields, f.1 ∈ known.map (·.1)) ∧
      ∀ f ∈ known, ∀ v, w.fields.lookup f.1 = some v → f.2.Conforms v := by
  rcases hw with rfl | ⟨fields, rfl, hn, hf⟩
  · exact ⟨List.nodup_nil, nofun, fun f _ v hv => by cases hv⟩
  · refine ⟨hn, fun f hm => ?_, fun f hm v hv => ?_⟩
    · obtain ⟨s, hs, -⟩ := Shape.conformsField_iff.mp (hf f hm)
      exact List.mem_map.mpr ⟨_, mem_of_lookup hs, rfl⟩
    · obtain ⟨s, hs, hc⟩ := Shape.conformsField_iff.mp (hf _ (mem_of_lookup hv))
      rw [lookup_of_mem hk hm] at hs
      cases hs
      exact hc

theorem content_of_conforms {known : List (String × Shape)} {fields : List (String × Value)}
    (h : ∀ f ∈ known, ∀ v, fields.lookup f.1 = some v → f.2.Conforms v) {f : String × Shape} (hf : f ∈ known) :
    (fields.lookup f.1).getD .nil = .nil ∨ f.2.Conforms ((fields.lookup f.1).getD .nil) := by
  cases hl : fields.lookup f.1 with
  | none => exact .inl rfl
  | some v => exact .inr (h f hf v hl)

theorem replaced_of_leaf (hl : (head env t).leaf?.isSome) (h : ask env limit left t = .ok (some s)) :
    s.IsReplaced := by
  obtain ⟨found, hfound⟩ := Option.isSome_iff_exists.mp hl
  rw [ask_leaf hfound] at h
  subst h
  rcases leaf_shape hfound with rfl | ⟨kind, rfl⟩ | rfl | rfl <;> trivial

theorem exists_back {d : Datum} (hd : t.Holds d) (h : ask env limit left t = .ok (some s)) {v : Value}
    (hv : d.toValue = .ok v) (hover : ∀ w, (w = .nil ∨ s.Conforms w) →
      (Value.overlay w (canon s v)).read env t = (Value.overlay .nil (canon s v)).read env t) :
    ∃ back, t.Same d back ∧
      ∀ w, (w = .nil ∨ s.Conforms w) → (Value.overlay w (canon s v)).read env t = .ok back := by
  obtain ⟨v', back, hcar⟩ := carries_of_ask hd h
  obtain rfl : v = v' := Except.ok.inj (hv.symm.trans hcar.written)
  refine ⟨back, hcar.same, fun w hw => ?_⟩
  rw [hover w hw, Value.overlay_nil_of_conforms (conforms_canon (distinct_of_ask h) hcar.conforms), hcar.read]

theorem exists_field_back {known : List (String × Shape)} (hk : (known.map (·.1)).Nodup)
    {ds : List (String × Datum)} {vs : List (String × Value)} (hvs : Datum.toFields ds = .ok vs)
    (hcv : ∀ f ∈ known, ∀ v, vs.lookup f.1 = some v → f.2.Conforms v) {name : String} (hf : (name, s) ∈ known)
    {d : Datum} (hl : ds.lookup name = some d) (hd : t.Holds d) (h : ask env limit left t = .ok (some s))
    (hover : ∀ v, d.toValue = .ok v → s.Conforms v → ∀ w, (w = .nil ∨ s.Conforms w) →
      (Value.overlay w (canon s v)).read env t = (Value.overlay .nil (canon s v)).read env t) :
    ∃ u back, (canonFields vs known).lookup name = some u ∧ t.Same d back ∧
      ∀ w, (w = .nil ∨ s.Conforms w) → (Value.overlay w u).read env t = .ok back := by
  obtain ⟨v, hlv, hv⟩ : ∃ v, vs.lookup name = some v ∧ d.toValue = .ok v := by
    rcases Datum.lookup_toFields hvs name with ⟨hnone, -⟩ | ⟨d', v, hd', hlv, hv⟩
    · cases hl.symm.trans hnone
    · cases hl.symm.trans hd'
      exact ⟨v, hlv, hv⟩
  have hc := hcv _ hf v hlv
  obtain ⟨back, hsame, hback⟩ := exists_back hd h hv (hover v hv hc)
  refine ⟨canon s v, back, ?_, hsame, hback⟩
  rw [lookup_canonFields hk hf, hlv]
  rfl

theorem read_overlay_struct {ι : Type} {xs : List ι} {name : ι → String} {ty : ι → Ty} {shape : ι → Shape}
    {us : List (String × Value)} (hn : (xs.map name).Nodup)
    (h : ∀ x ∈ xs, ∃ q : Value × Datum,
      (canonFields us (xs.map fun x => (name x, shape x))).lookup (name x) = some q.1 ∧
      ∀ w, (w = .nil ∨ (shape x).Conforms w) → (Value.overlay w q.1).read env (ty x) = .ok q.2)
    {w : Value} (hw : (Shape.record (xs.map fun x => (name x, shape x))).Conforms w) (struct : String) :
    (Value.overlay w (canon (.record (xs.map fun x => (name x, shape x))) (.record us))).read env
        (.struct struct (xs.map fun x => (name x, ty x))) =
      (Value.overlay .nil (canon (.record (xs.map fun x => (name x, shape x))) (.record us))).read env
        (.struct struct (xs.map fun x => (name x, ty x))) := by
  have hk : ((xs.map fun x => (name x, shape x)).map (·.1)).Nodup := by rwa [List.map_map]
  have hnames : (xs.map fun x => (name x, shape x)).map (·.1) = xs.map name := by
    rw [List.map_map]
    rfl
  choose! q hq using h
  have hread (w : Value) (hw : (Shape.record (xs.map fun x => (name x, shape x))).Conforms w) :
      (Value.overlay w (canon (.record (xs.map fun x => (name x, shape x))) (.record us))).read env
          (.struct struct (xs.map fun x => (name x, ty x))) =
        .ok (.struct (xs.map fun x => (name x, (q x).2))) := by
    obtain ⟨hnw, hkw, hcw⟩ := fields_of_conforms hk hw
    refine Value.read_overlayFields hn hnw (nodup_names_canonFields hk) (fun f hf => hnames ▸ hkw f hf)
      (fun u hu => hnames ▸ name_mem_of_canonFields hu) (fun x hx => ?_) struct
    obtain ⟨hlu, hback⟩ := hq x hx
    exact .updated hlu (hback _ (content_of_conforms hcw (List.mem_map.mpr ⟨x, hx, rfl⟩)))
  exact (hread w hw).trans (hread .nil (.inl rfl)).symm

theorem read_overlay {d : Datum} (hd : t.HoldsLeaving (fun _ => False) d)
    (h : ask env limit left t = .ok (some s)) {v : Value} (hv : d.toValue = .ok v) (hc : s.Conforms v) {w : Value}
    (hw : w = .nil ∨ s.Conforms w) :
    (Value.overlay w (canon s v)).read env t = (Value.overlay .nil (canon s v)).read env t := by
  have hreplaced {t : Ty} {s : Shape} {v w : Value} (hs : s.IsReplaced) (hc : s.Conforms v) :
      (Value.overlay w (canon s v)).read env t = (Value.overlay .nil (canon s v)).read env t := by
    rw [Value.overlay_canon_of_replaced hs hc, Value.overlay_canon_of_replaced hs hc]
  induction hd generalizing left s v w with
  | absent t =>
    obtain ⟨m, rfl, hcomp⟩ := compound_of_ask rfl h
    obtain ⟨s, rfl, -⟩ := compound_option hcomp
    cases hv
    rfl
  | present _ ih =>
    obtain ⟨m, rfl, hcomp⟩ := compound_of_ask rfl h
    obtain ⟨s, rfl, hs⟩ := compound_option hcomp
    obtain ⟨v, hv', rfl⟩ := Except.map_eq_ok.mp hv
    obtain ⟨_, ⟨⟩, hc⟩ := hc.resolve_left nofun
    have htarget : w.target = .nil ∨ s.Conforms w.target := by
      rcases hw with rfl | rfl | ⟨w, rfl, hw⟩
      · exact .inl rfl
      · exact .inl rfl
      · exact .inr hw
    exact congrArg (Except.map Datum.present) (ih hs hv' hc htarget)
  | seq _ _ =>
    obtain ⟨m, rfl, hcomp⟩ := compound_of_ask rfl h
    obtain ⟨s, rfl, -⟩ := compound_seq hcomp
    exact hreplaced trivial hc
  | @tuple parts _ _ =>
    rcases ask_eq_ok h with hleaf | ⟨m, rfl, hcomp⟩
    · rcases parts with _ | ⟨p, parts⟩ <;> cases hleaf
    · obtain ⟨s, rfl, -⟩ := compound_tuple hcomp
      exact hreplaced trivial hc
  | @tupleStruct name parts _ _ =>
    rcases ask_eq_ok h with hleaf | ⟨m, rfl, hcomp⟩
    · rcases parts with _ | ⟨p, parts⟩ <;> cases hleaf
    · obtain ⟨s, rfl, -⟩ := compound_tupleStruct hcomp
      exact hreplaced trivial hc
  | map _ _ _ _ _ =>
    obtain ⟨m, rfl, hcomp⟩ := compound_of_ask rfl h
    obtain ⟨k, v, rfl, -⟩ := compound_map hcomp
    exact hreplaced trivial hc
  | @struct name contents hheld hleft ih =>
    obtain ⟨m, rfl, hcomp⟩ := compound_of_ask rfl h
    obtain ⟨known, rfl, hf⟩ := compound_struct hcomp
    obtain ⟨asked, rfl, rfl, hask, -, hn⟩ := fieldShapes_map_eq_ok hf
    obtain ⟨vs, hvs, rfl⟩ := Except.map_eq_ok.mp hv
    have hs := distinct_of_ask h
    obtain ⟨-, -, hcv⟩ := fields_of_conforms hs.names hc
    have hnames : ((asked.map Prod.fst).map (·.1)).Nodup := by rwa [List.map_map]
    rw [List.map_map]
    refine read_overlay_struct hn (fun a ha => ?_) (hw.elim .inl id) name
    have hmem : a.1 ∈ asked.map Prod.fst := List.mem_map_of_mem ha
    obtain ⟨d, hd⟩ := Option.ne_none_iff_exists'.mp fun hnone => hleft a.1 hmem hnone
    have hl : ((asked.map Prod.fst).filterMap fun c => c.2.2.map (Prod.mk c.1)).lookup a.1.1 = a.1.2.2 :=
      lookup_filterMap hnames hmem
    obtain ⟨u, back, hlu, -, hback⟩ := exists_field_back hs.names hvs hcv (List.mem_map.mpr ⟨a, ha, rfl⟩)
      (hl.trans hd) ((hheld a.1 hmem d hd).holds nofun) (hask a ha)
      fun v hv hc w hw => ih a.1 hmem d hd (hask a ha) hv hc hw
    exact ⟨(u, back), hlu, hback⟩
  | newtype _ ih =>
    rw [ask_newtype] at h
    rw [Value.read_newtype, Value.read_newtype, ih h hv hc hw]
  | _ => exact hreplaced (replaced_of_leaf rfl h) hc

end Whole

namespace Ty

theorem ask_of_alone {root root' t : Ty} {limit left left' : Nat} {s s' : Shape}
    (hroot : ask root.alone limit left root = .ok (some s)) (hleads : Relation.TransGen (Leads root.alone) root t)
    (h : ask root.alone limit left' t = .ok (some s')) : ask root'.alone limit left' t = .ok (some s') := by
  have hanswered : Answered root.alone limit left' t (.ok (some s')) := answered_of_ask h
  refine ask_of_answered (hanswered.of_meanings fun name hname => ?_)
  by_cases hself : name = ""
  · subst hself
    exact absurd hroot (ask_of_cycle ((hleads.trans_left hname).tail (.inr .named)))
  · rw [Env.meaning, Env.meaning, alone, alone, lookup_cons_eq, lookup_cons_eq, if_neg (Ne.symm hself),
      if_neg (Ne.symm hself)]

theorem ask_struct {env : Env} {limit left : Nat} {name : String} {fields : List (String × Ty)} {s : Shape}
    (h : ask env limit left (.struct name fields) = .ok (some s)) :
    ∃ m, ∃ asked : List ((String × Ty) × Shape), left = m + 1 ∧ fields = asked.map Prod.fst ∧
      s = .record (asked.map fun a => (a.1.1, a.2)) ∧ (asked.map (·.1.1)).Nodup ∧
      ∀ a ∈ asked, ask env limit m a.1.2 = .ok (some a.2) := by
  obtain ⟨m, rfl, hc⟩ := compound_of_ask rfl h
  obtain ⟨known, rfl, hf⟩ := compound_struct hc
  rw [← List.map_id fields] at hf
  obtain ⟨asked, hfields, rfl, hask, -, hn⟩ := fieldShapes_map_eq_ok hf
  exact ⟨m, asked, rfl, hfields, rfl, hn, hask⟩

theorem HoldsLeaving.fields {leaves : Ty → Prop} {name : String} {fields : List (String × Ty)} {x : Datum}
    (h : (Ty.struct name fields).HoldsLeaving leaves x) (hn : (fields.map (·.1)).Nodup) :
    ∃ ds, x = .struct ds ∧ ∀ f ∈ fields,
      (∀ d, ds.lookup f.1 = some d → f.2.HoldsLeaving leaves d) ∧ (ds.lookup f.1 = none → leaves f.2) := by
  cases h with
  | @struct name contents hheld hleft =>
    refine ⟨_, rfl, List.forall_mem_map.mpr fun c hc => ?_⟩
    rw [List.map_map] at hn
    have hl : (contents.filterMap fun c => c.2.2.map (Prod.mk c.1)).lookup c.1 = c.2.2 := lookup_filterMap hn hc
    rw [hl]
    exact ⟨hheld c hc, hleft c hc⟩

end Ty

theorem decodeDatumInto_eq_ok {c : Config} {s : Shape} {t : Ty} {input : Bytes} {x y : Datum} {v w : Value} {used : Nat}
    (hx : x.toValue = .ok v) (hd : decodeValueInto c s input v = .ok used w) (hr : w.toDatum t = .ok y) :
    decodeDatumInto c s t input x = .ok used y := by
  rw [decodeDatumInto]
  refine EStateM.bind_eq_ok.mpr ⟨x, x, EStateM.get_eq_ok.mpr ⟨rfl, rfl⟩, ?_⟩
  refine EStateM.bind_eq_ok.mpr ⟨v, x, EStateM.ofExcept_eq_ok.mpr ⟨hx, rfl⟩, ?_⟩
  rw [hd]
  exact EStateM.bind_eq_ok.mpr ⟨y, x, EStateM.ofExcept_eq_ok.mpr ⟨hr, rfl⟩, rfl⟩

namespace Ty

theorem decodeValueInto_of_encode {t : Ty} {s s' : Shape} (hs : t.shape = .ok s) (hext : s.ExtendedBy s') {d : Datum}
    {v : Value} (hv : d.toValue = .ok v) {b : Bytes} (hb : t.encode d = .ok b) (suffix : Bytes) (dst : Value) :
    decodeValueInto {} s' (b ++ suffix) dst = .ok b.length (Value.overlay dst (canon s v)) := by
  have hask := ask_of_shapeWithin hs
  have hd := distinct_of_ask hask
  rw [Ty.encode, hs, Except.ok_bind, encodeDatum, hv, Except.ok_bind] at hb
  obtain ⟨⟨hc, hdepth⟩, rfl, hlen⟩ := (encodeValue_eq_ok_iff hd).mp hb
  have hl : s.All fun u => u.layers < 2 ^ 63 := (all_of_ask hask).imp fun u hu => by
    have : u.layers ≤ 64 := hu.2
    omega
  have hlen : (encoding s v).length ≤ 2 ^ 24 := hlen
  exact decodeValueInto_encoding_of_extendedBy hext hd hc hdepth (fits_of_length hd hl hc (by omega)) suffix dst

theorem asked_of_part {nameT nameU : String} {fields part : List (String × Ty)} {sT sU : Shape}
    (hT : (Ty.struct nameT fields).shape = .ok sT) (hU : (Ty.struct nameU part).shape = .ok sU)
    (hpart : ∀ f ∈ part, f ∈ fields) :
    ∃ m, ∃ asked updated : List ((String × Ty) × Shape), fields = asked.map Prod.fst ∧ part = updated.map Prod.fst ∧
      sT = .record (asked.map fun a => (a.1.1, a.2)) ∧ sU = .record (updated.map fun a => (a.1.1, a.2)) ∧
      (asked.map (·.1.1)).Nodup ∧ (∀ a ∈ updated, a ∈ asked) ∧
      ∀ a ∈ asked, ask (Ty.struct nameT fields).alone 64 m a.1.2 = .ok (some a.2) := by
  have hT := ask_of_shapeWithin hT
  have hU := ask_of_shapeWithin hU
  obtain ⟨m, asked, hm, hfields, hsT, hn, hask⟩ := ask_struct hT
  obtain ⟨m', updated, hm', hupdated, hsU, -, hask'⟩ := ask_struct hU
  obtain rfl : m = m' := Nat.succ.inj (hm.symm.trans hm')
  refine ⟨m, asked, updated, hfields, hupdated, hsT, hsU, hn, fun a ha => ?_, hask⟩
  have hmem : a.1 ∈ fields := hpart _ (hupdated ▸ List.mem_map_of_mem ha)
  obtain ⟨a', ha', he⟩ := List.mem_map.mp (hfields ▸ hmem)
  have hleads : Relation.TransGen (Leads (Ty.struct nameT fields).alone) (.struct nameT fields) a.1.2 :=
    .single (.inl (List.mem_map_of_mem hmem))
  have hsame : ask (Ty.struct nameU part).alone 64 m a.1.2 = .ok (some a'.2) :=
    ask_of_alone hT hleads (he ▸ hask a' ha')
  have hs : a'.2 = a.2 := Option.some.inj (Except.ok.inj (hsame.symm.trans (hask' a ha)))
  rwa [← Prod.ext he hs]

section Fields

variable {env : Env} {t : Ty} {limit left : Nat} {s : Shape} {ds : List (String × Datum)} {vs us : List (String × Value)}
  {name : String}

theorem fieldRead_kept (h : ask env limit left t = .ok (some s)) (hvs : Datum.toFields ds = .ok vs)
    (hold : ∀ d, ds.lookup name = some d → t.HoldsLeaving IsOption d) (hleft : ds.lookup name = none → t.IsOption)
    (hu : us.lookup name = none) :
    Value.FieldRead env (vs.lookup name) (us.lookup name) t (((ds.lookup name).map t.completed).getD .absent) := by
  rcases Datum.lookup_toFields hvs name with ⟨hd, hv⟩ | ⟨d, v, hd, hv, hw⟩
  · rw [hd]
    exact .missing hu hv rfl (hleft hd)
  · obtain ⟨v', hwrites⟩ := writes_of_ask (hold d hd) h
    cases hw.symm.trans hwrites.written
    rw [hd]
    exact .kept hu hv (hwrites.read fun _ => id)

theorem fieldRead_updated {known : List (String × Shape)} (hk : (known.map (·.1)).Nodup)
    (h : ask env limit left t = .ok (some s)) (hf : (name, s) ∈ known) (hvs : Datum.toFields ds = .ok vs)
    (hcv : ∀ f ∈ known, ∀ v, vs.lookup f.1 = some v → f.2.Conforms v) {d : Datum} (hl : ds.lookup name = some d)
    (hd : t.HoldsLeaving (fun _ => False) d) {old : Option Value}
    (hold : old.getD .nil = .nil ∨ s.Conforms (old.getD .nil)) :
    ∃ back, Value.FieldRead env old ((canonFields vs known).lookup name) t back ∧ t.Same d back := by
  obtain ⟨u, back, hu, hsame, hback⟩ := exists_field_back hk hvs hcv hf hl (hd.holds nofun) h
    fun v hv hc w hw => read_overlay hd h hv hc hw
  exact ⟨back, .updated hu (hback _ hold), hsame⟩

end Fields

theorem read_overlay_part {asked updated : List ((String × Ty) × Shape)} {env : Env} {limit m : Nat}
    (hn : (asked.map (·.1.1)).Nodup) (hsub : ∀ a ∈ updated, a ∈ asked)
    (hask : ∀ a ∈ asked, ask env limit m a.1.2 = .ok (some a.2)) {dx du : List (String × Datum)}
    {vs us : List (String × Value)} (hvs : Datum.toFields dx = .ok vs) (hus : Datum.toFields du = .ok us)
    (hcx : (Shape.record (asked.map fun a => (a.1.1, a.2))).Conforms (.record vs))
    (hcu : (Shape.record (updated.map fun a => (a.1.1, a.2))).Conforms (.record us))
    (hnu : (updated.map (·.1.1)).Nodup)
    (hkept : ∀ a ∈ asked, a ∉ updated → (∀ d, dx.lookup a.1.1 = some d → a.1.2.HoldsLeaving IsOption d) ∧
      (dx.lookup a.1.1 = none → a.1.2.IsOption))
    (hdu : ∀ a ∈ updated, ∃ d, du.lookup a.1.1 = some d ∧ a.1.2.HoldsLeaving (fun _ => False) d) (struct : String) :
    ∃ back : (String × Ty) × Shape → Datum,
      (Value.record (Value.overlayFields vs (canonFields us (updated.map fun a => (a.1.1, a.2))))).read env
        (.struct struct (asked.map Prod.fst)) = .ok (.struct (asked.map fun a => (a.1.1, back a))) ∧
      (∀ a ∈ asked, a ∉ updated → back a = ((dx.lookup a.1.1).map a.1.2.completed).getD .absent) ∧
      ∀ a ∈ updated, ∃ d, du.lookup a.1.1 = some d ∧ a.1.2.Same d (back a) := by
  have hnT : ((asked.map fun a => (a.1.1, a.2)).map (·.1)).Nodup := by rwa [List.map_map]
  have hnU : ((updated.map fun a => (a.1.1, a.2)).map (·.1)).Nodup := by rwa [List.map_map]
  obtain ⟨hnx, hkx, hcx⟩ := fields_of_conforms hnT hcx
  obtain ⟨-, -, hcu⟩ := fields_of_conforms hnU hcu
  have hnames : ∀ f ∈ canonFields us (updated.map fun a => (a.1.1, a.2)), ∃ a ∈ updated, a.1.1 = f.1 := by
    intro f hf
    have hname := name_mem_of_canonFields hf
    rw [List.map_map] at hname
    exact List.mem_map.mp hname
  have hparts : ∀ a ∈ asked, ∃ back, Value.FieldRead env (vs.lookup a.1.1)
      ((canonFields us (updated.map fun a => (a.1.1, a.2))).lookup a.1.1) a.1.2 back ∧
      (a ∉ updated → back = ((dx.lookup a.1.1).map a.1.2.completed).getD .absent) ∧
      (a ∈ updated → ∃ d, du.lookup a.1.1 = some d ∧ a.1.2.Same d back) := by
    intro a ha
    by_cases hin : a ∈ updated
    · obtain ⟨d, hd, hheld⟩ := hdu a hin
      obtain ⟨back, hread, hsame⟩ := fieldRead_updated hnU (hask a ha) (List.mem_map.mpr ⟨a, hin, rfl⟩) hus hcu hd
        hheld (content_of_conforms hcx (List.mem_map.mpr ⟨a, ha, rfl⟩))
      exact ⟨back, hread, fun hnot => absurd hin hnot, fun _ => ⟨d, hd, hsame⟩⟩
    · obtain ⟨hold, hleft⟩ := hkept a ha hin
      refine ⟨_, fieldRead_kept (hask a ha) hvs hold hleft ?_, fun _ => rfl, fun h => absurd h hin⟩
      rw [lookup_eq_none_iff_not_mem]
      intro hu
      obtain ⟨f, hf, hname⟩ := List.mem_map.mp hu
      obtain ⟨a', ha', he⟩ := hnames f hf
      exact hin (List.inj_on_of_nodup_map hn (hsub a' ha') ha (he.trans hname) ▸ ha')
  choose! back hback using hparts
  refine ⟨back, ?_, fun a ha => (hback a ha).2.1, fun a ha => (hback a (hsub a ha)).2.2 ha⟩
  refine Value.read_overlayFields hn hnx (nodup_names_canonFields hnU) (fun f hf => ?_) (fun f hf => ?_)
    (fun a ha => (hback a ha).1) struct
  · have hname := hkx f hf
    rwa [List.map_map] at hname
  · obtain ⟨a, ha, he⟩ := hnames f hf
    exact List.mem_map.mpr ⟨a, hsub a ha, he⟩

/-- An update of some fields of a struct, decoded over a datum of it. The fields that the update has hold what it
has for them, and the others what they held, if what these leave out are options, which are absent then. -/
theorem decodeInto_of_encode_part {nameT nameU : String} {fields part : List (String × Ty)} {sT sU : Shape}
    (hT : (Ty.struct nameT fields).shape = .ok sT) (hU : (Ty.struct nameU part).shape = .ok sU)
    (hpart : ∀ f ∈ part, f ∈ fields) {x u : Datum} (hx : (Ty.struct nameT fields).HoldsLeaving (fun _ => True) x)
    (hkept : ∀ f ∈ fields, f ∉ part → (∀ d, x.field? f.1 = some d → f.2.HoldsLeaving IsOption d) ∧
      (x.field? f.1 = none → f.2.IsOption))
    (hu : (Ty.struct nameU part).HoldsLeaving (fun _ => False) u) {b : Bytes}
    (hb : (Ty.struct nameU part).encode u = .ok b) (suffix : Bytes) :
    ∃ ds, (Ty.struct nameT fields).decodeInto (b ++ suffix) x = .ok b.length (.struct ds) ∧
      ds.map (·.1) = fields.map (·.1) ∧
      (∀ f ∈ fields, f ∉ part → ds.lookup f.1 = some (((x.field? f.1).map f.2.completed).getD .absent) ∧
        ∀ d, x.field? f.1 = some d → f.2.HoldsLeaving (fun _ => False) d → ds.lookup f.1 = some d) ∧
      ∀ f ∈ part, ∃ d d', u.field? f.1 = some d ∧ ds.lookup f.1 = some d' ∧ f.2.Same d d' := by
  have hsU := distinct_of_ask (ask_of_shapeWithin hU)
  obtain ⟨vx, hwx⟩ := writes_of_ask hx (ask_of_shapeWithin hT)
  obtain ⟨vu, hwu⟩ := writes_of_ask hu (ask_of_shapeWithin hU)
  obtain ⟨m, asked, updated, rfl, rfl, rfl, rfl, hn, hsub, hask⟩ := asked_of_part hT hU hpart
  have hnT : ((asked.map fun a => (a.1.1, a.2)).map (·.1)).Nodup := by rwa [List.map_map]
  have hnU : (updated.map (·.1.1)).Nodup := by
    have h := hsU.names
    rwa [List.map_map] at h
  obtain ⟨dx, rfl, -⟩ := hx.fields (by rwa [List.map_map])
  obtain ⟨du, rfl, hdu⟩ := hu.fields (by rwa [List.map_map])
  obtain ⟨vs, hvs, rfl⟩ := Except.map_eq_ok.mp hwx.written
  obtain ⟨us, hus, rfl⟩ := Except.map_eq_ok.mp hwu.written
  have hext : (Shape.record (updated.map fun a => (a.1.1, a.2))).ExtendedBy
      (.record (asked.map fun a => (a.1.1, a.2))) :=
    Shape.ExtendedBy.of_subset hsU hnT (List.forall_mem_map.mpr fun a ha => List.mem_map.mpr ⟨a, hsub a ha, rfl⟩)
  have hmem : ∀ a ∈ asked, a.1 ∈ updated.map Prod.fst → a ∈ updated := by
    intro a ha hin
    obtain ⟨a', ha', he⟩ := List.mem_map.mp hin
    exact List.inj_on_of_nodup_map hn (hsub a' ha') ha (congrArg Prod.fst he) ▸ ha'
  obtain ⟨back, hread, hold, hnew⟩ := read_overlay_part hn hsub hask hvs hus hwx.conforms hwu.conforms hnU
    (fun a ha hin => hkept a.1 (List.mem_map_of_mem ha) fun h => hin (hmem a ha h))
    (fun a ha => by
      obtain ⟨hheld, hthere⟩ := hdu a.1 (List.mem_map_of_mem ha)
      obtain ⟨d, hd⟩ := Option.ne_none_iff_exists'.mp hthere
      exact ⟨d, hd, hheld d hd⟩)
    nameT
  have hlookup : ∀ a ∈ asked, (asked.map fun a => (a.1.1, back a)).lookup a.1.1 = some (back a) := fun a ha =>
    lookup_of_mem (by rwa [List.map_map]) (List.mem_map.mpr ⟨a, ha, rfl⟩)
  refine ⟨asked.map fun a => (a.1.1, back a), ?_, ?_, List.forall_mem_map.mpr fun a ha hin => ?_,
    List.forall_mem_map.mpr fun a ha => ?_⟩
  · have hdec := decodeValueInto_of_encode hU hext hwu.written hb suffix (.record vs)
    exact EStateM.bind_eq_ok.mpr ⟨_, _, EStateM.ofExcept_eq_ok.mpr ⟨hT, rfl⟩,
      decodeDatumInto_eq_ok hwx.written hdec hread⟩
  · rw [List.map_map, List.map_map]
    rfl
  · have hl := hlookup a ha
    rw [hold a ha fun h => hin (List.mem_map_of_mem h)] at hl
    refine ⟨hl, fun d hd hheld => ?_⟩
    have hd : dx.lookup a.1.1 = some d := hd
    rw [hl, hd, Option.map_some, completed_eq_self hheld (hask a ha), Option.getD_some]
  · obtain ⟨d, hd, hsame⟩ := hnew a ha
    exact ⟨d, back a, hd, hlookup a (hsub a ha), hsame⟩

theorem decodeInto_of_encode_part_points :
    let point : Ty := .struct "point" [("x", .bool), ("y", .option .bool)]
    let t : Ty := .struct "user" [("id", .int .u8), ("at", .option point), ("home", point), ("on", .bool)]
    let part : Ty := .struct "change" [("on", .bool), ("at", .option point)]
    let id : Datum := .int (.ofUnsigned 7)
    let old : Datum := .struct [("x", .bool true)]
    let new : Datum := .struct [("x", .bool false), ("y", .absent)]
    let x : Datum := .struct [("id", id), ("at", .present old), ("home", old)]
    let u : Datum := .struct [("on", .bool true), ("at", .present new)]
    let b : Bytes := [1, 19, 1, 2, 111, 110, 1, 1, 2, 97, 116, 1, 8, 1, 1, 120, 0, 1, 1, 121, 64]
    part.encode u = .ok b ∧ ∃ ds, t.decodeInto (b ++ [255]) x = .ok 21 (.struct ds) ∧ ds.lookup "id" = some id ∧
      ds.lookup "home" = some (.struct [("x", .bool true), ("y", .absent)]) ∧
      ∃ d, ds.lookup "at" = some d ∧ (Ty.option point).Same (.present new) d := by
  intro point t part id old new x u b
  have hold {leaves : Ty → Prop} (hy : leaves (.option .bool)) : point.HoldsLeaving leaves old := by
    refine @HoldsLeaving.struct _ "point" [("x", _, some (.bool true)), ("y", _, none)] ?_ ?_
    · simpa using HoldsLeaving.bool true
    · simpa using hy
  have hnew : point.HoldsLeaving (fun _ => False) new := by
    refine @HoldsLeaving.struct _ "point" [("x", _, some (.bool false)), ("y", _, some .absent)] ?_ ?_
    · simpa using ⟨HoldsLeaving.bool false, HoldsLeaving.absent .bool⟩
    · simp
  have hid {leaves : Ty → Prop} : (Ty.int .u8).HoldsLeaving leaves id := .int (by decide)
  have hx : t.HoldsLeaving (fun _ => True) x := by
    refine @HoldsLeaving.struct _ "user" [("id", _, some id), ("at", _, some (.present old)), ("home", _, some old),
      ("on", _, none)] ?_ ?_
    · simpa using ⟨hid, .present (hold trivial), hold trivial⟩
    · simp
  have hu : part.HoldsLeaving (fun _ => False) u := by
    refine @HoldsLeaving.struct _ "change" [("on", _, some (.bool true)), ("at", _, some (.present new))] ?_ ?_
    · simpa using ⟨HoldsLeaving.bool true, .present hnew⟩
    · simp
  have hb : part.encode u = .ok b := rfl
  have hkept : ∀ f ∈ [("id", Ty.int .u8), ("at", .option point), ("home", point), ("on", .bool)],
      f ∉ [("on", Ty.bool), ("at", .option point)] →
        (∀ d, x.field? f.1 = some d → f.2.HoldsLeaving IsOption d) ∧ (x.field? f.1 = none → f.2.IsOption) := by
    refine List.forall_mem_cons.mpr ⟨fun _ => ⟨fun d hd => ?_, nofun⟩, List.forall_mem_cons.mpr ⟨fun h => ?_,
      List.forall_mem_cons.mpr ⟨fun _ => ⟨fun d hd => ?_, nofun⟩, List.forall_mem_singleton.mpr fun h => ?_⟩⟩⟩
    · cases hd
      exact hid
    · exact absurd (List.mem_cons_of_mem _ List.mem_cons_self) h
    · cases hd
      exact hold ⟨_, rfl⟩
    · exact absurd List.mem_cons_self h
  obtain ⟨ds, hds, -, hrest, hpart⟩ := decodeInto_of_encode_part rfl rfl (by simp) hx hkept hu hb [255]
  have hat := hpart ("at", .option point) (List.mem_cons_of_mem _ List.mem_cons_self)
  obtain ⟨d, d', hd, hl, hsame⟩ := hat
  cases hd
  have hidk := hrest ("id", .int .u8) List.mem_cons_self (by simp)
  have hhome := hrest ("home", point) (by simp) (by simp [point])
  exact ⟨hb, ds, hds, hidk.1, hhome.1, d', hl, hsame⟩

/-- A list that is left out is missing from the datum as it is read again. -/
theorem decodeInto_of_encode_part_missing :
    let t : Ty := .struct "T" [("a", .bool), ("v", .seq .bool)]
    let part : Ty := .struct "U" [("a", .bool)]
    let x : Datum := .struct [("a", .bool true)]
    let u : Datum := .struct [("a", .bool false)]
    let b : Bytes := [1, 4, 1, 1, 97, 0]
    (∃ s, t.shape = .ok s) ∧ (∃ s, part.shape = .ok s) ∧ t.HoldsLeaving (fun _ => True) x ∧
      part.HoldsLeaving (fun _ => False) u ∧ part.encode u = .ok b ∧
      t.decodeInto b x = .error (.refused (.missingField "v")) x := by
  intro t part x u b
  have hx : t.HoldsLeaving (fun _ => True) x := by
    refine @HoldsLeaving.struct _ "T" [("a", _, some (.bool true)), ("v", _, none)] ?_ ?_
    · simpa using HoldsLeaving.bool true
    · simp
  have hu : part.HoldsLeaving (fun _ => False) u := by
    refine @HoldsLeaving.struct _ "U" [("a", _, some (.bool false))] ?_ ?_
    · simpa using HoldsLeaving.bool false
    · simp
  exact ⟨⟨_, rfl⟩, ⟨_, rfl⟩, hx, hu, rfl, rfl⟩

end Ty

end ShapeCodec
