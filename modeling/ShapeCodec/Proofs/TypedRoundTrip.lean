import ShapeCodec.Typed.Coding
import ShapeCodec.Proofs.RoundTrip
import ShapeCodec.Proofs.Tracing
import ShapeCodec.Proofs.TypedData

namespace ShapeCodec

open Ty

/-- A datum of a type and of its shape, the value that it is written as, and what is read back from the
canonical form of that value. -/
structure Carries (env : Env) (left : Nat) (t : Ty) (s : Shape) (d : Datum) (v : Value) (back : Datum) :
    Prop where
  written : d.toValue = .ok v
  conforms : s.Conforms v
  depth_le : v.depth ≤ left
  read : (canon s v).read env t = .ok back
  same : t.Same d back
  exact : s.isOrderable → back = d

namespace Carries

variable {env : Env} {t : Ty} {left m : Nat} {s : Shape}

theorem newtype {d back : Datum} {v : Value} {name : String} (h : Carries env left t s d v back) :
    Carries env left (.newtype name t) s (.newtype d) v (.newtype back) where
  written := h.written
  conforms := h.conforms
  depth_le := h.depth_le
  read := by rw [Value.read_newtype, h.read, Except.ok_map]
  same := .newtype h.same
  exact ho := by rw [h.exact ho]

theorem absent : Carries env left (.option t) (.optional s) .absent .nil .absent where
  written := rfl
  conforms := .inl rfl
  depth_le := Nat.zero_le _
  read := rfl
  same := .refl _ _
  exact := nofun

theorem present {d back : Datum} {v : Value} (h : Carries env m t s d v back) :
    Carries env (m + 1) (.option t) (.optional s) (.present d) (.ref v) (.present back) where
  written := by rw [Datum.toValue, h.written, Except.ok_map]
  conforms := .inr ⟨v, rfl, h.conforms⟩
  depth_le := Nat.succ_le_succ h.depth_le
  read := by
    change ((canon s v).read env t).map Datum.present = _
    rw [h.read, Except.ok_map]
  same := .present h.same
  exact := nofun

section Items

variable {ι : Type} {xs : List ι} {ty : ι → Ty} {d back : ι → Datum} {v : ι → Value}

theorem items {u : Ty} (h : ∀ x ∈ xs, Carries env m (ty x) s (d x) (v x) (back x))
    (hread : (Value.seq (xs.map fun x => canon s (v x))).read env u = .ok (.seq (xs.map back)))
    (hsame : u.Same (.seq (xs.map d)) (.seq (xs.map back))) :
    Carries env (m + 1) u (.seq s) (.seq (xs.map d)) (.seq (xs.map v)) (.seq (xs.map back)) where
  written := by rw [Datum.toValue, Datum.toItems_map fun x hx => (h x hx).written, Except.ok_map]
  conforms := .inr ⟨_, rfl, List.forall_mem_map.mpr fun x hx => (h x hx).conforms⟩
  depth_le := by
    apply Nat.succ_le_succ
    rw [Value.depthItems_le_iff, List.forall_mem_map]
    exact fun x hx => (h x hx).depth_le
  read := by
    rw [canon, List.map_map]
    exact hread
  same := hsame
  exact := nofun

theorem seq (h : ∀ x ∈ xs, Carries env m t s (d x) (v x) (back x)) :
    Carries env (m + 1) (.seq t) (.seq s) (.seq (xs.map d)) (.seq (xs.map v)) (.seq (xs.map back)) := by
  have hsame : ∀ b ∈ xs.map fun x => (d x, back x), t.Same b.1 b.2 :=
    List.forall_mem_map.mpr fun x hx => (h x hx).same
  refine items h (Value.read_seq fun x hx => (h x hx).read) ?_
  simpa [Function.comp_def] using Same.seq hsame

theorem tuple (h : ∀ x ∈ xs, Carries env m (ty x) s (d x) (v x) (back x)) :
    Carries env (m + 1) (.tuple (xs.map ty)) (.seq s) (.seq (xs.map d)) (.seq (xs.map v)) (.seq (xs.map back)) := by
  have hsame : ∀ b ∈ xs.map fun x => (ty x, d x, back x), Same b.1 b.2.1 b.2.2 :=
    List.forall_mem_map.mpr fun x hx => (h x hx).same
  refine items h (Value.read_tuple fun x hx => (h x hx).read) ?_
  simpa [Function.comp_def] using Same.tuple hsame

theorem tupleStruct (h : ∀ x ∈ xs, Carries env m (ty x) s (d x) (v x) (back x)) (name : String) :
    Carries env (m + 1) (.tupleStruct name (xs.map ty)) (.seq s) (.seq (xs.map d)) (.seq (xs.map v))
      (.seq (xs.map back)) := by
  have hsame : ∀ b ∈ xs.map fun x => (ty x, d x, back x), Same b.1 b.2.1 b.2.2 :=
    List.forall_mem_map.mpr fun x hx => (h x hx).same
  refine items h (Value.read_tupleStruct (fun x hx => (h x hx).read) name) ?_
  simpa [Function.comp_def] using Same.tupleStruct hsame

end Items

section Maps

variable {key val : Ty} {k v : Shape} {both : List ((Datum × Datum) × (Value × Datum) × Value × Datum)}

theorem map (ho : k.isOrderable) (hn : (both.map (·.1.1)).Nodup)
    (hkey : ∀ b ∈ both, Carries env m key k b.1.1 b.2.1.1 b.2.1.2)
    (hval : ∀ b ∈ both, Carries env m val v b.1.2 b.2.2.1 b.2.2.2) :
    ∃ back, Carries env (m + 1) (.map key val) (.map k v) (.map (both.map (·.1)))
      (.map (both.map fun b => (b.2.1.1, b.2.2.1))) back := by
  have hread : ∀ b ∈ both, b.2.1.1.read env key = .ok b.1.1 := by
    intro b hb
    have hk := (hkey b hb).read
    rwa [canon_of_orderable ho, (hkey b hb).exact ho] at hk
  obtain ⟨sorted, hperm, hsorted⟩ := sortPairs_map_perm (fun b => (b.2.1.1, b.2.2.1)) both
  have hmem : ∀ b ∈ sorted, b ∈ both := fun b hb => hperm.mem_iff.mp hb
  refine ⟨.map (sorted.map fun b => (b.1.1, b.2.2.2)), ?_, ?_, ?_, ?_, ?_, nofun⟩
  · have hpairs : Datum.toPairs (both.map (·.1)) = .ok (both.map fun b => (b.2.1.1, b.2.2.1)) :=
      Datum.toPairs_map (fun b hb => (hkey b hb).written) fun b hb => (hval b hb).written
    rw [Datum.toValue, hpairs, Except.ok_map]
  · refine ⟨ho, .inr ⟨_, rfl, ?_, List.forall_mem_map.mpr fun b hb => ?_⟩⟩
    · rw [List.map_map]
      exact Value.nodup_of_read hn hread
    · exact ⟨(hkey b hb).conforms, (hval b hb).conforms⟩
  · apply Nat.succ_le_succ
    rw [Value.depthPairs_le_iff, List.forall_mem_map]
    exact fun b hb => ⟨(hkey b hb).depth_le, (hval b hb).depth_le⟩
  · rw [canon, hsorted, List.map_map]
    exact Value.read_map (fun b hb => hread b (hmem b hb)) fun b hb => (hval b (hmem b hb)).read
  · have hpairs : ((sorted.map fun b => (b.1.1, b.1.2, b.2.2.2)).map fun b => (b.1, b.2.1)).Perm
        (both.map (·.1)) := by
      rw [List.map_map]
      exact hperm.map _
    have hsame : ∀ b ∈ sorted.map fun b => (b.1.1, b.1.2, b.2.2.2), val.Same b.2.1 b.2.2 :=
      List.forall_mem_map.mpr fun b hb => (hval b (hmem b hb)).same
    simpa [Function.comp_def] using Same.map hpairs hsame

end Maps

end Carries

structure CarriesField (env : Env) (m : Nat) (t : Ty) (s : Shape) (content : Option Datum) (value : Option Value)
    (back : Datum) : Prop where
  there : ∀ v, value = some v → ∃ d, content = some d ∧ Carries env m t s d v back
  left : value = none → content = none ∧ back = .absent ∧ ∃ inner, t = .option inner

namespace CarriesField

variable {env : Env} {t : Ty} {m : Nat} {s : Shape} {content : Option Datum} {value : Option Value} {back : Datum}

theorem written (h : CarriesField env m t s content value back) :
    (content = none ∧ value = none) ∨
      ∃ d v, content = some d ∧ value = some v ∧ d.toValue = .ok v := by
  cases value with
  | none => exact .inl ⟨(h.left rfl).1, rfl⟩
  | some v =>
    obtain ⟨d, hd, hc⟩ := h.there v rfl
    exact .inr ⟨d, v, hd, rfl, hc.written⟩

theorem same (h : CarriesField env m t s content value back) {d : Datum} (hd : content = some d) :
    t.Same d back := by
  cases value with
  | none =>
    rw [(h.left rfl).1] at hd
    cases hd
  | some v =>
    obtain ⟨d', hd', hc⟩ := h.there v rfl
    rw [hd] at hd'
    cases hd'
    exact hc.same

theorem back_eq_absent (h : CarriesField env m t s content value back) (hd : content = none) :
    back = .absent := by
  cases value with
  | none => exact (h.left rfl).2.1
  | some v =>
    obtain ⟨d', hd', -⟩ := h.there v rfl
    rw [hd] at hd'
    cases hd'

end CarriesField

theorem Carries.struct {ι : Type} {xs : List ι} {env : Env} {m : Nat} {name : ι → String} {ty : ι → Ty}
    {shape : ι → Shape} {content : ι → Option Datum} {value : ι → Option Value} {back : ι → Datum}
    (hn : (xs.map name).Nodup)
    (h : ∀ x ∈ xs, CarriesField env m (ty x) (shape x) (content x) (value x) (back x)) (struct : String) :
    Carries env (m + 1) (.struct struct (xs.map fun x => (name x, ty x)))
      (.record (xs.map fun x => (name x, shape x)))
      (.struct (xs.filterMap fun x => (content x).map (Prod.mk (name x))))
      (.record (xs.filterMap fun x => (value x).map (Prod.mk (name x))))
      (.struct (xs.map fun x => (name x, back x))) := by
  have hnames : ((xs.map fun x => (name x, shape x)).map (·.1)).Nodup := by
    rw [List.map_map]
    exact hn
  refine ⟨?_, ?_, ?_, ?_, ?_, nofun⟩
  · rw [Datum.toValue, Datum.toFields_filterMap fun x hx => (h x hx).written, Except.ok_map]
  · refine .inr ⟨_, rfl, nodup_keys_filterMap hn, fun f hf => ?_⟩
    obtain ⟨x, hx, hname, hv⟩ := mem_filterMap_iff.mp hf
    obtain ⟨d, -, hc⟩ := (h x hx).there _ hv
    refine Shape.conformsField_iff.mpr ⟨shape x, lookup_of_mem hnames ?_, hc.conforms⟩
    exact List.mem_map.mpr ⟨x, hx, by rw [hname]⟩
  · apply Nat.succ_le_succ
    rw [Value.depthFields_le_iff]
    intro f hf
    obtain ⟨x, hx, -, hv⟩ := mem_filterMap_iff.mp hf
    obtain ⟨d, -, hc⟩ := (h x hx).there _ hv
    exact hc.depth_le
  · have hcanon : canonFields (xs.filterMap fun x => (value x).map (Prod.mk (name x)))
        (xs.map fun x => (name x, shape x)) =
        xs.filterMap fun x => ((value x).map (canon (shape x))).map (Prod.mk (name x)) := by
      rw [canonFields_eq_filterMap, List.filterMap_map]
      exact List.filterMap_congr fun x hx => by rw [Function.comp_apply, lookup_filterMap hn hx]
    rw [canon, hcanon]
    refine Value.read_struct hn (fun x hx w hw => ?_) (fun x hx hw => ?_) struct
    · obtain ⟨v, hv, rfl⟩ := Option.map_eq_some_iff.mp hw
      obtain ⟨d, -, hc⟩ := (h x hx).there v hv
      exact hc.read
    · exact ((h x hx).left (Option.map_eq_none_iff.mp hw)).2
  · have hthere : ∀ b ∈ xs.map fun x => (name x, ty x, content x, back x), ∀ d, b.2.2.1 = some d →
        b.2.1.Same d b.2.2.2 := by
      exact List.forall_mem_map.mpr fun x hx d hd => (h x hx).same hd
    have hleft : ∀ b ∈ xs.map fun x => (name x, ty x, content x, back x), b.2.2.1 = none →
        b.2.2.2 = .absent := by
      exact List.forall_mem_map.mpr fun x hx hd => (h x hx).back_eq_absent hd
    simpa [Function.comp_def, List.filterMap_map] using Same.struct hthere hleft

section Carried

variable {env : Env} {t : Ty} {limit left : Nat} {s : Shape}

theorem carries_scalar {d : Datum} {v : Value} (hw : d.toValue = .ok v) (hc : s.Conforms v) (hv : v.depth = 0)
    (hr : (canon s v).read env t = .ok d) : ∃ v back, Carries env left t s d v back :=
  ⟨v, d, hw, hc, hv ▸ Nat.zero_le _, hr, .refl _ _, fun _ => rfl⟩

theorem carries_char (c : Char) : ∃ v back, Carries env left .char .str (.char c) v back := by
  refine carries_scalar rfl ⟨_, rfl⟩ rfl ?_
  change Reading.ofStr c.toString .char = _
  simp [Reading.ofStr]

theorem carries_blob {cap : Capability} {content data : Option Bytes} (ht : cap.toBlob content = .ok data)
    (ho : cap.ofBlob data = .ok content) : ∃ v back, Carries env left (.blob cap) .blob (.blob cap content) v back := by
  have hconvert : Reading.convert cap data = .ok (.blob cap content) := by
    rw [Reading.convert, ho]
    rfl
  cases data with
  | some bs =>
    refine carries_scalar ?_ (.inr ⟨some bs, rfl⟩) rfl hconvert
    rw [Datum.toValue, ht]
  | none =>
    refine carries_scalar ?_ (.inl rfl) rfl hconvert
    rw [Datum.toValue, ht]

theorem parts_carried {parts : List (Ty × Datum)} {m : Nat}
    (ih : ∀ p ∈ parts, ∀ {left : Nat} {s : Shape}, ask env limit left p.1 = .ok (some s) →
      ∃ v back, Carries env left p.1 s p.2 v back)
    (h : ∀ t ∈ parts.map (·.1), ask env limit m t = .ok (some s)) :
    ∃ both : List ((Ty × Datum) × Value × Datum), parts = both.map Prod.fst ∧
      ∀ b ∈ both, Carries env m b.1.1 s b.1.2 b.2.1 b.2.2 := by
  have hparts : ∀ p ∈ parts, ∃ q : Value × Datum, Carries env m p.1 s p.2 q.1 q.2 := by
    intro p hp
    obtain ⟨v, back, hv⟩ := ih p hp (h p.1 (List.mem_map_of_mem hp))
    exact ⟨(v, back), hv⟩
  exact exists_both hparts

theorem field_carried {content : Option Datum} {m : Nat}
    (ih : ∀ d, content = some d → ∃ v back, Carries env m t s d v back)
    (hleft : content = none → ∃ inner, t = .option inner) :
    ∃ q : Option Value × Datum, CarriesField env m t s content q.1 q.2 := by
  cases content with
  | none => exact ⟨(none, .absent), nofun, fun _ => ⟨rfl, rfl, hleft rfl⟩⟩
  | some d =>
    obtain ⟨v, back, hv⟩ := ih d rfl
    refine ⟨(some v, back), fun w hw => ?_, nofun⟩
    cases hw
    exact ⟨d, rfl, hv⟩

theorem carries_of_ask {d : Datum} (hd : t.Holds d) (h : ask env limit left t = .ok (some s)) :
    ∃ v back, Carries env left t s d v back := by
  induction hd generalizing left s with
  | bool b =>
    cases shape_of_leaf rfl h
    exact carries_scalar rfl ⟨b, rfl⟩ rfl rfl
  | int hn =>
    cases shape_of_leaf rfl h
    exact carries_scalar rfl ⟨_, rfl, hn⟩ rfl (if_pos hn)
  | char c =>
    cases shape_of_leaf rfl h
    exact carries_char c
  | string text =>
    cases shape_of_leaf rfl h
    exact carries_scalar rfl ⟨text, rfl⟩ rfl rfl
  | str text =>
    cases shape_of_leaf rfl h
    exact carries_scalar rfl ⟨text, rfl⟩ rfl rfl
  | bytes bs =>
    cases shape_of_leaf rfl h
    exact carries_scalar rfl (.inr ⟨some bs, rfl⟩) rfl rfl
  | byteBuf bs =>
    cases shape_of_leaf rfl h
    exact carries_scalar rfl (.inr ⟨some bs, rfl⟩) rfl rfl
  | blob ht ho =>
    rw [ask_leaf rfl] at h
    obtain ⟨_, -, h⟩ := Except.map_eq_ok.mp h
    cases h
    exact carries_blob ht ho
  | absent t =>
    obtain ⟨m, rfl, hc⟩ := compound_of_ask rfl h
    obtain ⟨s, rfl, -⟩ := compound_option hc
    exact ⟨_, _, Carries.absent⟩
  | present _ ih =>
    obtain ⟨m, rfl, hc⟩ := compound_of_ask rfl h
    obtain ⟨s, rfl, hs⟩ := compound_option hc
    obtain ⟨v, back, hv⟩ := ih hs
    exact ⟨_, _, hv.present⟩
  | @seq t items _ ih =>
    obtain ⟨m, rfl, hc⟩ := compound_of_ask rfl h
    obtain ⟨s, rfl, hs⟩ := compound_seq hc
    have hparts : ∀ d ∈ items, ∃ q : Value × Datum, Carries env m t s d q.1 q.2 := by
      intro d hd
      obtain ⟨v, back, hv⟩ := ih d hd hs
      exact ⟨(v, back), hv⟩
    obtain ⟨both, rfl, hboth⟩ := exists_both hparts
    exact ⟨_, _, Carries.seq hboth⟩
  | @tuple parts _ ih =>
    rcases ask_eq_ok h with hleaf | ⟨m, rfl, hc⟩
    · rcases parts with _ | ⟨p, parts⟩ <;> cases hleaf
    · obtain ⟨s, rfl, -, hs⟩ := compound_tuple hc
      obtain ⟨both, rfl, hboth⟩ := parts_carried ih hs
      rw [List.map_map, List.map_map]
      exact ⟨_, _, Carries.tuple hboth⟩
  | @tupleStruct name parts _ ih =>
    rcases ask_eq_ok h with hleaf | ⟨m, rfl, hc⟩
    · rcases parts with _ | ⟨p, parts⟩ <;> cases hleaf
    · obtain ⟨s, rfl, -, hs⟩ := compound_tupleStruct hc
      obtain ⟨both, rfl, hboth⟩ := parts_carried ih hs
      rw [List.map_map, List.map_map]
      exact ⟨_, _, Carries.tupleStruct hboth name⟩
  | @map key val pairs hn _ _ ihk ihv =>
    obtain ⟨m, rfl, hc⟩ := compound_of_ask rfl h
    obtain ⟨k, v, rfl, ho, hk, hv⟩ := compound_map hc
    have hparts : ∀ p ∈ pairs, ∃ q : (Value × Datum) × Value × Datum,
        Carries env m key k p.1 q.1.1 q.1.2 ∧ Carries env m val v p.2 q.2.1 q.2.2 := by
      intro p hp
      obtain ⟨kv, kback, hkc⟩ := ihk p hp hk
      obtain ⟨vv, vback, hvc⟩ := ihv p hp hv
      exact ⟨((kv, kback), vv, vback), hkc, hvc⟩
    obtain ⟨both, rfl, hboth⟩ := exists_both hparts
    rw [List.map_map] at hn
    exact ⟨_, Carries.map ho hn (fun b hb => (hboth b hb).1) fun b hb => (hboth b hb).2⟩
  | @struct name contents _ hleft ih =>
    obtain ⟨m, rfl, hc⟩ := compound_of_ask rfl h
    obtain ⟨known, rfl, hf⟩ := compound_struct hc
    obtain ⟨asked, rfl, rfl, hask, -, hn⟩ := fieldShapes_map_eq_ok hf
    have hparts : ∀ a ∈ asked, ∃ q : Option Value × Datum,
        CarriesField env m a.1.2.1 a.2 a.1.2.2 q.1 q.2 := fun a ha =>
      field_carried (fun d hd => ih a.1 (List.mem_map_of_mem ha) d hd (hask a ha))
        (hleft a.1 (List.mem_map_of_mem ha))
    obtain ⟨both, rfl, hboth⟩ := exists_both hparts
    rw [List.map_map] at hn
    rw [List.map_map, List.map_map, List.map_map, List.filterMap_map, List.filterMap_map]
    exact ⟨_, _, Carries.struct hn hboth name⟩
  | newtype _ ih =>
    rw [ask_newtype] at h
    obtain ⟨v, back, hv⟩ := ih h
    exact ⟨_, _, hv.newtype⟩

end Carried

namespace Carries

variable {t : Ty} {c : Config} {left : Nat} {s : Shape} {d back : Datum} {v : Value}

theorem encodeDatum_eq (h : Carries t.alone left t s d v back) (hs : s.Distinct) (hleft : left ≤ c.maxDepth) :
    encodeDatum c s d = if c.maxSize < (encoding s v).length then .error (.tooLong c.maxSize (encoding s v).length)
      else .ok (encoding s v) := by
  have henc : ShapeCodec.encode (.upTo c.maxDepth) s v = .ok (encoding s v) :=
    (encodesConforming hs _ _ _).mpr ⟨⟨h.conforms, Nat.le_trans h.depth_le hleft⟩, rfl⟩
  rw [encodeDatum, h.written, Except.ok_bind, encodeValue, henc, Except.ok_bind]

theorem decodeDatum_encoding (h : Carries t.alone left t s d v back) (hs : s.Distinct) (hleft : left ≤ c.maxDepth)
    (hf : Fits s v) (suffix : Bytes) :
    decodeDatum c s t (encoding s v ++ suffix) = .ok (back, (encoding s v).length) := by
  have hback : (canon s v).toDatum t = .ok back := h.read
  rw [decodeDatum, decodeValue_encoding hs h.conforms (Nat.le_trans h.depth_le hleft) hf, Except.ok_bind]
  exact congrArg (Except.map (·, (encoding s v).length)) hback

end Carries

namespace Ty

theorem decode_of_encode {t : Ty} {s : Shape} (hs : t.shape = .ok s) {x : Datum} (hx : t.Holds x) :
    (∃ n, 2 ^ 24 < n ∧ t.encode x = .error (.tooLong (2 ^ 24) n)) ∨
      ∃ b y, t.encode x = .ok b ∧ t.Same x y ∧ ∀ suffix, t.decode (b ++ suffix) = .ok (y, b.length) := by
  have hask := ask_of_shapeWithin hs
  have hd := distinct_of_ask hask
  have hl : s.All fun u => u.layers < 2 ^ 63 := (all_of_ask hask).imp fun u hu => by
    have : u.layers ≤ 64 := hu.2
    omega
  obtain ⟨v, y, hv⟩ := carries_of_ask hx hask
  have henc : t.encode x = encodeDatum {} s x := by rw [Ty.encode, hs, Except.ok_bind]
  have hdec (input : Bytes) : t.decode input = decodeDatum {} s t input := by rw [Ty.decode, hs, Except.ok_bind]
  rw [hv.encodeDatum_eq hd (Nat.le_refl _)] at henc
  by_cases hlen : 2 ^ 24 < (encoding s v).length
  · exact .inl ⟨_, hlen, by rw [henc, if_pos hlen]⟩
  · have hfits := fits_of_length hd hl hv.conforms (by omega)
    refine .inr ⟨encoding s v, y, by rw [henc, if_neg hlen], hv.same, fun suffix => ?_⟩
    rw [hdec, hv.decodeDatum_encoding hd (Nat.le_refl _) hfits]

theorem decode_of_encode_struct :
    let t : Ty := .struct "entry" [("id", .newtype "id" (.int .u64)), ("label", .option .string),
      ("tags", .map .string (.tuple [.char, .str])), ("mark", .blob .checked)]
    let id : Datum := .newtype (.int .greatest)
    let tags : Datum := .map [(.str "b", .seq [.char 'x', .str "y"]), (.str "a", .seq [.char 'z', .str ""])]
    let mark : Datum := .blob .checked (some [5])
    let x : Datum := .struct [("id", id), ("tags", tags), ("mark", mark)]
    let b : Bytes := [1, 43, 1, 2, 105, 100, 128, 1, 4, 116, 97, 103, 115, 1, 20, 1, 1, 97, 1, 4, 1, 1, 122, 0,
      1, 1, 98, 1, 6, 1, 1, 120, 1, 1, 121, 1, 4, 109, 97, 114, 107, 1, 2, 5, 5]
    t.encode x = .ok b ∧ ∃ y, t.Same x y ∧ ∀ suffix, t.decode (b ++ suffix) = .ok (y, b.length) := by
  intro t id tags mark x b
  let s : Shape := .record [("id", .int .u64), ("label", .optional .str), ("tags", .map .str (.seq .str)),
    ("mark", .blob)]
  have hs : t.shape = .ok s := rfl
  have hid : Holds (.newtype "id" (.int .u64)) id := .newtype (.int (by decide))
  have htag (c : Char) (s : String) : Holds (.tuple [.char, .str]) (.seq [.char c, .str s]) := by
    refine @Holds.tuple [(.char, .char c), (.str, .str s)] ?_
    rw [List.forall_mem_cons, List.forall_mem_singleton]
    exact ⟨.char c, .str s⟩
  have htags : Holds (.map .string (.tuple [.char, .str])) tags := by
    refine .map (by simp) ?_ ?_ <;> rw [List.forall_mem_cons, List.forall_mem_singleton]
    · exact ⟨.string "b", .string "a"⟩
    · exact ⟨htag _ _, htag _ _⟩
  have hmark : Holds (.blob .checked) mark := .blob rfl rfl
  have hx : t.Holds x := by
    refine @Holds.struct "entry" [("id", _, some id), ("label", _, none), ("tags", _, some tags),
      ("mark", _, some mark)] ?_ ?_
    · rw [List.forall_mem_cons, List.forall_mem_cons, List.forall_mem_cons, List.forall_mem_singleton]
      simpa using ⟨hid, htags, hmark⟩
    · simp
  have he : t.encode x = .ok b := by
    have hask := ask_of_shapeWithin hs
    obtain ⟨v, y, hv⟩ := carries_of_ask hx hask
    have hb : encoding s v = b := by
      cases hv.written
      simp [s, encoding, encodingFields, lookup_cons_eq, sortPairs, List.mergeSort, List.merge, Value.cmpKey]
      rfl
    rw [encode, hs, Except.ok_bind, hv.encodeDatum_eq (distinct_of_ask hask) (Nat.le_refl _), hb]
    rfl
  refine ⟨he, ?_⟩
  rcases decode_of_encode hs hx with ⟨n, -, h⟩ | ⟨b', y, h, hy⟩
  · cases h.symm.trans he
  · cases h.symm.trans he
    exact ⟨y, hy⟩

end Ty

end ShapeCodec
