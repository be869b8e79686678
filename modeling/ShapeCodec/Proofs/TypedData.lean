import ShapeCodec.Typed.Read
import ShapeCodec.Proofs.Outcome
import ShapeCodec.Proofs.Entries

namespace ShapeCodec

namespace Ty

/-- Data of the types that shapes are found for. Integers are in the range of their kind, blobs convert to
bytes and back, keys of maps differ, and a struct leaves out no fields but options. -/
inductive Holds : Ty → Datum → Prop
  | bool (b : Bool) : Holds .bool (.bool b)
  | int {kind : IntKind} {n : Integer} : kind.contains n → Holds (.int kind) (.int n)
  | char (c : Char) : Holds .char (.char c)
  | string (s : String) : Holds .string (.str s)
  | str (s : String) : Holds .str (.str s)
  | bytes (bs : Bytes) : Holds .bytes (.bytes bs)
  | byteBuf (bs : Bytes) : Holds .byteBuf (.bytes bs)
  | blob {cap : Capability} {content data : Option Bytes} : cap.toBlob content = .ok data →
      cap.ofBlob data = .ok content → Holds (.blob cap) (.blob cap content)
  | absent (t : Ty) : Holds (.option t) .absent
  | present {t : Ty} {d : Datum} : Holds t d → Holds (.option t) (.present d)
  | seq {t : Ty} {items : List Datum} : (∀ d ∈ items, Holds t d) → Holds (.seq t) (.seq items)
  | tuple {parts : List (Ty × Datum)} : (∀ p ∈ parts, Holds p.1 p.2) →
      Holds (.tuple (parts.map (·.1))) (.seq (parts.map (·.2)))
  | tupleStruct {name : String} {parts : List (Ty × Datum)} : (∀ p ∈ parts, Holds p.1 p.2) →
      Holds (.tupleStruct name (parts.map (·.1))) (.seq (parts.map (·.2)))
  | map {key val : Ty} {pairs : List (Datum × Datum)} : (pairs.map (·.1)).Nodup →
      (∀ p ∈ pairs, Holds key p.1) → (∀ p ∈ pairs, Holds val p.2) → Holds (.map key val) (.map pairs)
  | struct {name : String} {contents : List (String × Ty × Option Datum)} :
      (∀ c ∈ contents, ∀ d, c.2.2 = some d → Holds c.2.1 d) →
      (∀ c ∈ contents, c.2.2 = none → ∃ t, c.2.1 = .option t) →
      Holds (.struct name (contents.map fun c => (c.1, c.2.1)))
        (.struct (contents.filterMap fun c => c.2.2.map (Prod.mk c.1)))
  | newtype {name : String} {t : Ty} {d : Datum} : Holds t d → Holds (.newtype name t) (.newtype d)

/-- Data of a type that are the same but for the order of the pairs of maps and for fields that one of them
leaves out and the other has as absent. -/
inductive Same : Ty → Datum → Datum → Prop
  | refl (t : Ty) (d : Datum) : Same t d d
  | present {t : Ty} {d d' : Datum} : Same t d d' → Same (.option t) (.present d) (.present d')
  | seq {t : Ty} {both : List (Datum × Datum)} : (∀ b ∈ both, Same t b.1 b.2) →
      Same (.seq t) (.seq (both.map (·.1))) (.seq (both.map (·.2)))
  | tuple {both : List (Ty × Datum × Datum)} : (∀ b ∈ both, Same b.1 b.2.1 b.2.2) →
      Same (.tuple (both.map (·.1))) (.seq (both.map (·.2.1))) (.seq (both.map (·.2.2)))
  | tupleStruct {name : String} {both : List (Ty × Datum × Datum)} : (∀ b ∈ both, Same b.1 b.2.1 b.2.2) →
      Same (.tupleStruct name (both.map (·.1))) (.seq (both.map (·.2.1))) (.seq (both.map (·.2.2)))
  | map {key val : Ty} {pairs : List (Datum × Datum)} {both : List (Datum × Datum × Datum)} :
      (both.map fun b => (b.1, b.2.1)).Perm pairs → (∀ b ∈ both, Same val b.2.1 b.2.2) →
      Same (.map key val) (.map pairs) (.map (both.map fun b => (b.1, b.2.2)))
  | struct {name : String} {both : List (String × Ty × Option Datum × Datum)} :
      (∀ b ∈ both, ∀ d, b.2.2.1 = some d → Same b.2.1 d b.2.2.2) →
      (∀ b ∈ both, b.2.2.1 = none → b.2.2.2 = .absent) →
      Same (.struct name (both.map fun b => (b.1, b.2.1)))
        (.struct (both.filterMap fun b => b.2.2.1.map (Prod.mk b.1)))
        (.struct (both.map fun b => (b.1, b.2.2.2)))
  | newtype {name : String} {t : Ty} {d d' : Datum} : Same t d d' →
      Same (.newtype name t) (.newtype d) (.newtype d')

end Ty

section Lists

variable {ι : Type} {xs : List ι}

theorem exists_both {β : Type} {R : ι → β → Prop} (h : ∀ x ∈ xs, ∃ y, R x y) :
    ∃ both : List (ι × β), xs = both.map Prod.fst ∧ ∀ b ∈ both, R b.1 b.2 := by
  induction xs with
  | nil => exact ⟨[], rfl, nofun⟩
  | cons x xs ih =>
    obtain ⟨⟨y, hy⟩, hxs⟩ := List.forall_mem_cons.mp h
    obtain ⟨both, rfl, hboth⟩ := ih hxs
    exact ⟨(x, y) :: both, rfl, List.forall_mem_cons.mpr ⟨hy, hboth⟩⟩

namespace Datum

theorem toItems_map {f : ι → Datum} {g : ι → Value} (h : ∀ x ∈ xs, (f x).toValue = .ok (g x)) :
    toItems (xs.map f) = .ok (xs.map g) := by
  induction xs with
  | nil => rfl
  | cons x xs ih =>
    obtain ⟨hx, hxs⟩ := List.forall_mem_cons.mp h
    rw [List.map_cons, toItems, hx, ih hxs]
    rfl

theorem toPairs_map {f : ι → Datum × Datum} {g : ι → Value × Value}
    (hk : ∀ x ∈ xs, (f x).1.toValue = .ok (g x).1) (hv : ∀ x ∈ xs, (f x).2.toValue = .ok (g x).2) :
    toPairs (xs.map f) = .ok (xs.map g) := by
  induction xs with
  | nil => rfl
  | cons x xs ih =>
    obtain ⟨hkx, hkxs⟩ := List.forall_mem_cons.mp hk
    obtain ⟨hvx, hvxs⟩ := List.forall_mem_cons.mp hv
    rw [List.map_cons, toPairs, hkx, hvx, ih hkxs hvxs]
    rfl

theorem toFields_filterMap {name : ι → String} {content : ι → Option Datum} {value : ι → Option Value}
    (h : ∀ x ∈ xs, (content x = none ∧ value x = none) ∨
      ∃ d v, content x = some d ∧ value x = some v ∧ d.toValue = .ok v) :
    toFields (xs.filterMap fun x => (content x).map (Prod.mk (name x))) =
      .ok (xs.filterMap fun x => (value x).map (Prod.mk (name x))) := by
  induction xs with
  | nil => rfl
  | cons x xs ih =>
    obtain ⟨hx, hxs⟩ := List.forall_mem_cons.mp h
    rw [List.filterMap_cons, List.filterMap_cons]
    rcases hx with ⟨hc, hv⟩ | ⟨d, v, hc, hv, hd⟩
    · rw [hc, hv]
      exact ih hxs
    · rw [hc, hv, Option.map_some, Option.map_some]
      dsimp only
      rw [toFields, hd, ih hxs]
      rfl

end Datum

namespace Reading

theorem readEach_map {expected : String} {ty : ι → Ty} {item : ι → Reading} {back : ι → Datum}
    (h : ∀ x ∈ xs, item x (ty x) = .ok (back x)) (i : Nat) :
    readEach expected i (xs.map ty) (xs.map item) = .ok (xs.map back) := by
  induction xs generalizing i with
  | nil => rfl
  | cons x xs ih =>
    obtain ⟨hx, hxs⟩ := List.forall_mem_cons.mp h
    rw [List.map_cons, List.map_cons, readEach, hx, Except.ok_bind, ih hxs]
    rfl

theorem readPairs_map {key val : Ty} {entry : ι → Entry} {back : ι → Datum × Datum}
    (hk : ∀ x ∈ xs, (entry x).key key = .ok (back x).1) (hv : ∀ x ∈ xs, (entry x).val val = .ok (back x).2) :
    readPairs key val (xs.map entry) = .ok (.map (xs.map back)) := by
  rw [readPairs, Except.mapM_map_eq_ok fun x hx => ?_]
  · rfl
  · rw [hk x hx, hv x hx]
    rfl

theorem find?_name {fields : List (String × Ty)} (hn : (fields.map (·.1)).Nodup) {i : Nat} {name : String} {t : Ty}
    (h : fields[i]? = some (name, t)) : FieldKey.find? fields (.name name) = some (i, name, t) := by
  obtain ⟨hlt, hget⟩ := List.getElem?_eq_some_iff.mp h
  have hi : fields.findIdx? (·.1 == name) = some i := by
    refine List.findIdx?_eq_some_iff_getElem.mpr ⟨hlt, by simp [hget], fun j hj hname => ?_⟩
    have hnames : (fields.map (·.1))[i]? = (fields.map (·.1))[j]? := by
      rw [List.getElem?_map, List.getElem?_map, h, List.getElem?_eq_getElem (Nat.lt_trans hj hlt)]
      simpa using (beq_iff_eq.mp hname).symm
    have hij := (List.getElem?_inj (by simpa using hlt) hn).mp hnames
    omega
  simp [FieldKey.find?, hi, h]

theorem readFields_map {fields : List (String × Ty)} {entry : ι → Entry} {idx : ι → Nat} {name : ι → String}
    {ty : ι → Ty} {back : ι → Datum} (hname : ∀ x ∈ xs, (entry x).field = .ok (.name (name x)))
    (hfind : ∀ x ∈ xs, FieldKey.find? fields (.name (name x)) = some (idx x, name x, ty x))
    (hval : ∀ x ∈ xs, (entry x).val (ty x) = .ok (back x)) (hn : (xs.map idx).Nodup) {got : List (Nat × Datum)}
    (hgot : ∀ x ∈ xs, idx x ∉ got.map (·.1)) :
    readFields fields got (xs.map entry) = .ok ((xs.map fun x => (idx x, back x)).reverse ++ got) := by
  induction xs generalizing got with
  | nil => rfl
  | cons x xs ih =>
    rw [List.forall_mem_cons] at hname hfind hval hgot
    rw [List.map_cons, List.nodup_cons] at hn
    have hlookup : got.lookup (idx x) = none := lookup_eq_none_iff_not_mem.mpr hgot.1
    rw [List.map_cons, readFields, hname.1, Except.ok_bind, hfind.1]
    dsimp only
    rw [hlookup, if_neg (by simp), hval.1, Except.ok_bind, ih hname.2 hfind.2 hval.2 hn.2]
    · simp
    · intro y hy
      rw [List.map_cons, List.mem_cons, not_or]
      refine ⟨fun he => hn.1 ?_, hgot.2 y hy⟩
      exact List.mem_map.mpr ⟨y, hy, he⟩

end Reading

namespace Value

open Reading

variable (env : Env)

theorem itemReadings_eq (items : List Value) : itemReadings env items = items.map (read env) := by
  induction items with
  | nil => rfl
  | cons v items ih => rw [itemReadings, ih, List.map_cons]

theorem pairEntries_eq (pairs : List (Value × Value)) :
    pairEntries env pairs = pairs.map fun p => ⟨fieldKey p.1, read env p.1, read env p.2⟩ := by
  induction pairs with
  | nil => rfl
  | cons p pairs ih => rw [pairEntries, ih, List.map_cons]

theorem fieldEntries_eq (fields : List (String × Value)) :
    fieldEntries env fields = fields.map fun f => ⟨.ok (.name f.1), ofName env f.1, read env f.2⟩ := by
  induction fields with
  | nil => rfl
  | cons f fields ih => rw [fieldEntries, ih, List.map_cons]

theorem read_newtype (v : Value) (name : String) (t : Ty) :
    v.read env (.newtype name t) = (v.read env t).map .newtype := by
  cases v with
  | blob content =>
    cases content <;>
      · simp only [read]
        rfl
  | _ =>
    simp only [read]
    rfl

section Items

variable {env} {v : ι → Value} {ty : ι → Ty} {back : ι → Datum}

theorem read_seq {t : Ty} (h : ∀ x ∈ xs, (v x).read env t = .ok (back x)) :
    (Value.seq (xs.map v)).read env (.seq t) = .ok (.seq (xs.map back)) := by
  have hitems : (itemReadings env (xs.map v)).mapM (fun (item : Reading) => item t) = .ok (xs.map back) := by
    rw [itemReadings_eq, List.map_map]
    exact Except.mapM_map_eq_ok h
  exact congrArg (Except.map Datum.seq) hitems

theorem readEach_items (h : ∀ x ∈ xs, (v x).read env (ty x) = .ok (back x)) (expected : String) :
    (readEach expected 0 (xs.map ty) (itemReadings env (xs.map v))).map Datum.seq = .ok (.seq (xs.map back)) := by
  rw [itemReadings_eq, List.map_map]
  exact congrArg (Except.map Datum.seq) (readEach_map h 0)

theorem read_tuple (h : ∀ x ∈ xs, (v x).read env (ty x) = .ok (back x)) :
    (Value.seq (xs.map v)).read env (.tuple (xs.map ty)) = .ok (.seq (xs.map back)) :=
  readEach_items h _

theorem read_tupleStruct (h : ∀ x ∈ xs, (v x).read env (ty x) = .ok (back x)) (name : String) :
    (Value.seq (xs.map v)).read env (.tupleStruct name (xs.map ty)) = .ok (.seq (xs.map back)) :=
  readEach_items h _

theorem read_map {key val : Ty} {pair : ι → Value × Value} {back : ι → Datum × Datum}
    (hk : ∀ x ∈ xs, (pair x).1.read env key = .ok (back x).1)
    (hv : ∀ x ∈ xs, (pair x).2.read env val = .ok (back x).2) :
    (Value.map (xs.map pair)).read env (.map key val) = .ok (.map (xs.map back)) := by
  change readPairs key val (pairEntries env (xs.map pair)) = _
  rw [pairEntries_eq, List.map_map]
  exact readPairs_map hk hv

theorem nodup_of_read {t : Ty} (hn : (xs.map back).Nodup) (h : ∀ x ∈ xs, (v x).read env t = .ok (back x)) :
    (xs.map v).Nodup := by
  refine (hn.of_map _).map_on fun x hx y hy he => List.inj_on_of_nodup_map hn hx hy ?_
  have hx' := h x hx
  rw [he, h y hy] at hx'
  exact (Except.ok.inj hx').symm

end Items

section Struct

variable {name : ι → String} {ty : ι → Ty} {back : ι → Datum}

theorem nodup_indices (xs : List ι) : (xs.zipIdx.map Prod.snd).Nodup := by
  rw [List.zipIdx_map_snd]
  exact List.nodup_range' 1

theorem nodup_indexed_names (hn : (xs.map name).Nodup) : (xs.zipIdx.map fun p => name p.1).Nodup := by
  rwa [← List.zipIdx_map_fst 0 xs, List.map_map] at hn

theorem exists_indexed {fields : List (String × Value)} (hk : ∀ f ∈ fields, f.1 ∈ xs.map name) :
    ∃ both : List ((String × Value) × ι × Nat), fields = both.map Prod.fst ∧
      ∀ b ∈ both, b.2 ∈ xs.zipIdx ∧ name b.2.1 = b.1.1 := by
  have hindex : ∀ f ∈ fields, ∃ p : ι × Nat, p ∈ xs.zipIdx ∧ name p.1 = f.1 := by
    intro f hf
    obtain ⟨x, hx, hname⟩ := List.mem_map.mp (hk f hf)
    obtain ⟨i, hi⟩ := List.mem_iff_getElem?.mp hx
    exact ⟨(x, i), List.mem_zipIdx_iff_getElem?.mpr hi, hname⟩
  exact exists_both hindex

section Indexed

variable {both : List ((String × Value) × ι × Nat)} (hn : (xs.map name).Nodup)
  (hf : ((both.map Prod.fst).map (·.1)).Nodup) (hboth : ∀ b ∈ both, b.2 ∈ xs.zipIdx ∧ name b.2.1 = b.1.1)

include hf hboth

theorem nodup_indexed (back : ι → Datum) : ((both.map fun b => (b.2.2, back b.2.1)).map (·.1)).Nodup := by
  rw [List.map_map] at hf ⊢
  refine (hf.of_map _).map_on fun b hb c hc he => List.inj_on_of_nodup_map hf hb hc ?_
  have heq := List.inj_on_of_nodup_map (nodup_indices xs) (hboth b hb).1 (hboth c hc).1 he
  rw [Function.comp_apply, Function.comp_apply, ← (hboth b hb).2, ← (hboth c hc).2, heq]

include hn

theorem lookup_indexed (back : ι → Datum) {p : ι × Nat} (hp : p ∈ xs.zipIdx) :
    (both.map fun b => (b.2.2, back b.2.1)).reverse.lookup p.2 =
      ((both.map Prod.fst).lookup (name p.1)).map fun _ => back p.1 := by
  have hidx := nodup_indexed hf hboth back
  rw [← lookup_perm (List.reverse_perm _).symm hidx]
  cases hl : (both.map Prod.fst).lookup (name p.1) with
  | some v =>
    obtain ⟨b, hb, hbv⟩ := List.mem_map.mp (mem_of_lookup hl)
    have hname : name b.2.1 = name p.1 := (hboth b hb).2.trans (congrArg Prod.fst hbv)
    have heq : b.2 = p := List.inj_on_of_nodup_map (nodup_indexed_names hn) (hboth b hb).1 hp hname
    exact lookup_of_mem hidx (List.mem_map.mpr ⟨b, hb, by rw [heq]⟩)
  | none =>
    rw [Option.map_none, lookup_eq_none_iff_not_mem]
    rw [lookup_eq_none_iff_not_mem] at hl
    intro hin
    rw [List.map_map] at hin
    obtain ⟨b, hb, hi⟩ := List.mem_map.mp hin
    have heq := List.inj_on_of_nodup_map (nodup_indices xs) (hboth b hb).1 hp hi
    refine hl (List.mem_map.mpr ⟨b.1, List.mem_map_of_mem hb, ?_⟩)
    rw [← (hboth b hb).2, heq]

end Indexed

theorem read_record {env : Env} {fields : List (String × Value)} (hn : (xs.map name).Nodup)
    (hf : (fields.map (·.1)).Nodup) (hk : ∀ f ∈ fields, f.1 ∈ xs.map name)
    (hread : ∀ x ∈ xs, ∀ v, fields.lookup (name x) = some v → v.read env (ty x) = .ok (back x))
    (hleft : ∀ x ∈ xs, fields.lookup (name x) = none → back x = .absent ∧ ∃ t, ty x = .option t)
    (struct : String) :
    (Value.record fields).read env (.struct struct (xs.map fun x => (name x, ty x))) =
      .ok (.struct (xs.map fun x => (name x, back x))) := by
  obtain ⟨both, rfl, hboth⟩ := exists_indexed hk
  have hfind : ∀ b ∈ both, FieldKey.find? (xs.map fun x => (name x, ty x)) (.name b.1.1) =
      some (b.2.2, b.1.1, ty b.2.1) := by
    intro b hb
    have hget := List.mem_zipIdx_iff_getElem?.mp (hboth b hb).1
    refine find?_name (by simpa [Function.comp_def] using hn) ?_
    rw [List.getElem?_map, hget, Option.map_some, (hboth b hb).2]
  have hval : ∀ b ∈ both, b.1.2.read env (ty b.2.1) = .ok (back b.2.1) := by
    intro b hb
    refine hread b.2.1 (List.fst_mem_of_mem_zipIdx (hboth b hb).1) b.1.2 ?_
    rw [(hboth b hb).2]
    exact lookup_of_mem hf (List.mem_map_of_mem hb)
  have hgot : readFields (xs.map fun x => (name x, ty x)) [] (fieldEntries env (both.map Prod.fst)) =
      .ok (both.map fun b => (b.2.2, back b.2.1)).reverse := by
    rw [fieldEntries_eq, List.map_map, ← List.append_nil (List.reverse _)]
    have hidx := nodup_indexed hf hboth back
    rw [List.map_map] at hidx
    exact readFields_map (fun b _ => rfl) hfind hval hidx fun b _ => List.not_mem_nil
  change ofEntries env (fieldEntries env _) (.struct struct _) = _
  rw [ofEntries, hgot, Except.ok_bind, List.zipIdx_map,
    @Except.mapM_map_eq_ok _ _ _ _ _ _ (fun p : ι × Nat => (name p.1, back p.1)) _ fun p hp => ?_, Except.ok_bind]
  · conv_rhs => rw [← List.zipIdx_map_fst 0 xs, List.map_map]
    rfl
  · dsimp only [Prod.map, id]
    rw [lookup_indexed hn hf hboth back hp]
    -- A field that no entry names has no content, and is missing as an option may be.
    cases hl : (both.map Prod.fst).lookup (name p.1) with
    | some v => rfl
    | none =>
      obtain ⟨hb, t, ht⟩ := hleft p.1 (List.fst_mem_of_mem_zipIdx hp) hl
      rw [ht, hb]
      rfl

theorem read_struct {env : Env} {content : ι → Option Value} (hn : (xs.map name).Nodup)
    (hread : ∀ x ∈ xs, ∀ v, content x = some v → v.read env (ty x) = .ok (back x))
    (hleft : ∀ x ∈ xs, content x = none → back x = .absent ∧ ∃ t, ty x = .option t) (struct : String) :
    (Value.record (xs.filterMap fun x => (content x).map (Prod.mk (name x)))).read env
        (.struct struct (xs.map fun x => (name x, ty x))) =
      .ok (.struct (xs.map fun x => (name x, back x))) := by
  refine read_record hn (nodup_keys_filterMap hn) (fun f hf => ?_) (fun x hx v hv => ?_) (fun x hx hv => ?_) struct
  · obtain ⟨x, hx, hname, -⟩ := mem_filterMap_iff.mp hf
    exact List.mem_map.mpr ⟨x, hx, hname⟩
  · rw [lookup_filterMap hn hx] at hv
    exact hread x hx v hv
  · rw [lookup_filterMap hn hx] at hv
    exact hleft x hx hv

end Struct

end Value

end Lists

end ShapeCodec
