import ShapeCodec.Proofs.RoundTrip

namespace ShapeCodec

open Wire

/-- The value encodes under the shape within a number of levels, has sizes that the wire can carry, and
no blob that is absent in the way of a composite. -/
structure WellBuilt (s : Shape) (levels : Nat) (v : Value) : Prop where
  conforms : s.Conforms v
  depth_le : v.depth ≤ levels
  fits : Fits s v
  explicit : ExplicitBlobs s v

namespace Wire

theorem length_writeCounted_le {content payload used : Bytes} (h : content.length ≤ payload.length)
    (hp : payload.length < 2 ^ 63) (hu : (writeLength (some payload.length)).length ≤ used.length) :
    (writeCounted (some content)).length ≤ (used ++ payload).length := by
  have hm := writeLength_mono h hp
  rw [writeCounted, List.length_append, List.length_append]
  omega

theorem length_writeCounted_le_add {content old payload used : Bytes}
    (h : content.length ≤ old.length + payload.length) (hp : old.length + payload.length < 2 ^ 63)
    (hu : (writeLength (some payload.length)).length ≤ used.length) :
    (writeCounted (some content)).length ≤ (writeCounted (some old)).length + (used ++ payload).length := by
  have hm := writeLength_mono h hp
  have ha := writeLength_add hp
  rw [writeCounted, writeCounted, List.length_append, List.length_append, List.length_append]
  omega

end Wire

/-- Decoding under the shape builds what it can encode again. If the destination was built so and
takes `n` bytes, the result takes no more than these and the bytes that were read. -/
def Rebuilds (s : Shape) : Prop :=
  ∀ (d : Depth) (input rest : Bytes) (dst v : Value) (n : Nat), decodeInto s d input dst = .ok rest v →
    dst = .nil ∨ (WellBuilt s d.left dst ∧ (encoding s dst).length ≤ n ∧ n + input.length < 2 ^ 63) →
    ∃ used, input = used ++ rest ∧ WellBuilt s d.left v ∧ (encoding s v).length ≤ n + used.length

theorem Rebuilds.fresh {s : Shape} (h : Rebuilds s) {d : Depth} {input rest : Bytes} {v : Value}
    (hf : Wire.fresh (decodeInto s d) input = .ok (v, rest)) :
    ∃ used, input = used ++ rest ∧ WellBuilt s d.left v ∧ (encoding s v).length ≤ used.length := by
  rw [Wire.fresh] at hf
  cases hd : decodeInto s d input .nil with
  | error e w => rw [hd] at hf; cases hf
  | ok after w =>
    rw [hd] at hf
    cases hf
    obtain ⟨used, hi, hw, hl⟩ := h d input rest .nil v 0 hd (.inl rfl)
    exact ⟨used, hi, hw, by omega⟩

theorem Rebuilds.of_replace {s : Shape} (read : Depth → Bytes → Except Error (Value × Bytes))
    (hd : ∀ d input dst, decodeInto s d input dst = replace (read d input) dst)
    (hr : ∀ d input rest v, read d input = .ok (v, rest) →
      ∃ used, input = used ++ rest ∧ WellBuilt s d.left v ∧ (encoding s v).length ≤ used.length) :
    Rebuilds s := by
  intro d input rest dst v n h _
  rw [hd] at h
  obtain ⟨used, hi, hw, hl⟩ := hr d input rest v (replace_eq_ok.mp h)
  exact ⟨used, hi, hw, by omega⟩

theorem WellBuilt.length_pos {s : Shape} {levels : Nat} {v : Value} (h : WellBuilt s levels v) :
    0 < (encoding s v).length :=
  List.length_pos_of_ne_nil (encoding_ne_nil h.conforms h.fits)

theorem wellBuilt_nil {s : Shape} (hc : s.Conforms .nil) (hf : Fits s .nil) (he : ExplicitBlobs s .nil)
    (levels : Nat) : WellBuilt s levels .nil :=
  ⟨hc, Nat.zero_le _, hf, he⟩

theorem wellBuilt_seq {elem : Shape} {levels : Nat} {items : List Value}
    (h : ∀ w ∈ items, WellBuilt elem levels w) (hl : (items.flatMap (encoding elem)).length < 2 ^ 63) :
    WellBuilt (.seq elem) (levels + 1) (.seq items) where
  conforms := .inr ⟨items, rfl, fun w hw => (h w hw).conforms⟩
  depth_le := Nat.succ_le_succ (Value.depthItems_le_iff.mpr fun w hw => (h w hw).depth_le)
  fits := ⟨hl, fun w hw => (h w hw).fits⟩
  explicit := ⟨nofun, fun w hw => (h w hw).explicit⟩

def ItemsWithin (elem : Shape) (levels n : Nat) (items : Array Value) (input : Bytes) : Prop :=
  (∀ w ∈ items.toList, WellBuilt elem levels w) ∧
    (items.toList.flatMap (encoding elem)).length + input.length ≤ n

theorem itemsWithin_step {elem : Shape} (h : Rebuilds elem) {e : Depth} {p : Payload} {i n : Nat}
    {items items' : Array Value} {input rest : Bytes} (hi : ItemsWithin elem e.left n items input)
    (hr : readItem (decodeInto elem e) p i items input = .ok (items', rest)) :
    rest.length < input.length ∧ ItemsWithin elem e.left n items' rest := by
  obtain ⟨hw, hl⟩ := hi
  obtain ⟨v, hv, rfl⟩ := readItem_eq_ok hr
  obtain ⟨used, rfl, hb, hlen⟩ := h.fresh hv
  have hpos := hb.length_pos
  rw [List.length_append] at hl ⊢
  refine ⟨by omega, ?_, ?_⟩
  · rw [Array.toList_push, List.forall_mem_append, List.forall_mem_singleton]
    exact ⟨hw, hb⟩
  · rw [Array.toList_push, List.flatMap_append, List.flatMap_singleton, List.length_append]
    omega

theorem rebuilds_seq {elem : Shape} (h : Rebuilds elem) : Rebuilds (.seq elem) := by
  apply Rebuilds.of_replace fun d input => readSeq d (decodeInto elem) input
  · exact fun d input dst => decodeInto_seq d input dst elem
  · intro d input rest v hr
    obtain ⟨⟨_ | p, after⟩, ho, hp⟩ := Except.bind_eq_ok.mp hr
    · cases hp
      obtain ⟨used, hi, hu⟩ := openPayload_eq_ok_none ho
      exact ⟨used, hi, wellBuilt_nil (s := .seq elem) (.inl rfl) ⟨trivial, trivial⟩ ⟨nofun, trivial⟩ _, hu⟩
    · obtain ⟨e, he, hf⟩ := Except.bind_eq_ok.mp hp
      obtain ⟨items, hfold, hv⟩ := Except.bind_eq_ok.mp hf
      cases hv
      obtain ⟨hp63, used, hi, -, hu⟩ := openPayload_eq_ok_some ho
      obtain ⟨-, hleft⟩ := Depth.enter_eq_ok_iff.mp he
      have hstart : ItemsWithin elem e.left p.bytes.length #[] p.bytes := ⟨nofun, by simp⟩
      obtain ⟨hw, hl⟩ := fold_invariant (fun _ _ _ _ _ => itemsWithin_step h) hstart hfold
      rw [List.length_nil, Nat.add_zero] at hl
      refine ⟨used ++ p.bytes, hi, ?_, length_writeCounted_le hl hp63 hu⟩
      rw [hleft]
      exact wellBuilt_seq hw (Nat.lt_of_le_of_lt hl hp63)

theorem length_flatMap_put_le (code : Value × Value → Bytes) (k v : Value) (pairs : List (Value × Value)) :
    ((put k v pairs).flatMap code).length ≤ (pairs.flatMap code).length + (code (k, v)).length := by
  have := length_flatMap_put code k v pairs
  omega

theorem length_flatMap_sortPairs (code : Value × Value → Bytes) (pairs : List (Value × Value)) :
    ((sortPairs pairs).flatMap code).length = (pairs.flatMap code).length :=
  ((sortPairs_perm pairs).flatMap_right code).length_eq

theorem wellBuilt_map {key val : Shape} (ho : key.isOrderable) {levels : Nat} {pairs : List (Value × Value)}
    (hn : (pairs.map (·.1)).Nodup)
    (h : ∀ p ∈ pairs, WellBuilt key levels p.1 ∧ WellBuilt val levels p.2)
    (hl : (pairs.flatMap fun p => encoding key p.1 ++ encoding val p.2).length < 2 ^ 63) :
    WellBuilt (.map key val) (levels + 1) (.map pairs) where
  conforms := ⟨ho, .inr ⟨pairs, rfl, hn, fun p hp => ⟨(h p hp).1.conforms, (h p hp).2.conforms⟩⟩⟩
  depth_le := Nat.succ_le_succ
    (Value.depthPairs_le_iff.mpr fun p hp => ⟨(h p hp).1.depth_le, (h p hp).2.depth_le⟩)
  fits := ⟨by rwa [HeaderFits, length_flatMap_sortPairs], fun p hp => ⟨(h p hp).1.fits, (h p hp).2.fits⟩⟩
  explicit := ⟨nofun, fun p hp => ⟨(h p hp).1.explicit, (h p hp).2.explicit⟩⟩

def PairsWithin (key val : Shape) (levels n : Nat) (pairs : List (Value × Value)) (input : Bytes) : Prop :=
  (pairs.map (·.1)).Nodup ∧ (∀ p ∈ pairs, WellBuilt key levels p.1 ∧ WellBuilt val levels p.2) ∧
    (pairs.flatMap fun p => encoding key p.1 ++ encoding val p.2).length + input.length ≤ n

theorem pairsWithin_step {key val : Shape} (hk : Rebuilds key) (hv : Rebuilds val) {e : Depth} {p : Payload}
    {i n : Nat} {pairs pairs' : List (Value × Value)} {input rest : Bytes}
    (hi : PairsWithin key val e.left n pairs input)
    (hr : readPairBy put (decodeInto key e) (decodeInto val e) p i pairs input = .ok (pairs', rest)) :
    rest.length < input.length ∧ PairsWithin key val e.left n pairs' rest := by
  obtain ⟨hn, hb, hl⟩ := hi
  obtain ⟨k, mid, v, hkey, hval, rfl⟩ := readPairBy_eq_ok hr
  obtain ⟨usedk, rfl, hbk, hlk⟩ := hk.fresh hkey
  obtain ⟨usedv, rfl, hbv, hlv⟩ := hv.fresh hval
  have hpos := hbk.length_pos
  have hput := length_flatMap_put_le (fun p => encoding key p.1 ++ encoding val p.2) k v pairs
  rw [List.length_append] at hput
  rw [List.length_append, List.length_append] at hl ⊢
  dsimp only at hput
  refine ⟨by omega, nodup_keys_put hn, ?_, by omega⟩
  intro q hq
  rcases mem_put hq with rfl | hq
  · exact ⟨hbk, hbv⟩
  · exact hb q hq

theorem rebuilds_map {key val : Shape} (hk : Rebuilds key) (hv : Rebuilds val) :
    Rebuilds (.map key val) := by
  apply Rebuilds.of_replace fun d input => key.checkKey >>= fun _ =>
    readPairList d (decodeInto key) (decodeInto val) input
  · exact fun d input dst => decodeInto_map d input dst key val
  · intro d input rest v hr
    obtain ⟨⟨⟩, hc, hm⟩ := Except.bind_eq_ok.mp hr
    have horder := Shape.checkKey_eq_ok_iff.mp hc
    obtain ⟨⟨_ | p, after⟩, ho, hp⟩ := Except.bind_eq_ok.mp hm
    · cases hp
      obtain ⟨used, hi, hu⟩ := openPayload_eq_ok_none ho
      exact ⟨used, hi, wellBuilt_nil (s := .map key val) ⟨horder, .inl rfl⟩ ⟨trivial, trivial⟩
        ⟨nofun, trivial⟩ _, hu⟩
    · obtain ⟨e, he, hf⟩ := Except.bind_eq_ok.mp hp
      obtain ⟨pairs, hfold, hv⟩ := Except.bind_eq_ok.mp hf
      cases hv
      obtain ⟨hp63, used, hi, -, hu⟩ := openPayload_eq_ok_some ho
      obtain ⟨-, hleft⟩ := Depth.enter_eq_ok_iff.mp he
      have hstart : PairsWithin key val e.left p.bytes.length [] p.bytes :=
        ⟨List.nodup_nil, nofun, by simp⟩
      obtain ⟨hn, hb, hl⟩ := fold_invariant (fun _ _ _ _ _ => pairsWithin_step hk hv) hstart hfold
      rw [List.length_nil, Nat.add_zero] at hl
      refine ⟨used ++ p.bytes, hi, ?_, ?_⟩
      · rw [hleft]
        exact wellBuilt_map horder hn hb (Nat.lt_of_le_of_lt hl hp63)
      · rw [← length_flatMap_sortPairs] at hl
        exact length_writeCounted_le hl hp63 hu

section Records

variable {known : List (String × Shape)} {levels : Nat}

def FieldBuilt (known : List (String × Shape)) (levels : Nat) (f : String × Value) : Prop :=
  ∃ t, known.lookup f.1 = some t ∧ WellBuilt t levels f.2

def fieldCode (known : List (String × Shape)) (f : String × Value) : Bytes :=
  writeStr f.1 ++ (known.lookup f.1).elim [] fun t => encoding t f.2

theorem length_encodingFields {fields : List (String × Value)} (hk : (known.map (·.1)).Nodup)
    (hf : (fields.map (·.1)).Nodup) (hm : ∀ f ∈ fields, f.1 ∈ known.map (·.1)) :
    (encodingFields fields known).length = (fields.flatMap (fieldCode known)).length := by
  rw [← ((mentioned_perm hk hf hm).flatMap_right (fieldCode known)).length_eq, encodingFields_eq,
    List.flatMap_map]
  congr 1
  apply List.flatMap_congr
  rintro ⟨name, t, v⟩ hmem
  rw [fieldCode, lookup_of_mem hk (mem_mentioned_iff.mp hmem).1]
  rfl

theorem FieldBuilt.mem_names {f : String × Value} (h : FieldBuilt known levels f) :
    f.1 ∈ known.map (·.1) := by
  obtain ⟨t, ht, -⟩ := h
  exact List.mem_map.mpr ⟨_, mem_of_lookup ht, rfl⟩

theorem wellBuilt_record {fields : List (String × Value)} (hn : (fields.map (·.1)).Nodup)
    (h : ∀ f ∈ fields, FieldBuilt known levels f) (hl : (encodingFields fields known).length < 2 ^ 63) :
    WellBuilt (.record known) (levels + 1) (.record fields) where
  conforms := by
    refine .inr ⟨fields, rfl, hn, fun f hf => Shape.conformsField_iff.mpr ?_⟩
    obtain ⟨t, ht, hw⟩ := h f hf
    exact ⟨t, ht, hw.conforms⟩
  depth_le := by
    apply Nat.succ_le_succ
    rw [Value.depthFields_le_iff]
    intro f hf
    obtain ⟨t, -, hw⟩ := h f hf
    exact hw.depth_le
  fits := by
    refine ⟨hl, fun f hf => Shape.everywhereField_iff.mpr fun s hs => ?_⟩
    obtain ⟨t, ht, hw⟩ := h f hf
    rw [hs] at ht
    cases ht
    exact hw.fits
  explicit := by
    refine ⟨nofun, fun f hf => Shape.everywhereField_iff.mpr fun s hs => ?_⟩
    obtain ⟨t, ht, hw⟩ := h f hf
    rw [hs] at ht
    cases ht
    exact hw.explicit

theorem fieldBuilt_of_wellBuilt {fields : List (String × Value)}
    (h : WellBuilt (.record known) (levels + 1) (.record fields)) :
    (fields.map (·.1)).Nodup ∧ ∀ f ∈ fields, FieldBuilt known levels f := by
  obtain ⟨hc, hd, hf, he⟩ := h
  obtain ⟨_, ⟨⟩, hn, hc⟩ := hc.resolve_left nofun
  refine ⟨hn, fun f hm => ?_⟩
  obtain ⟨t, ht, hct⟩ := Shape.conformsField_iff.mp (hc f hm)
  have hdf := Value.depthFields_le_iff.mp (Nat.le_of_succ_le_succ hd) f hm
  exact ⟨t, ht, hct, hdf, Shape.everywhereField_iff.mp (hf.2 f hm) t ht,
    Shape.everywhereField_iff.mp (he.2 f hm) t ht⟩

def FieldsWithin (known : List (String × Shape)) (levels n : Nat) (fields : List (String × Value))
    (input : Bytes) : Prop :=
  (fields.map (·.1)).Nodup ∧ (∀ f ∈ fields, FieldBuilt known levels f) ∧
    (fields.flatMap (fieldCode known)).length + input.length ≤ n

theorem length_fieldCode {name : String} {t : Shape} (ht : known.lookup name = some t) (w : Value) :
    (fieldCode known (name, w)).length = (writeStr name).length + (encoding t w).length := by
  rw [fieldCode, ht, List.length_append]
  rfl

theorem put_rebuilt {t : Shape} (h : Rebuilds t) {e : Depth} {name : String}
    (ht : known.lookup name = some t) {fields : List (String × Value)}
    (hb : ∀ f ∈ fields, FieldBuilt known e.left f) {input rest : Bytes} {v : Value}
    (hl : (fields.flatMap (fieldCode known)).length + input.length < 2 ^ 63)
    (hd : decodeInto t e input ((fields.lookup name).getD .nil) = .ok rest v) :
    ∃ used, input = used ++ rest ∧ WellBuilt t e.left v ∧
      ((put name v fields).flatMap (fieldCode known)).length ≤
        (fields.flatMap (fieldCode known)).length + (writeStr name).length + used.length := by
  have hput := length_flatMap_put (fieldCode known) name v fields
  rw [length_fieldCode ht] at hput
  cases hw : fields.lookup name with
  | none =>
    rw [hw, Option.getD_none] at hd
    rw [hw, Option.elim_none] at hput
    obtain ⟨used, hm, hv, hlv⟩ := h e input rest _ v 0 hd (.inl rfl)
    exact ⟨used, hm, hv, by omega⟩
  | some w =>
    -- The name comes again. Its content is decoded over the one that it holds, whose bytes are counted
    -- among those of the fields and are set free by the put.
    rw [hw, Option.getD_some] at hd
    rw [hw, Option.elim_some, length_fieldCode ht] at hput
    have hmem := mem_of_lookup hw
    obtain ⟨t', ht', hwb⟩ := hb _ hmem
    obtain rfl : t = t' := Option.some.inj (ht.symm.trans ht')
    have hle := length_le_flatMap hmem (fieldCode known)
    rw [length_fieldCode ht] at hle
    obtain ⟨used, hm, hv, hlv⟩ := h e input rest w v _ hd (.inr ⟨hwb, Nat.le_refl _, by omega⟩)
    exact ⟨used, hm, hv, by omega⟩

theorem fieldsWithin_step (h : ∀ f ∈ known, Rebuilds f.2) {e : Depth} {p : Payload} {i n : Nat}
    (hn63 : n < 2 ^ 63) {fields fields' : List (String × Value)} {input rest : Bytes}
    (hi : FieldsWithin known e.left n fields input)
    (hr : readField (decodeField known e) p i fields input = .ok (fields', rest)) :
    rest.length < input.length ∧ FieldsWithin known e.left n fields' rest := by
  obtain ⟨hn, hb, hl⟩ := hi
  obtain ⟨name, mid, update, v, hs, hu, hd, rfl⟩ := readField_eq_ok hr
  obtain ⟨-, usedn, rfl, hlen⟩ := readStr_eq_ok hs
  rw [decodeField_eq, Option.map_eq_some_iff] at hu
  obtain ⟨t, ht, rfl⟩ := hu
  have hname : 0 < (writeStr name).length := Nat.succ_pos _
  rw [List.length_append] at hl ⊢
  obtain ⟨used, rfl, hv, hlv⟩ := put_rebuilt (h _ (mem_of_lookup ht)) ht hb (by omega) hd
  rw [List.length_append] at hl ⊢
  refine ⟨by omega, nodup_keys_put hn, ?_, by omega⟩
  intro f hf
  rcases mem_put hf with rfl | hf
  · exact ⟨t, ht, hv⟩
  · exact hb f hf

theorem destination_fields {dst : Value} {n m : Nat}
    (h : dst = .nil ∨ (WellBuilt (.record known) (levels + 1) dst ∧
      (encoding (.record known) dst).length ≤ n ∧ n + m < 2 ^ 63)) :
    (dst.fields.map (·.1)).Nodup ∧ (∀ f ∈ dst.fields, FieldBuilt known levels f) ∧
      (dst.fields = [] ∨ ((writeCounted (some (encodingFields dst.fields known))).length ≤ n ∧
        n + m < 2 ^ 63)) := by
  rcases h with rfl | ⟨hw, hl, hm⟩
  · exact ⟨List.nodup_nil, nofun, .inl rfl⟩
  · rcases hw.conforms with rfl | ⟨fields, rfl, -⟩
    · exact ⟨List.nodup_nil, nofun, .inl rfl⟩
    · obtain ⟨hn, hb⟩ := fieldBuilt_of_wellBuilt hw
      exact ⟨hn, hb, .inr ⟨hl, hm⟩⟩

theorem rebuilds_record (hk : (known.map (·.1)).Nodup) (h : ∀ f ∈ known, Rebuilds f.2) :
    Rebuilds (.record known) := by
  intro d input rest dst v n hd hdst
  rw [decodeInto_record] at hd
  obtain ⟨⟨_ | p, after⟩, ho, hp⟩ := Except.bind_eq_ok.mp (replace_eq_ok.mp hd)
  · cases hp
    obtain ⟨used, hi, hu⟩ := openPayload_eq_ok_none ho
    exact ⟨used, hi, wellBuilt_nil (s := .record known) (.inl rfl) ⟨trivial, trivial⟩ ⟨nofun, trivial⟩ _,
      Nat.le_trans hu (Nat.le_add_left _ _)⟩
  · obtain ⟨e, he, hf⟩ := Except.bind_eq_ok.mp hp
    obtain ⟨fields, hfold, hv⟩ := Except.bind_eq_ok.mp hf
    cases hv
    obtain ⟨hp63, used, hi, -, hu⟩ := openPayload_eq_ok_some ho
    obtain ⟨-, hleft⟩ := Depth.enter_eq_ok_iff.mp he
    -- The fields of the destination are where decoding starts, so their bytes count with the payload.
    rw [hleft] at hdst
    obtain ⟨hdn, hdb, hold⟩ := destination_fields hdst
    have hdl := length_encodingFields hk hdn fun f hf => (hdb f hf).mem_names
    have hcount := length_le_writeCounted (encodingFields dst.fields known)
    have hil := congrArg List.length hi
    rw [List.length_append, List.length_append] at hil
    have hn63 : (dst.fields.flatMap (fieldCode known)).length + p.bytes.length < 2 ^ 63 := by
      rcases hold with hnil | ⟨hlen, hn⟩
      · rw [hnil, List.flatMap_nil, List.length_nil]
        omega
      · omega
    have hstart : FieldsWithin known e.left _ dst.fields p.bytes := ⟨hdn, hdb, Nat.le_refl _⟩
    obtain ⟨hn, hb, hl⟩ := fold_invariant (fun _ _ _ _ _ => fieldsWithin_step h hn63) hstart hfold
    have hfl := length_encodingFields hk hn fun f hf => (hb f hf).mem_names
    rw [List.length_nil, Nat.add_zero, ← hfl, ← hdl] at hl
    refine ⟨used ++ p.bytes, hi, ?_, ?_⟩
    · rw [hleft]
      exact wellBuilt_record hn hb (by omega)
    · rcases hold with hnil | ⟨hlen, -⟩
      · rw [hnil, show encodingFields [] known = [] by rw [encodingFields_eq]; simp [mentioned],
          List.length_nil, Nat.zero_add] at hl
        exact Nat.le_trans (length_writeCounted_le hl hp63 hu) (Nat.le_add_left _ _)
      · exact Nat.le_trans (length_writeCounted_le_add hl (by omega) hu) (Nat.add_le_add_right hlen _)

end Records

theorem destination_target {inner : Shape} {levels : Nat} {dst : Value} {n m : Nat}
    (h : dst = .nil ∨ (WellBuilt (.optional inner) (levels + 1) dst ∧
      (encoding (.optional inner) dst).length ≤ n ∧ n + m < 2 ^ 63)) :
    dst.target = .nil ∨ (WellBuilt inner levels dst.target ∧
      (encoding inner dst.target).length ≤ n ∧ n + m < 2 ^ 63) := by
  rcases h with rfl | ⟨hw, hl, hm⟩
  · exact .inl rfl
  · rcases hw.conforms with rfl | ⟨w, rfl, hc⟩
    · exact .inl rfl
    · exact .inr ⟨⟨hc, Nat.le_of_succ_le_succ hw.depth_le, hw.fits.2, hw.explicit.2⟩, hl, hm⟩

theorem rebuilds_optional {inner : Shape} (h : Rebuilds inner) : Rebuilds (.optional inner) := by
  intro d input rest dst v n hd hdst
  rw [decodeInto] at hd
  dsimp only at hd
  cases ha : readAbsentLayers (.optional inner) input with
  | error e => rw [ha] at hd; cases hd
  | ok r =>
    rw [ha] at hd
    cases r with
    | some after =>
      cases hd
      obtain ⟨r, hn, hk⟩ := Except.bind_eq_ok.mp ha
      rcases r with - | ⟨k, after⟩
      · cases hk
      · dsimp only at hk
        split at hk
        · next hlayers =>
          cases hk
          obtain ⟨-, hk63, used, hi, hu⟩ := readNil_eq_ok hn
          have hlayers : k = inner.layers + 1 := hlayers
          subst hlayers
          exact ⟨used, hi, wellBuilt_nil (s := .optional inner) (.inl rfl) ⟨hk63, trivial⟩
            ⟨(fun hs => by cases hs), trivial⟩ _, Nat.le_trans hu (Nat.le_add_left _ _)⟩
        · split at hk <;> cases hk
    | none =>
      dsimp only at hd
      cases he : d.enter with
      | error e => rw [he] at hd; cases hd
      | ok e =>
        rw [he] at hd
        obtain ⟨-, hleft⟩ := Depth.enter_eq_ok_iff.mp he
        obtain ⟨w, hw, rfl⟩ := throughLayer_eq_ok.mp hd
        obtain ⟨used, hi, hb, hl⟩ := h e input rest dst.target w n hw (destination_target (hleft ▸ hdst))
        refine ⟨used, hi, ?_, hl⟩
        rw [hleft]
        exact ⟨.inr ⟨w, rfl, hb.conforms⟩, Nat.succ_le_succ hb.depth_le, ⟨trivial, hb.fits⟩,
          ⟨(fun hs => by cases hs), hb.explicit⟩⟩

theorem rebuilds {s : Shape} (hs : s.Distinct) : Rebuilds s := by
  induction s with
  | bool =>
    refine Rebuilds.of_replace _ (fun d input dst => decodeInto_bool d input dst) fun d input rest v hr => ?_
    obtain ⟨⟨b, after⟩, hb, he⟩ := Except.map_eq_ok.mp hr
    cases he
    obtain ⟨used, hi, hu⟩ := readBool_eq_ok hb
    exact ⟨used, hi, ⟨⟨b, rfl⟩, Nat.zero_le _, trivial, nofun⟩, hu⟩
  | int kind =>
    refine Rebuilds.of_replace _ (fun d input dst => decodeInto_int d input dst kind)
      fun d input rest v hr => ?_
    obtain ⟨⟨bits, after⟩, hb, hn⟩ := Except.bind_eq_ok.mp hr
    obtain ⟨used, hi, hu⟩ := readInt_eq_ok hb
    dsimp only at hn
    cases hk : kind.ofBits? bits with
    | none => rw [hk] at hn; cases hn
    | some n =>
      rw [hk] at hn
      cases hn
      obtain ⟨hc, rfl⟩ := IntKind.ofBits?_eq_some_iff.mp hk
      exact ⟨used, hi, ⟨⟨n, rfl, hc⟩, Nat.zero_le _, trivial, nofun⟩, hu⟩
  | str =>
    refine Rebuilds.of_replace _ (fun d input dst => decodeInto_str d input dst) fun d input rest v hr => ?_
    obtain ⟨⟨t, after⟩, ht, he⟩ := Except.map_eq_ok.mp hr
    cases he
    obtain ⟨h63, used, hi, hu⟩ := readStr_eq_ok ht
    exact ⟨used, hi, ⟨⟨t, rfl⟩, Nat.zero_le _, h63, nofun⟩, hu⟩
  | blob =>
    refine Rebuilds.of_replace _ (fun d input dst => decodeInto_blob d input dst) fun d input rest v hr => ?_
    obtain ⟨r, ha, hb⟩ := Except.bind_eq_ok.mp hr
    cases r with
    | some after =>
      cases hb
      obtain ⟨used, hi, hu⟩ := readAbsent_eq_ok ha
      exact ⟨used, hi, ⟨.inr ⟨none, rfl⟩, Nat.zero_le _, trivial, fun _ => nofun⟩, hu⟩
    | none =>
      obtain ⟨⟨content, after⟩, hc, he⟩ := Except.map_eq_ok.mp hb
      cases he
      obtain ⟨h63, used, hi, hu⟩ := readBlob_eq_ok hc
      refine ⟨used, hi, ⟨.inr ⟨content, rfl⟩, Nat.zero_le _, ?_, fun _ => nofun⟩, hu⟩
      cases content with
      | none => trivial
      | some c => exact h63 c rfl
  | seq elem ih => exact rebuilds_seq (ih hs.elem)
  | map key val ihk ihv => exact rebuilds_map (ihk hs.key) (ihv hs.val)
  | record known ih => exact rebuilds_record hs.names fun f hf => ih f hf (hs.field hf)
  | optional inner ih => exact rebuilds_optional (ih hs.inner)

theorem wellBuilt_of_decodeValue {c : Config} {s : Shape} (hs : s.Distinct) {data : Bytes} {v : Value}
    {used : Nat} (h : decodeValue c s data = .ok (v, used)) :
    WellBuilt s c.maxDepth v ∧ (encoding s v).length ≤ used := by
  rw [decodeValue_eq] at h
  obtain ⟨⟨w, rest⟩, hf, he⟩ := Except.map_eq_ok.mp h
  cases he
  obtain ⟨taken, rfl, hw, hl⟩ := (rebuilds hs).fresh hf
  dsimp only at hl ⊢
  rw [List.length_append, Nat.add_sub_cancel]
  exact ⟨hw, hl⟩

/-- Whatever decodes has an encoding, which is no longer than what was decoded and stands for the value
with its pairs and fields in order. -/
theorem encodeValue_of_decodeValue {c c' : Config} {s : Shape} (hs : s.Distinct) {data : Bytes} {v : Value}
    {used : Nat} (h : decodeValue c s data = .ok (v, used)) (hm : c'.maxDepth = c.maxDepth)
    (hu : used ≤ c'.maxSize) :
    ∃ enc, encodeValue c' s v = .ok enc ∧ enc.length ≤ used ∧
      (∀ suffix, decodeValue c' s (enc ++ suffix) = .ok (canon s v, enc.length)) ∧
      encodeValue c' s (canon s v) = .ok enc ∧
      Value.Reordered v (canon s v) ∧ InOrder s (canon s v) := by
  obtain ⟨hw, hl⟩ := wellBuilt_of_decodeValue hs h
  have hd : v.depth ≤ c'.maxDepth := hm ▸ hw.depth_le
  have hdc := Nat.le_trans (depth_canon_le s v) hd
  have hmax := Nat.le_trans hl hu
  refine ⟨encoding s v, ?_, hl, ?_, ?_, ?_, ?_⟩
  · exact (encodeValue_eq_ok_iff hs).mpr ⟨⟨hw.conforms, hd⟩, rfl, hmax⟩
  · exact decodeValue_encoding hs hw.conforms hd hw.fits
  · exact (encodeValue_eq_ok_iff hs).mpr
      ⟨⟨conforms_canon hs hw.conforms, hdc⟩, (encoding_canon hs hw.conforms).symm, hmax⟩
  · exact reordered_canon hs hw.conforms hw.explicit
  · exact inOrder_canon hs hw.conforms

theorem encodeValue_of_decodeValue_repeated :
    let s : Shape := .record [("a", .map .bool .bool), ("b", .optional .bool)]
    let data : Bytes := [1, 20, 1, 1, 98, 96, 0, 1, 1, 97, 1, 6, 1, 0, 0, 0, 1, 1, 1, 1, 98, 1, 7]
    ∃ v enc, decodeValue {} s data = .ok (v, 22) ∧ encodeValue {} s v = .ok enc ∧ enc.length ≤ 22 := by
  intro s data
  have hs : s.Distinct := by simp [s, Shape.Distinct, Shape.All, Shape.AllFields, Shape.NamesDiffer]
  have h : decodeValue {} s data = .ok (.record [("b", .ref (.bool true)),
      ("a", .map [(.bool true, .bool true), (.bool false, .bool false)])], 22) := by rfl
  obtain ⟨enc, he, hl, -⟩ := @encodeValue_of_decodeValue {} {} _ hs _ _ _ h rfl (by decide)
  exact ⟨_, enc, h, he, hl⟩

end ShapeCodec
