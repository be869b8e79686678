import ShapeCodec.Proofs.Reading
import ShapeCodec.Proofs.Sizes
import ShapeCodec.Proofs.UnitCoding

namespace ShapeCodec

open Wire

namespace Wire

theorem eachUnit_flatMap_append {σ α : Type} {read : Nat → σ → Bytes → Except Error (σ × Bytes)}
    {code : α → Bytes} {step : σ → α → σ} {xs : List α} (hne : ∀ x ∈ xs, code x ≠ [])
    (hread : ∀ x ∈ xs, ∀ i s rest, read i s (code x ++ rest) = .ok (step s x, rest)) {fuel : Nat}
    (i : Nat) (s : σ) {more : Bytes} (hf : (xs.flatMap code ++ more).length ≤ fuel) :
    ∃ left, more.length ≤ left ∧ eachUnit read fuel i s (xs.flatMap code ++ more) =
      eachUnit read left (i + xs.length) (xs.foldl step s) more := by
  induction xs generalizing fuel i s with
  | nil => exact ⟨fuel, hf, rfl⟩
  | cons x xs ih =>
    obtain ⟨b, bs, hb⟩ := List.exists_cons_of_ne_nil (hne x List.mem_cons_self)
    have hx := hread x List.mem_cons_self i s (xs.flatMap code ++ more)
    rw [List.flatMap_cons, List.append_assoc] at hf ⊢
    rw [hb, List.cons_append] at hf hx ⊢
    rw [List.length_cons, List.length_append] at hf
    cases fuel with
    | zero => omega
    | succ fuel =>
      have hf' : (xs.flatMap code ++ more).length < fuel + 1 := by omega
      obtain ⟨left, hl, he⟩ := ih (fun y hy => hne y (List.mem_cons_of_mem _ hy))
        (fun y hy => hread y (List.mem_cons_of_mem _ hy)) (i + 1) (step s x) (Nat.le_of_lt_succ hf')
      refine ⟨left, hl, ?_⟩
      rw [eachUnit, hx, Except.ok_bind, List.length_cons, Nat.add_comm xs.length, ← Nat.add_assoc]
      exact he

theorem eachUnit_eq_error {σ : Type} {read : Nat → σ → Bytes → Except Error (σ × Bytes)} {fuel i : Nat}
    {s : σ} {input : Bytes} {e : Error} (hne : input ≠ []) (hf : input.length ≤ fuel)
    (h : read i s input = .error e) : eachUnit read fuel i s input = .error e := by
  obtain ⟨b, bs, rfl⟩ := List.exists_cons_of_ne_nil hne
  cases fuel with
  | zero => cases hf
  | succ fuel => rw [eachUnit, h, Except.error_bind]

theorem fold_flatMap {σ α : Type} {p : Payload} {read : Nat → σ → Bytes → Except Error (σ × Bytes)}
    {code : α → Bytes} {step : σ → α → σ} {xs : List α} (hp : p.bytes = xs.flatMap code)
    (hne : ∀ x ∈ xs, code x ≠ [])
    (hread : ∀ x ∈ xs, ∀ i s rest, read i s (code x ++ rest) = .ok (step s x, rest)) (s : σ) :
    p.fold read s = .ok (xs.foldl step s) := by
  have hlen : (xs.flatMap code ++ []).length ≤ p.bytes.length := by rw [hp, List.append_nil]
  obtain ⟨left, -, he⟩ := eachUnit_flatMap_append hne hread 0 s hlen
  rw [List.append_nil, ← hp] at he
  rw [Payload.fold, he]
  cases left <;> rfl

end Wire

theorem writeCounted_eq (content : Option Bytes) :
    ∃ bits more, writeCounted content = writeInt bits ++ more := by
  cases content with
  | none => exact ⟨_, [], (List.append_nil _).symm⟩
  | some content => exact ⟨_, content, rfl⟩

theorem encoding_cases {s : Shape} {v : Value} (hc : s.Conforms v) (hf : Fits s v) :
    (∃ b, encoding s v = writeBool b) ∨ (∃ bits more, encoding s v = writeInt bits ++ more) ∨
      ∃ k, encoding s v = writeNil k ∧ 1 ≤ k ∧ k ≤ s.layers ∧ k < 2 ^ 63 := by
  induction s generalizing v with
  | bool => obtain ⟨b, rfl⟩ := hc; exact .inl ⟨b, rfl⟩
  | int kind => obtain ⟨n, rfl, -⟩ := hc; exact .inr (.inl ⟨n.bits, [], (List.append_nil _).symm⟩)
  | str =>
    obtain ⟨s, rfl⟩ := hc
    exact .inr (.inl (writeCounted_eq (some (Text.utf8 s))))
  | blob =>
    rcases hc with rfl | ⟨content, rfl⟩ <;> simp only [encoding] <;> exact .inr (.inl (writeCounted_eq _))
  | seq elem =>
    rcases hc with rfl | ⟨items, rfl, -⟩ <;> simp only [encoding] <;> exact .inr (.inl (writeCounted_eq _))
  | map key val =>
    obtain ⟨-, rfl | ⟨pairs, rfl, -⟩⟩ := hc <;> simp only [encoding] <;> exact .inr (.inl (writeCounted_eq _))
  | record known =>
    rcases hc with rfl | ⟨fs, rfl, -⟩ <;> simp only [encoding] <;> exact .inr (.inl (writeCounted_eq _))
  | optional inner ih =>
    rcases hc with rfl | ⟨w, rfl, hw⟩
    · exact .inr (.inr ⟨_, rfl, Nat.succ_pos _, Nat.le_refl _, hf.1⟩)
    · rcases ih hw hf.2 with h | h | ⟨k, h, h1, hk, hl⟩
      · exact .inl h
      · exact .inr (.inl h)
      · exact .inr (.inr ⟨k, h, h1, Nat.le_succ_of_le hk, hl⟩)

theorem encoding_ne_nil {s : Shape} {v : Value} (hc : s.Conforms v) (hf : Fits s v) :
    encoding s v ≠ [] := by
  rcases encoding_cases hc hf with ⟨b, h⟩ | ⟨bits, more, h⟩ | ⟨k, h, -⟩
  · rw [h, writeBool]
    exact List.cons_ne_nil _ _
  · rw [h, writeInt_eq]
    exact List.cons_ne_nil _ _
  · rw [h, writeNil]
    split <;> exact List.cons_ne_nil _ _

theorem readAbsentLayers_encoding {s t : Shape} (ht : s.layers = t.layers) {v : Value} (hc : s.Conforms v)
    (hf : Fits s v) (rest : Bytes) : readAbsentLayers (.optional t) (encoding s v ++ rest) = .ok none := by
  rw [readAbsentLayers]
  rcases encoding_cases hc hf with ⟨b, h⟩ | ⟨bits, more, h⟩ | ⟨k, h, h1, hk, hl⟩
  · rw [h]
    cases b <;> rfl
  · rw [h, List.append_assoc, readNil_writeInt]
    rfl
  · have hs : (Shape.optional t).layers = s.layers + 1 := congrArg (· + 1) ht.symm
    rw [h, readNil_writeNil h1 hl, Except.ok_bind]
    dsimp only
    rw [if_neg (by omega), if_neg (by omega)]

/-- The encodings of one shape decode by the other within every limit that the values keep. -/
def Decodes (s t : Shape) : Prop :=
  ∀ (d : Depth) (v : Value) (rest : Bytes) (dst : Value), s.Conforms v → v.depth ≤ d.left → Fits s v →
    decodeInto t d (encoding s v ++ rest) dst = .ok rest (Value.overlay dst (canon s v))

theorem Decodes.fresh {s t : Shape} (h : Decodes s t) (hs : s.Distinct) {d : Depth} {v : Value}
    (hc : s.Conforms v) (hd : v.depth ≤ d.left) (hf : Fits s v) (rest : Bytes) :
    Wire.fresh (decodeInto t d) (encoding s v ++ rest) = .ok (canon s v, rest) := by
  rw [Wire.fresh, h d v rest .nil hc hd hf, Value.overlay_nil_of_conforms (conforms_canon hs hc)]

theorem decodes_bool : Decodes .bool .bool := by
  intro d v rest dst hc hd hf
  obtain ⟨b, rfl⟩ := hc
  cases b <;> rfl

theorem decodes_int (kind : IntKind) : Decodes (.int kind) (.int kind) := by
  intro d v rest dst hc hd hf
  obtain ⟨n, rfl, hn⟩ := hc
  rw [encoding, decodeInto, readInt_writeInt, Except.ok_bind]
  dsimp only
  rw [IntKind.ofBits?_eq_some_iff.mpr ⟨hn, rfl⟩]
  rfl

theorem decodes_str : Decodes .str .str := by
  intro d v rest dst hc hd hf
  obtain ⟨t, rfl⟩ := hc
  rw [encoding, decodeInto, readStr_writeStr hf]
  rfl

theorem decodes_orderable {key : Shape} (ho : key.isOrderable) : Decodes key key := by
  cases key with
  | bool => exact decodes_bool
  | int kind => exact decodes_int kind
  | str => exact decodes_str
  | _ => cases ho

theorem decodes_blob : Decodes .blob .blob := by
  intro d v rest dst hc hd hf
  have hread (content : Option Bytes) (h : ∀ c, content = some c → c.length < 2 ^ 63) :
      decodeInto .blob d (writeCounted content ++ rest) dst = .ok rest (.blob content) := by
    rw [decodeInto, readAbsent_writeCounted, Except.ok_bind]
    dsimp only
    rw [readBlob_writeCounted h]
    rfl
  rcases hc with rfl | ⟨content, rfl⟩
  · simp only [encoding]
    rw [hread none fun c hc => by cases hc]
    rfl
  · rw [encoding, hread content fun c hc => by subst hc; exact hf]
    rfl

theorem toList_foldl_push {α : Type} (f : α → Value) (xs : List α) (vs : Array Value) :
    (xs.foldl (fun vs x => vs.push (f x)) vs).toList = vs.toList ++ xs.map f := by
  induction xs generalizing vs with
  | nil => simp
  | cons x xs ih => rw [List.foldl_cons, ih]; simp

theorem decodes_seq {elem elem' : Shape} (hs : elem.Distinct) (h : Decodes elem elem') :
    Decodes (.seq elem) (.seq elem') := by
  intro d v rest dst hc hd hf
  rcases hc with rfl | ⟨items, rfl, hi⟩
  · simp only [encoding, decodeInto, readSeq, openPayload_writeCounted_none]
    rfl
  · rw [Value.depth] at hd
    have hdi := Value.depthItems_le_iff.mp (Nat.le_sub_one_of_lt hd)
    have hread (p : Payload) : ∀ w ∈ items, ∀ i vs after,
        readItem (decodeInto elem' ⟨d.limit, d.left - 1⟩) p i vs (encoding elem w ++ after) =
          .ok (vs.push (canon elem w), after) := by
      intro w hw i vs after
      rw [readItem, h.fresh hs (hi w hw) (hdi w hw) (hf.2 w hw)]
      rfl
    rw [encoding, decodeInto, readSeq, openPayload_writeCounted_some hf.1, Except.ok_bind]
    dsimp only
    rw [Depth.enter_of_pos (Nat.zero_lt_of_lt hd), Except.ok_bind,
      fold_flatMap rfl (fun w hw => encoding_ne_nil (hi w hw) (hf.2 w hw)) (hread _), Except.ok_bind,
      toList_foldl_push]
    rfl

theorem foldl_put (f : Value → Value) {pairs before : List (Value × Value)}
    (hn : ((before ++ pairs).map (·.1)).Nodup) :
    pairs.foldl (fun ps p => put p.1 (f p.2) ps) before = before ++ pairs.map fun p => (p.1, f p.2) := by
  induction pairs generalizing before with
  | nil => simp
  | cons p pairs ih =>
    have hp : p.1 ∉ before.map (·.1) := by
      rw [List.map_append, List.nodup_append] at hn
      exact fun h => hn.2.2 _ h _ (List.mem_map_of_mem List.mem_cons_self) rfl
    rw [List.foldl_cons, put_of_not_mem hp, ih (by simpa using hn), List.append_assoc]
    rfl

theorem readPairBy_encoding {key val : Update} {k v : Value} {kb vb : Bytes}
    (hk : ∀ after, fresh key (kb ++ after) = .ok (k, after))
    (hv : ∀ after, fresh val (vb ++ after) = .ok (v, after)) (p : Payload) (i : Nat)
    (ps : List (Value × Value)) (after : Bytes) :
    readPairBy put key val p i ps (kb ++ vb ++ after) = .ok (put k v ps, after) := by
  rw [readPairBy, List.append_assoc, hk, Except.ok_mapError, Except.ok_bind]
  dsimp only
  rw [hv, Except.ok_mapError, Except.ok_bind]

theorem decodes_map {key val val' : Shape} (hks : key.Distinct) (hvs : val.Distinct)
    (hv : Decodes val val') : Decodes (.map key val) (.map key val') := by
  intro d v rest dst hc hd hf
  obtain ⟨ho, rfl | ⟨pairs, rfl, hn, hp⟩⟩ := hc
  · simp only [encoding, decodeInto_map, Shape.checkKey_eq_ok_iff.mpr ho, Except.ok_bind, readPairList,
      openPayload_writeCounted_none]
    rfl
  · rw [Value.depth] at hd
    have hdp := Value.depthPairs_le_iff.mp (Nat.le_sub_one_of_lt hd)
    have hne : ∀ p ∈ sortPairs pairs, encoding key p.1 ++ encoding val p.2 ≠ [] := by
      intro p hm
      have hm := mem_sortPairs.mp hm
      exact List.append_ne_nil_of_left_ne_nil (encoding_ne_nil (hp p hm).1 (hf.2 p hm).1) _
    have hread (q : Payload) : ∀ p ∈ sortPairs pairs, ∀ i ps after,
        readPairBy put (decodeInto key ⟨d.limit, d.left - 1⟩) (decodeInto val' ⟨d.limit, d.left - 1⟩) q i ps
          (encoding key p.1 ++ encoding val p.2 ++ after) = .ok (put p.1 (canon val p.2) ps, after) := by
      intro p hm i ps after
      have hm := mem_sortPairs.mp hm
      have hk := (decodes_orderable ho).fresh (d := ⟨d.limit, d.left - 1⟩) hks (hp p hm).1 (hdp p hm).1 (hf.2 p hm).1
      have hv := hv.fresh (d := ⟨d.limit, d.left - 1⟩) hvs (hp p hm).2 (hdp p hm).2 (hf.2 p hm).2
      rw [canon_of_orderable ho] at hk
      exact readPairBy_encoding hk hv q i ps after
    have hnodup : ((sortPairs pairs).map (·.1)).Nodup :=
      ((sortPairs_perm pairs).map (·.1)).nodup_iff.mpr hn
    rw [encoding, decodeInto_map, Shape.checkKey_eq_ok_iff.mpr ho, Except.ok_bind, readPairList,
      openPayload_writeCounted_some hf.1, Except.ok_bind]
    dsimp only
    rw [Depth.enter_of_pos (Nat.zero_lt_of_lt hd), Except.ok_bind, fold_flatMap rfl hne (hread _),
      Except.ok_bind, foldl_put (canon val) (by simpa using hnodup)]
    rfl

theorem readField_encoding {known : List (String × Shape)} {name : String} {s t : Shape} {d : Depth}
    {v : Value} (hn : (Text.utf8 name).length < 2 ^ 63) (hl : known.lookup name = some t)
    (h : Decodes s t) (hc : s.Conforms v) (hd : v.depth ≤ d.left) (hf : Fits s v) (p : Payload) (i : Nat)
    (us : List (String × Value)) (after : Bytes) :
    readField (decodeField known d) p i us (writeStr name ++ encoding s v ++ after) =
      .ok (Value.putField name (Value.overlay ((us.lookup name).getD .nil) (canon s v)) us, after) := by
  rw [readField, List.append_assoc]
  dsimp only
  rw [readStr_writeStr hn, Except.ok_mapError, Except.ok_bind]
  dsimp only
  rw [decodeField_eq, hl, Option.map_some]
  dsimp only
  rw [h d v after _ hc hd hf]

theorem length_name_lt {fields : List (String × Value)} {known : List (String × Shape)} {name : String}
    {s : Shape} {v : Value} (hm : (name, s, v) ∈ mentioned fields known)
    (h : (encodingFields fields known).length < 2 ^ 63) : (Text.utf8 name).length < 2 ^ 63 := by
  rw [encodingFields_eq] at h
  have hq := Nat.lt_of_le_of_lt (length_le_flatMap hm
    fun m : String × Shape × Value => writeStr m.1 ++ encoding m.2.1 m.2.2) h
  have hw := length_le_writeCounted (Text.utf8 name)
  rw [List.length_append] at hq
  dsimp only [writeStr] at hq
  omega

theorem decodes_record {known known' : List (String × Shape)} (hs : (Shape.record known).Distinct)
    (hn : ∀ f ∈ known, f.1 ∈ known'.map (·.1))
    (h : ∀ f ∈ known, ∀ t, known'.lookup f.1 = some t → Decodes f.2 t) :
    Decodes (.record known) (.record known') := by
  intro d v rest dst hc hd hf
  rcases hc with rfl | ⟨fs, rfl, -, hc⟩
  · simp only [encoding, decodeInto, readRecord, openPayload_writeCounted_none]
    rfl
  · rw [Value.depth] at hd
    have hdf := Value.depthFields_le_iff.mp (Nat.le_sub_one_of_lt hd)
    have hne : ∀ m ∈ mentioned fs known, writeStr m.1 ++ encoding m.2.1 m.2.2 ≠ [] :=
      fun m _ => writeStr_append_ne_nil m.1 _
    have hread (p : Payload) : ∀ m ∈ mentioned fs known, ∀ i us after,
        readField (decodeField known' ⟨d.limit, d.left - 1⟩) p i us
          (writeStr m.1 ++ encoding m.2.1 m.2.2 ++ after) =
        .ok (Value.putField m.1 (Value.overlay ((us.lookup m.1).getD .nil) (canon m.2.1 m.2.2)) us, after) := by
      rintro ⟨name, s, v⟩ hm i us after
      obtain ⟨hk, hl⟩ := mem_mentioned_iff.mp hm
      have hls := lookup_of_mem hs.names hk
      have hmv := mem_of_lookup hl
      obtain ⟨_, hu, hcs⟩ := Shape.conformsField_iff.mp (hc _ hmv)
      obtain rfl := Option.some.inj (hls.symm.trans hu)
      obtain ⟨t, ht⟩ := exists_lookup_of_mem (hn _ hk)
      exact readField_encoding (length_name_lt hm hf.1) ht (h _ hk t ht) hcs (hdf _ hmv)
        (Shape.everywhereField_iff.mp (hf.2 _ hmv) s hls) p i us after
    rw [encoding, decodeInto]
    dsimp only
    rw [readRecord, openPayload_writeCounted_some hf.1, Except.ok_bind]
    dsimp only
    rw [Depth.enter_of_pos (Nat.zero_lt_of_lt hd), Except.ok_bind,
      fold_flatMap (encodingFields_eq fs known) hne (hread _), Except.ok_bind, canon, Value.overlay,
      Value.overlayFields_eq_foldl, canonFields_eq, List.foldl_map]
    rfl

theorem decodes_optional {inner inner' : Shape} (hl : inner.layers = inner'.layers)
    (h : Decodes inner inner') : Decodes (.optional inner) (.optional inner') := by
  intro d v rest dst hc hd hf
  rcases hc with rfl | ⟨w, rfl, hw⟩
  · rw [encoding, decodeInto, readAbsentLayers, readNil_writeNil (Nat.succ_pos _) hf.1, Except.ok_bind]
    dsimp only
    rw [if_pos (show inner.layers + 1 = (Shape.optional inner').layers from congrArg (· + 1) hl)]
    rfl
  · rw [Value.depth] at hd
    have hwd : w.depth ≤ d.left - 1 := Nat.le_sub_one_of_lt hd
    rw [encoding, decodeInto, readAbsentLayers_encoding hl hw hf.2]
    dsimp only
    rw [Depth.enter_of_pos (Nat.zero_lt_of_lt hd)]
    dsimp only
    exact throughLayer_eq_ok.mpr ⟨_, h _ w rest dst.target hw hwd hf.2, rfl⟩

theorem decodes {s t : Shape} (h : s.ExtendedBy t) (hs : s.Distinct) : Decodes s t := by
  induction h with
  | bool => exact decodes_bool
  | int kind => exact decodes_int kind
  | str => exact decodes_str
  | blob => exact decodes_blob
  | seq _ ih => exact decodes_seq hs.elem (ih hs.elem)
  | map key _ ih => exact decodes_map hs.key hs.val (ih hs.val)
  | record hn _ ih => exact decodes_record hs hn fun f hf t ht => ih f hf t ht (hs.field hf)
  | optional h ih => exact decodes_optional h.layers_eq (ih hs.inner)

theorem encodeValue_eq_ok_iff {c : Config} {s : Shape} (hs : s.Distinct) {v : Value} {b : Bytes} :
    encodeValue c s v = .ok b ↔
      (s.Conforms v ∧ v.depth ≤ c.maxDepth) ∧ b = encoding s v ∧ b.length ≤ c.maxSize := by
  rw [encodeValue, Except.bind_eq_ok]
  constructor
  · rintro ⟨e, he, h⟩
    obtain ⟨hv, rfl⟩ := (encodesConforming hs _ _ _).mp he
    split at h
    · cases h
    · next hl =>
      cases h
      exact ⟨hv, rfl, Nat.not_lt.mp hl⟩
  · rintro ⟨hv, rfl, hl⟩
    exact ⟨_, (encodesConforming hs _ _ _).mpr ⟨hv, rfl⟩, if_neg (Nat.not_lt.mpr hl)⟩

theorem decodeValueInto_encoding_of_extendedBy {c : Config} {s t : Shape} (h : s.ExtendedBy t) (hs : s.Distinct)
    {v : Value} (hc : s.Conforms v) (hd : v.depth ≤ c.maxDepth) (hf : Fits s v) (suffix : Bytes) (dst : Value) :
    decodeValueInto c t (encoding s v ++ suffix) dst =
      .ok (encoding s v).length (Value.overlay dst (canon s v)) := by
  rw [decodeValueInto_eq, decodes h hs (.upTo c.maxDepth) v suffix dst hc hd hf]
  dsimp only
  rw [List.length_append, Nat.add_sub_cancel]

theorem decodeValue_encoding_of_extendedBy {c : Config} {s t : Shape} (h : s.ExtendedBy t)
    (hs : s.Distinct) {v : Value} (hc : s.Conforms v) (hd : v.depth ≤ c.maxDepth) (hf : Fits s v)
    (suffix : Bytes) :
    decodeValue c t (encoding s v ++ suffix) = .ok (canon s v, (encoding s v).length) := by
  rw [decodeValue_eq, (decodes h hs).fresh hs hc hd hf, Except.ok_map, List.length_append,
    Nat.add_sub_cancel]

theorem decodeValue_encoding {c : Config} {s : Shape} (hs : s.Distinct) {v : Value} (hc : s.Conforms v)
    (hd : v.depth ≤ c.maxDepth) (hf : Fits s v) (suffix : Bytes) :
    decodeValue c s (encoding s v ++ suffix) = .ok (canon s v, (encoding s v).length) :=
  decodeValue_encoding_of_extendedBy (.refl hs) hs hc hd hf suffix

theorem decodeValue_of_encodeValue {c c' : Config} {s : Shape} (hs : s.Distinct)
    (hl : s.All fun t => t.layers < 2 ^ 63) {v : Value} {b : Bytes} (hb : b.length < 2 ^ 63)
    (hm : c'.maxDepth = c.maxDepth) (h : encodeValue c s v = .ok b) (suffix : Bytes) :
    decodeValue c' s (b ++ suffix) = .ok (canon s v, b.length) := by
  obtain ⟨⟨hc, hd⟩, rfl, -⟩ := (encodeValue_eq_ok_iff hs).mp h
  exact decodeValue_encoding hs hc (by omega) (fits_of_length hs hl hc hb) suffix

theorem decodeValue_of_encodeValue_record :
    let s : Shape := .record [("a", .optional (.optional .str)), ("b", .map .bool (.int .u8))]
    let v : Value := .record [("b", .map [(.bool true, .int (.ofUnsigned 7)),
      (.bool false, .int (.ofUnsigned 0))]), ("a", .ref .nil)]
    let b : Bytes := [1, 14, 1, 1, 97, 64, 1, 1, 98, 1, 5, 0, 0, 1, 1, 7]
    encodeValue {} s v = .ok b ∧ decodeValue {} s (b ++ [255]) = .ok (canon s v, b.length) := by
  intro s v b
  have hs : s.Distinct := by simp [s, Shape.Distinct, Shape.All, Shape.AllFields, Shape.NamesDiffer]
  have hl : s.All fun t => t.layers < 2 ^ 63 := by simp [s, Shape.All, Shape.AllFields, Shape.layers]
  have hc : s.Conforms v := by
    refine .inr ⟨_, rfl, by decide, ?_⟩
    rw [List.forall_mem_cons, List.forall_mem_singleton]
    refine ⟨Shape.conformsField_iff.mpr ⟨_, rfl, rfl, .inr ⟨_, rfl, by decide, ?_⟩⟩,
      Shape.conformsField_iff.mpr ⟨_, rfl, .inr ⟨_, rfl, .inl rfl⟩⟩⟩
    rw [List.forall_mem_cons, List.forall_mem_singleton]
    exact ⟨⟨⟨_, rfl⟩, _, rfl, rfl⟩, ⟨_, rfl⟩, _, rfl, rfl⟩
  have he : b = encoding s v := by
    simp [s, v, encoding, encodingFields, lookup_cons_eq, sortPairs, List.mergeSort, List.merge, Value.cmpKey]
    rfl
  have h : encodeValue {} s v = .ok b := (encodeValue_eq_ok_iff hs).mpr ⟨⟨hc, by decide⟩, he, by decide⟩
  exact ⟨h, decodeValue_of_encodeValue hs hl (by decide) rfl h [255]⟩

end ShapeCodec
