import ShapeCodec.Proofs.RoundTrip

namespace ShapeCodec

open Wire

theorem encodeValue_record_eq_ok {c : Config} {known : List (String × Shape)}
    {fields : List (String × Value)} {b : Bytes}
    (h : encodeValue c (.record known) (.record fields) = .ok b) :
    0 < c.maxDepth ∧ ∃ payload, b = writeCounted (some payload) ∧
      encodeFields ⟨c.maxDepth, c.maxDepth - 1⟩ fields 0 known = .ok payload := by
  obtain ⟨e, he, h⟩ := Except.bind_eq_ok.mp h
  split at h
  · cases h
  · cases h
    rw [encode] at he
    obtain ⟨⟨⟩, -, he⟩ := Except.bind_eq_ok.mp he
    obtain ⟨d, hd, he⟩ := Except.bind_eq_ok.mp he
    obtain ⟨payload, hp, he⟩ := Except.bind_eq_ok.mp he
    cases he
    obtain ⟨limit, left⟩ := d
    obtain ⟨hl, hn⟩ := Depth.enter_eq_ok_iff.mp hd
    obtain rfl : c.maxDepth = limit := hl
    have hn : c.maxDepth = left + 1 := hn
    obtain rfl : left = c.maxDepth - 1 := by omega
    exact ⟨by omega, payload, rfl, hp⟩

theorem encodeFields_at_mentioned {d : Depth} {fields : List (String × Value)}
    {before after : List (String × Shape)} {name : String} {s : Shape} {payload : Bytes}
    (hs : ∀ f ∈ before, f.1 ∈ fields.map (·.1) → f.2.Distinct) (hn : name ∈ fields.map (·.1))
    (h : encodeFields d fields 0 (before ++ (name, s) :: after) = .ok payload) :
    (∀ f ∈ before, ∀ v, fields.lookup f.1 = some v → f.2.Conforms v ∧ v.depth ≤ d.left) ∧
      ∃ rest, payload = encodingFields fields before ++ (writeStr name ++ rest) := by
  obtain ⟨front, back, hf, hb, rfl⟩ := encodeFields_append_eq_ok h
  obtain ⟨hc, rfl⟩ := (encodeFields_eq_ok_iff (fun s v => s.Conforms v ∧ v.depth ≤ d.left) fields
    (fun f hf v hl b => encodesConforming
      (hs f hf (List.mem_map.mpr ⟨_, mem_of_lookup hl, rfl⟩)) d v b) 0).mp hf
  obtain ⟨v, hv⟩ := exists_lookup_of_mem hn
  rw [encodeFields, hv] at hb
  obtain ⟨part, -, hb⟩ := Except.bind_eq_ok.mp hb
  obtain ⟨parts, -, hb⟩ := Except.bind_eq_ok.mp hb
  cases hb
  exact ⟨hc, part ++ parts, by rw [List.append_assoc (writeStr name)]⟩

theorem readField_unknown {field : String → Option Update} {name : String} (hn : field name = none)
    (hl : (Text.utf8 name).length < 2 ^ 63) (p : Payload) (i : Nat) (us : List (String × Value)) (rest : Bytes) :
    readField field p i us (writeStr name ++ rest) =
      .error (.nested (p.position (writeStr name ++ rest)) (.fieldName i) (.malformed (.unknownField name))) := by
  rw [readField]
  dsimp only
  rw [readStr_writeStr hl, Except.ok_mapError, Except.ok_bind]
  dsimp only
  rw [hn]

theorem readRecord_unknown_field {known : List (String × Shape)} {d : Depth} (hd : 0 < d.left)
    {fields : List (String × Value)} {before : List (String × Shape)} {name : String} {payload rest : Bytes}
    (hn : known.lookup name = none) (hp : payload = encodingFields fields before ++ (writeStr name ++ rest))
    (hl : payload.length < 2 ^ 63)
    (hr : ∀ m ∈ mentioned fields before, ∃ t, known.lookup m.1 = some t ∧ Decodes m.2.1 t ∧
      m.2.1.Conforms m.2.2 ∧ m.2.2.depth ≤ d.left - 1 ∧ Fits m.2.1 m.2.2)
    (us : List (String × Value)) (suffix : Bytes) :
    readRecord d (decodeField known) us (writeCounted (some payload) ++ suffix) =
      .error (.nested ((writeLength (some payload.length)).length + (encodingFields fields before).length)
        (.fieldName (mentioned fields before).length) (.malformed (.unknownField name))) := by
  have hlp := hl
  rw [hp, List.length_append, List.length_append] at hlp
  have hln : (Text.utf8 name).length < 2 ^ 63 := by
    have : (Text.utf8 name).length ≤ (writeStr name).length := length_le_writeCounted _
    omega
  have hcode : payload = ((mentioned fields before).flatMap fun m =>
      writeStr m.1 ++ encoding m.2.1 m.2.2) ++ (writeStr name ++ rest) := by
    rw [hp, encodingFields_eq]
  rw [readRecord, openPayload_writeCounted_some hl, Except.ok_bind]
  dsimp only
  rw [Depth.enter_of_pos hd, Except.ok_bind]
  have hread : ∀ m ∈ mentioned fields before, ∀ i us after,
      readField (decodeField known ⟨d.limit, d.left - 1⟩)
        ⟨(writeLength (some payload.length)).length, payload⟩ i us
        (writeStr m.1 ++ encoding m.2.1 m.2.2 ++ after) =
      .ok (Value.putField m.1 (Value.overlay ((us.lookup m.1).getD .nil) (canon m.2.1 m.2.2)) us, after) := by
    intro m hm i us after
    obtain ⟨t, ht, hdec, hc, hdm, hf⟩ := hr m hm
    exact readField_encoding (length_name_lt hm (by omega)) ht hdec hc hdm hf _ i us after
  -- The fields before the name are read as they were written; the payload goes on with the name.
  obtain ⟨left, hleft, he⟩ := eachUnit_flatMap_append (fun m _ => writeStr_append_ne_nil m.1 _) hread 0 us
    (Nat.le_of_eq (congrArg List.length hcode).symm)
  have hposition : payload.length - (writeStr name ++ rest).length = (encodingFields fields before).length := by
    rw [hp, List.length_append, Nat.add_sub_cancel]
  have hfield : decodeField known ⟨d.limit, d.left - 1⟩ name = none := by
    rw [decodeField_eq, hn, Option.map_none]
  rw [← hcode, eachUnit_eq_error (writeStr_append_ne_nil name rest) hleft (readField_unknown hfield hln _ _ _ _),
    Payload.position, hposition, Nat.zero_add] at he
  rw [Payload.fold]
  dsimp only
  rw [he, Except.error_bind]

/-- Fields are found by name. What was encoded by a shape decodes by each shape that extends it. The
first name that the shape of a record does not have makes the record malformed, at that name. -/
theorem decodeValue_by_names {c c' : Config} (hm : c'.maxDepth = c.maxDepth) :
    (∀ s t : Shape, s.ExtendedBy t → s.Distinct → s.All (fun u => u.layers < 2 ^ 63) →
      ∀ (v : Value) (b : Bytes), encodeValue c s v = .ok b → b.length < 2 ^ 63 →
        ∀ suffix, decodeValue c' t (b ++ suffix) = .ok (canon s v, b.length)) ∧
    ∀ (before after known : List (String × Shape)) (name : String) (s : Shape)
      (fields : List (String × Value)) (b : Bytes),
      name ∈ fields.map (·.1) → name ∉ known.map (·.1) →
      (∀ f ∈ before, f.1 ∈ fields.map (·.1) → f.2.Distinct ∧ f.2.All (fun u => u.layers < 2 ^ 63) ∧
        ∃ t, known.lookup f.1 = some t ∧ f.2.ExtendedBy t) →
      encodeValue c (.record (before ++ (name, s) :: after)) (.record fields) = .ok b →
      b.length < 2 ^ 63 →
        ∃ rest payload start, payload = encodingFields fields before ++ (writeStr name ++ rest) ∧
          b = writeCounted (some payload) ∧
          start = (writeLength (some payload.length)).length + (encodingFields fields before).length ∧
          ∀ suffix, ∃ e, decodeValue c' (.record known) (b ++ suffix) = .error e ∧
            e = .nested start (.fieldName (mentioned fields before).length)
              (.malformed (.unknownField name)) ∧
            e.kind = .malformedData ∧ e.offset = start := by
  refine ⟨fun s t hext hs hl v b h hb suffix => ?_, ?_⟩
  · obtain ⟨⟨hc, hd⟩, rfl, -⟩ := (encodeValue_eq_ok_iff hs).mp h
    exact decodeValue_encoding_of_extendedBy hext hs hc (by omega) (fits_of_length hs hl hc hb) suffix
  · intro before after known name s fields b hname hunknown hbefore h hb
    obtain ⟨hpos, payload, rfl, hp⟩ := encodeValue_record_eq_ok h
    obtain ⟨hc, rest, rfl⟩ := encodeFields_at_mentioned (fun f hf hm => (hbefore f hf hm).1) hname hp
    have hlen := Nat.lt_of_le_of_lt (length_le_writeCounted _) hb
    have hr : ∀ m ∈ mentioned fields before, ∃ t, known.lookup m.1 = some t ∧ Decodes m.2.1 t ∧
        m.2.1.Conforms m.2.2 ∧ m.2.2.depth ≤ c'.maxDepth - 1 ∧ Fits m.2.1 m.2.2 := by
      rintro ⟨n, u, v⟩ hmem
      obtain ⟨hk, hl⟩ := mem_mentioned_iff.mp hmem
      obtain ⟨hs, hlay, t, ht, hext⟩ := hbefore _ hk (List.mem_map.mpr ⟨_, mem_of_lookup hl, rfl⟩)
      obtain ⟨hcu, hdu⟩ := hc _ hk v hl
      have hle := length_le_flatMap hmem fun m : String × Shape × Value => writeStr m.1 ++ encoding m.2.1 m.2.2
      rw [← encodingFields_eq, List.length_append] at hle
      rw [List.length_append] at hlen
      have hlu : (encoding u v).length < 2 ^ 63 := by
        dsimp only at hle
        omega
      exact ⟨t, ht, decodes hext hs, hcu, by rw [hm]; exact hdu, fits_of_length hs hlay hcu hlu⟩
    refine ⟨rest, _, _, rfl, rfl, rfl, fun suffix => ⟨_, ?_, rfl, rfl, rfl⟩⟩
    rw [decodeValue_eq, fresh_of_replace (decodeInto_record _ _ _ _),
      readRecord_unknown_field (d := .upTo c'.maxDepth) (by rw [Depth.upTo, hm]; exact hpos)
        (lookup_eq_none_iff_not_mem.mpr hunknown) rfl hlen hr, Except.error_map]

theorem decodeValue_by_names_record :
    let s : Shape := .record [("a", .str), ("b", .seq .bool)]
    let t : Shape := .record [("b", .seq .bool), ("x", .blob), ("a", .str)]
    let u : List (String × Shape) := [("x", .blob), ("a", .str)]
    let v : Value := .record [("b", .seq [.bool true]), ("a", .str "h")]
    let b : Bytes := [1, 12, 1, 1, 97, 1, 1, 104, 1, 1, 98, 1, 1, 1]
    encodeValue {} s v = .ok b ∧ decodeValue {} t (b ++ [255]) = .ok (canon s v, b.length) ∧
      ∃ start e, decodeValue {} (.record u) (b ++ [255]) = .error e ∧
        e = .nested start (.fieldName 1) (.malformed (.unknownField "b")) ∧ e.offset = start := by
  intro s t u v b
  have h : encodeValue {} s v = .ok b := rfl
  have hs : s.Distinct := by simp [s, Shape.Distinct, Shape.All, Shape.AllFields, Shape.NamesDiffer]
  have hl : s.All fun t => t.layers < 2 ^ 63 := by simp [s, Shape.All, Shape.AllFields, Shape.layers]
  have hext : s.ExtendedBy t := by
    refine .record (by decide) ?_
    rw [List.forall_mem_cons, List.forall_mem_singleton]
    refine ⟨fun t ht => ?_, fun t ht => ?_⟩
    · cases ht
      exact .str
    · cases ht
      exact .seq .bool
  refine ⟨h, (decodeValue_by_names rfl).1 s t hext hs hl v b h (by decide) [255], ?_⟩
  have hbefore : ∀ f ∈ [("a", Shape.str)], f.1 ∈ ["b", "a"] → f.2.Distinct ∧
      f.2.All (fun u => u.layers < 2 ^ 63) ∧ ∃ t, u.lookup f.1 = some t ∧ f.2.ExtendedBy t := by
    rw [List.forall_mem_singleton]
    exact fun _ => ⟨trivial, Nat.two_pow_pos 63, .str, rfl, .str⟩
  obtain ⟨-, -, start, -, -, -, he⟩ := (@decodeValue_by_names {} {} rfl).2
    [("a", .str)] [] u "b" (.seq .bool) [("b", .seq [.bool true]), ("a", .str "h")] b (by decide)
    (by decide) hbefore h (by decide)
  obtain ⟨e, hd, heq, -, ho⟩ := he [255]
  exact ⟨start, e, hd, heq, ho⟩

end ShapeCodec
