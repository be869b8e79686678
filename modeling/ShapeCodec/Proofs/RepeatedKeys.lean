import ShapeCodec.Proofs.RoundTrip

namespace ShapeCodec

open Wire

section Latest

variable {κ β : Type} [DecidableEq κ] {entries : List (κ × β)} {key : κ} {b : β}

/-- The keys of the entries in the order in which they first occur, each with its last content. -/
def latest (entries : List (κ × β)) : List (κ × β) :=
  (entries.map (·.1)).eraseDups.filterMap fun key => (entries.reverse.lookup key).map (Prod.mk key)

theorem eraseDups_concat (keys : List κ) (key : κ) :
    (keys ++ [key]).eraseDups = if key ∈ keys then keys.eraseDups else keys.eraseDups ++ [key] := by
  rw [List.eraseDups_append, List.removeAll]
  by_cases h : key ∈ keys
  · rw [if_pos h, List.filter_cons_of_neg (by simp [h]), List.filter_nil, List.eraseDups_nil, List.append_nil]
  · rw [if_neg h, List.filter_cons_of_pos (by simp [h]), List.filter_nil, List.eraseDups_cons, List.filter_nil,
      List.eraseDups_nil]

theorem keys_foldl_put (entries : List (κ × β)) :
    (entries.foldl (fun es e => put e.1 e.2 es) []).map (·.1) = (entries.map (·.1)).eraseDups := by
  induction entries using List.reverseRecOn with
  | nil => rfl
  | append_singleton entries e ih =>
    rw [List.foldl_append, List.foldl_cons, List.foldl_nil, List.map_append, List.map_singleton,
      eraseDups_concat]
    split
    · next hm =>
      rw [keys_put_of_mem (by rwa [ih, List.mem_eraseDups]), ih]
    · next hm =>
      rw [put_of_not_mem (by rwa [ih, List.mem_eraseDups]), List.map_append, ih]
      rfl

theorem nodup_keys_foldl_put (entries : List (κ × β)) :
    ((entries.foldl (fun es e => put e.1 e.2 es) []).map (·.1)).Nodup := by
  induction entries using List.reverseRecOn with
  | nil => exact List.nodup_nil
  | append_singleton entries e ih =>
    rw [List.foldl_append]
    exact nodup_keys_put ih

theorem lookup_foldl_put (entries : List (κ × β)) (key : κ) :
    (entries.foldl (fun es e => put e.1 e.2 es) []).lookup key = entries.reverse.lookup key := by
  induction entries using List.reverseRecOn with
  | nil => rfl
  | append_singleton entries e ih =>
    rw [List.foldl_append, List.foldl_cons, List.foldl_nil, lookup_put, ih, List.reverse_append,
      List.reverse_singleton, List.singleton_append, lookup_cons_eq]

theorem filterMap_lookup_keys (hn : (entries.map (·.1)).Nodup) :
    ((entries.map (·.1)).filterMap fun key => (entries.lookup key).map (Prod.mk key)) = entries := by
  rw [List.filterMap_map]
  conv_rhs => rw [← @List.filterMap_some _ entries]
  apply List.filterMap_congr
  rintro ⟨key, b⟩ hm
  rw [Function.comp_apply, lookup_of_mem hn hm]
  rfl

theorem foldl_put_eq_latest (entries : List (κ × β)) :
    entries.foldl (fun es e => put e.1 e.2 es) [] = latest entries := by
  rw [← filterMap_lookup_keys (nodup_keys_foldl_put entries), keys_foldl_put]
  simp only [lookup_foldl_put]
  rfl

theorem nodup_keys_latest (entries : List (κ × β)) : ((latest entries).map (·.1)).Nodup := by
  rw [← foldl_put_eq_latest]
  exact nodup_keys_foldl_put entries

theorem lookup_latest (entries : List (κ × β)) (key : κ) :
    (latest entries).lookup key = entries.reverse.lookup key := by
  rw [← foldl_put_eq_latest]
  exact lookup_foldl_put entries key

def SameByKey (entries entries' : List (κ × β)) : Prop :=
  ∀ key, entries'.filter (·.1 = key) = entries.filter (·.1 = key)

theorem lookup_filter_key (entries : List (κ × β)) (key : κ) :
    (entries.filter (·.1 = key)).lookup key = entries.lookup key := by
  induction entries with
  | nil => rfl
  | cons e entries ih =>
    obtain ⟨k, b⟩ := e
    rw [lookup_cons_eq]
    by_cases hk : k = key
    · rw [List.filter_cons_of_pos (by simpa using hk), lookup_cons_eq, if_pos hk, if_pos hk]
    · rw [List.filter_cons_of_neg (by simpa using hk), if_neg hk, ih]

theorem SameByKey.lookup_reverse {entries' : List (κ × β)} (h : SameByKey entries entries') (key : κ) :
    entries'.reverse.lookup key = entries.reverse.lookup key := by
  rw [← lookup_filter_key, List.filter_reverse, h key, ← List.filter_reverse, lookup_filter_key]

theorem lookup_reverse_of_perm {entries' : List (κ × β)} (hn : (entries.map (·.1)).Nodup)
    (h : entries'.Perm entries) (key : κ) : entries'.reverse.lookup key = entries.reverse.lookup key := by
  have hp : entries'.reverse.Perm entries.reverse :=
    (List.reverse_perm entries').trans (h.trans (List.reverse_perm entries).symm)
  have hn' : (entries'.reverse.map (·.1)).Nodup := by
    rwa [List.map_reverse, List.nodup_reverse, (h.map _).nodup_iff]
  exact lookup_perm hp hn' key

theorem mem_latest_iff : (key, b) ∈ latest entries ↔ entries.reverse.lookup key = some b := by
  rw [← lookup_latest]
  exact ⟨lookup_of_mem (nodup_keys_latest entries), mem_of_lookup⟩

theorem latest_perm {entries' : List (κ × β)}
    (h : ∀ key, entries'.reverse.lookup key = entries.reverse.lookup key) :
    (latest entries').Perm (latest entries) := by
  rw [List.perm_ext_iff_of_nodup (List.Nodup.of_map _ (nodup_keys_latest entries'))
    (List.Nodup.of_map _ (nodup_keys_latest entries))]
  rintro ⟨key, b⟩
  rw [mem_latest_iff, mem_latest_iff, h key]

end Latest

/-- The encoding of the pairs of a map as they come, whatever their order, and with keys that repeat. -/
def writePairs (c : Config) (key val : Shape) (pairs : List (Value × Value)) : Except Error Bytes := do
  let codes ← pairs.mapM fun p => do
    let k ← encodeValue c key p.1
    let v ← encodeValue c val p.2
    .ok (k ++ v)
  .ok (writeCounted (some codes.flatten))

def encodingPairs (key val : Shape) (pairs : List (Value × Value)) : Bytes :=
  pairs.flatMap fun p => encoding key p.1 ++ encoding val p.2

theorem writePairs_eq_ok {c : Config} {key val : Shape} (hk : key.Distinct) (hv : val.Distinct)
    {pairs : List (Value × Value)} {b : Bytes} (h : writePairs c key val pairs = .ok b) :
    b = writeCounted (some (encodingPairs key val pairs)) ∧
      ∀ p ∈ pairs, (key.Conforms p.1 ∧ p.1.depth ≤ c.maxDepth) ∧ val.Conforms p.2 ∧ p.2.depth ≤ c.maxDepth := by
  obtain ⟨codes, hc, h⟩ := Except.bind_eq_ok.mp h
  obtain ⟨both, rfl, rfl, hboth⟩ := Except.mapM_eq_ok hc
  cases h
  have hpair : ∀ p ∈ both, p.2 = encoding key p.1.1 ++ encoding val p.1.2 ∧
      (key.Conforms p.1.1 ∧ p.1.1.depth ≤ c.maxDepth) ∧ val.Conforms p.1.2 ∧ p.1.2.depth ≤ c.maxDepth := by
    intro p hp
    obtain ⟨k, hek, h⟩ := Except.bind_eq_ok.mp (hboth p hp)
    obtain ⟨v, hev, h⟩ := Except.bind_eq_ok.mp h
    obtain ⟨hck, rfl, -⟩ := (encodeValue_eq_ok_iff hk).mp hek
    obtain ⟨hcv, rfl, -⟩ := (encodeValue_eq_ok_iff hv).mp hev
    exact ⟨(Except.ok.inj h).symm, hck, hcv⟩
  refine ⟨?_, List.forall_mem_map.mpr fun p hp => (hpair p hp).2⟩
  rw [encodingPairs, List.flatMap_map, List.flatMap_def, List.map_congr_left fun p hp => (hpair p hp).1]

theorem Value.get?_map (pairs : List (Value × Value)) (k : Value) :
    (Value.map pairs).get? k = pairs.reverse.lookup k := by
  rw [Value.get?]
  induction pairs.reverse with
  | nil => rfl
  | cons p pairs ih =>
    rw [List.find?_cons, List.lookup_cons, BEq.comm, ← ih]
    cases k == p.1 <;> rfl

theorem all_of_orderable {P : Shape → Prop} {key : Shape} (ho : key.isOrderable) (h : P key) : key.All P := by
  cases key <;> first | exact h | cases ho

theorem distinct_of_orderable {key : Shape} (ho : key.isOrderable) : key.Distinct :=
  all_of_orderable ho (by cases key <;> trivial)

theorem layers_of_orderable {key : Shape} (ho : key.isOrderable) : key.layers = 0 := by
  cases key <;> first | rfl | cases ho

section WrittenPairs

variable {key val : Shape} {pairs : List (Value × Value)}

theorem decode_pairs (ho : key.isOrderable) (hvs : val.Distinct) {d : Depth} (hd : 0 < d.left)
    (hk : ∀ p ∈ pairs, key.Conforms p.1 ∧ p.1.depth ≤ d.left - 1 ∧ Fits key p.1)
    (hv : ∀ p ∈ pairs, val.Conforms p.2 ∧ p.2.depth ≤ d.left - 1 ∧ Fits val p.2)
    (hl : (encodingPairs key val pairs).length < 2 ^ 63) (rest : Bytes) :
    fresh (decodeInto (.map key val) d) (writeCounted (some (encodingPairs key val pairs)) ++ rest) =
      .ok (.map (latest (pairs.map fun p => (p.1, canon val p.2))), rest) := by
  have hne : ∀ p ∈ pairs, encoding key p.1 ++ encoding val p.2 ≠ [] := by
    intro p hp
    exact List.append_ne_nil_of_left_ne_nil (encoding_ne_nil (hk p hp).1 (hk p hp).2.2) _
  have hread (q : Payload) : ∀ p ∈ pairs, ∀ i ps after,
      readPairBy put (decodeInto key ⟨d.limit, d.left - 1⟩) (decodeInto val ⟨d.limit, d.left - 1⟩) q i ps
        (encoding key p.1 ++ encoding val p.2 ++ after) = .ok (put p.1 (canon val p.2) ps, after) := by
    intro p hp i ps after
    obtain ⟨hck, hdk, hfk⟩ := hk p hp
    obtain ⟨hcv, hdv, hfv⟩ := hv p hp
    have hkey := (decodes_orderable ho).fresh (d := ⟨d.limit, d.left - 1⟩) (distinct_of_orderable ho) hck hdk hfk
    have hval := (decodes (.refl hvs) hvs).fresh (d := ⟨d.limit, d.left - 1⟩) hvs hcv hdv hfv
    rw [canon_of_orderable ho] at hkey
    exact readPairBy_encoding hkey hval q i ps after
  have hput : pairs.foldl (fun ps p => put p.1 (canon val p.2) ps) [] =
      latest (pairs.map fun p => (p.1, canon val p.2)) := by
    rw [← foldl_put_eq_latest, List.foldl_map]
  refine fresh_of_replace ((decodeInto_map d _ _ key val).trans (congrArg (replace · _) ?_))
  rw [Shape.checkKey_eq_ok_iff.mpr ho, Except.ok_bind, readPairList, openPayload_writeCounted_some hl, Except.ok_bind]
  dsimp only
  rw [Depth.enter_of_pos hd, Except.ok_bind, fold_flatMap rfl hne (hread _), Except.ok_bind, hput]

theorem decodeValue_of_writePairs {c c' : Config} (ho : key.isOrderable) (hv : val.Distinct)
    (hl : val.All fun t => t.layers < 2 ^ 63) (hd : c'.maxDepth < c.maxDepth) {b : Bytes}
    (hb : b.length < 2 ^ 63) (h : writePairs c' key val pairs = .ok b) (suffix : Bytes) :
    decodeValue c (.map key val) (b ++ suffix) =
      .ok (.map (latest (pairs.map fun p => (p.1, canon val p.2))), b.length) := by
  have hk := distinct_of_orderable ho
  have hlk : key.All fun t => t.layers < 2 ^ 63 := all_of_orderable ho (by rw [layers_of_orderable ho]; decide)
  obtain ⟨rfl, hp⟩ := writePairs_eq_ok hk hv h
  have hpay : (encodingPairs key val pairs).length < 2 ^ 63 := Nat.lt_of_le_of_lt (length_le_writeCounted _) hb
  have hsize : ∀ p ∈ pairs, (encoding key p.1).length < 2 ^ 63 ∧ (encoding val p.2).length < 2 ^ 63 := by
    intro p hm
    have hq := Nat.lt_of_le_of_lt
      (length_le_flatMap hm fun p : Value × Value => encoding key p.1 ++ encoding val p.2) hpay
    rw [List.length_append] at hq
    omega
  have hkeys : ∀ p ∈ pairs, key.Conforms p.1 ∧ p.1.depth ≤ c.maxDepth - 1 ∧ Fits key p.1 := by
    intro p hm
    obtain ⟨⟨hck, hdk⟩, -⟩ := hp p hm
    exact ⟨hck, by omega, fits_of_length hk hlk hck (hsize p hm).1⟩
  have hvals : ∀ p ∈ pairs, val.Conforms p.2 ∧ p.2.depth ≤ c.maxDepth - 1 ∧ Fits val p.2 := by
    intro p hm
    obtain ⟨-, hcv, hdv⟩ := hp p hm
    exact ⟨hcv, by omega, fits_of_length hv hl hcv (hsize p hm).2⟩
  have hleft : 0 < (Depth.upTo c.maxDepth).left := Nat.zero_lt_of_lt hd
  rw [decodeValue_eq, decode_pairs ho hv hleft hkeys hvals hpay suffix, Except.ok_map, List.length_append, Nat.add_sub_cancel]

end WrittenPairs

theorem decodeValue_writePairs {c c' : Config} {key val : Shape} (ho : key.isOrderable) (hv : val.Distinct)
    (hl : val.All fun t => t.layers < 2 ^ 63) (hd : c'.maxDepth < c.maxDepth) {pairs : List (Value × Value)}
    {b : Bytes} (hb : b.length < 2 ^ 63) (h : writePairs c' key val pairs = .ok b) (suffix : Bytes) :
    let decoded := latest (pairs.map fun p => (p.1, canon val p.2))
    decodeValue c (.map key val) (b ++ suffix) = .ok (.map decoded, b.length) ∧
    (∀ k, (Value.map decoded).get? k = (pairs.reverse.lookup k).map (canon val)) ∧
    ∀ pairs' b', writePairs c' key val pairs' = .ok b' → b'.length < 2 ^ 63 →
      pairs'.Perm pairs ∧ (pairs.map (·.1)).Nodup ∨ SameByKey pairs pairs' →
      ∃ decoded', decodeValue c (.map key val) (b' ++ suffix) = .ok (.map decoded', b'.length) ∧
        decoded'.Perm decoded := by
  intro decoded
  refine ⟨decodeValue_of_writePairs ho hv hl hd hb h suffix, ?_, ?_⟩
  · intro k
    have hn : (decoded.reverse.map (·.1)).Nodup := by
      rw [List.map_reverse, List.nodup_reverse]
      exact nodup_keys_latest _
    rw [Value.get?_map, lookup_perm (List.reverse_perm decoded) hn, lookup_latest, ← List.map_reverse,
      lookup_map_snd]
  · intro pairs' b' h' hb' hsame
    refine ⟨_, decodeValue_of_writePairs ho hv hl hd hb' h' suffix, latest_perm fun k => ?_⟩
    rw [← List.map_reverse, ← List.map_reverse, lookup_map_snd, lookup_map_snd]
    rcases hsame with ⟨hp, hn⟩ | hsame
    · rw [lookup_reverse_of_perm hn hp]
    · rw [hsame.lookup_reverse]

theorem decodeValue_writePairs_repeated :
    let val : Shape := .record [("a", .bool), ("b", .bool)]
    let pairs : List (Value × Value) := [(.bool true, .record [("a", .bool true)]), (.bool false, .nil),
      (.bool true, .record [("b", .bool false)])]
    let b : Bytes := [1, 16, 1, 1, 4, 1, 1, 97, 1, 0, 128, 1, 1, 4, 1, 1, 98, 0]
    let decoded : List (Value × Value) := [(.bool true, .record [("b", .bool false)]), (.bool false, .nil)]
    writePairs {} .bool val pairs = .ok b ∧
    decodeValue { maxDepth := 65 } (.map .bool val) (b ++ [255]) = .ok (.map decoded, b.length) ∧
    (Value.map decoded).get? (.bool true) = some (.record [("b", .bool false)]) := by
  intro val pairs b decoded
  have hv : val.Distinct := by simp [val, Shape.Distinct, Shape.All, Shape.AllFields, Shape.NamesDiffer]
  have hl : val.All fun t => t.layers < 2 ^ 63 := by simp [val, Shape.All, Shape.AllFields, Shape.layers]
  have hw : writePairs {} .bool val pairs = .ok b := rfl
  have hd : latest (pairs.map fun p => (p.1, canon val p.2)) = decoded := by decide
  obtain ⟨hdec, hget, -⟩ :=
    @decodeValue_writePairs { maxDepth := 65 } {} .bool val rfl hv hl (by decide) pairs b (by decide) hw [255]
  rw [hd] at hdec hget
  exact ⟨hw, hdec, (hget (.bool true)).trans (by decide)⟩

end ShapeCodec
