import ShapeCodec.Proofs.LimitedDecoding
import ShapeCodec.Proofs.LimitedEncoding
import ShapeCodec.Proofs.Prefixes

/-!
Stacks of reference layers. A nil unit on the input counts the layers that are absent, from the innermost
one outwards, and whatever else is there is read as under no layers at all.
-/

namespace ShapeCodec

open Wire

def Value.refN (v : Value) : Nat → Value
  | 0 => v
  | n + 1 => .ref (v.refN n)

theorem Shape.layers_optionalN {b : Shape} (hb : b.layers = 0) (n : Nat) : (b.optionalN n).layers = n := by
  induction n with
  | zero => exact hb
  | succ n ih => rw [optionalN, layers, ih]

theorem Shape.optionalN_optionalN (b : Shape) (m n : Nat) : (b.optionalN m).optionalN n = b.optionalN (m + n) := by
  induction n with
  | zero => rfl
  | succ n ih => rw [optionalN, ih, ← Nat.add_assoc, optionalN]

namespace Wire

def StartsNil (data : Bytes) : Prop :=
  ∃ b, data.head? = some b ∧ b &&& 0x40 ≠ 0 ∧ b &&& 0x8f = 0

inductive Chain : Bytes → Prop
  | last {b : UInt8} : b &&& 0x20 = 0 → Chain [b]
  | more {b : UInt8} {bs : Bytes} : b &&& 0x20 ≠ 0 → Chain bs → Chain (b :: bs)

structure NilHeader (indirect : Bool) (header : Bytes) : Prop where
  nil : StartsNil header
  chain : Chain header
  flag : ∀ b, header.head? = some b → indirect = (b &&& 0x10 != 0)

/-- A nil unit and its depth, which is one unless an integer after the header says otherwise. -/
inductive NilUnit : Bytes → Nat → Prop
  | single {header : Bytes} : NilHeader false header → NilUnit header 1
  | stack {header int : Bytes} {bits : BitVec 64} {k : Nat} : NilHeader true header →
      readInt int = .ok (bits, []) → bits.toInt = k → 1 ≤ k → NilUnit (header ++ int) k

inductive IntCutShort : Bytes → Prop
  | start : IntCutShort []
  | magnitude {b : UInt8} {rest : Bytes} {negative : Bool} {length : Nat} :
      InfoByte.ofByte b = .int negative length → rest.length < length → IntCutShort (b :: rest)

inductive NilCutShort : Bytes → Prop
  | chain {data : Bytes} : StartsNil data → (∀ b ∈ data, b &&& 0x20 ≠ 0) → NilCutShort data
  | depth {header int : Bytes} : NilHeader true header → IntCutShort int → NilCutShort (header ++ int)

inductive BadNilDepth : Bytes → Prop
  | intro {header rest : Bytes} : NilHeader true header → ¬ IntCutShort rest →
      (∀ bits after, readInt rest = .ok (bits, after) → bits.toInt < 1) → BadNilDepth (header ++ rest)

theorem ofByte_of_nil {b : UInt8} (h : b &&& 0x40 ≠ 0) (h' : b &&& 0x8f = 0) :
    InfoByte.ofByte b = .nil (InfoByte.isExtended b) (b &&& 0x10 != 0) := by
  rw [InfoByte.ofByte, if_pos h, if_neg (not_not_intro h'), InfoByte.isExtended]

theorem readNil_of_not_startsNil {data : Bytes} (h : ¬ StartsNil data) : readNil data = .ok none := by
  cases data with
  | nil => rfl
  | cons b data =>
    rw [readNil]
    split
    · next hb =>
      rw [InfoByte.ofByte] at hb
      split at hb
      · next h40 =>
        split at hb
        · cases hb
        · next h8f => exact absurd ⟨b, rfl, h40, Decidable.not_not.mp h8f⟩ h
      · split at hb <;> cases hb
    · rfl

section Chains

variable {b : UInt8} {bs rest : Bytes}

theorem isExtended_eq_true (h : b &&& 0x20 ≠ 0) : InfoByte.isExtended b = true := by
  simpa [InfoByte.isExtended] using h

theorem isExtended_eq_false (h : b &&& 0x20 = 0) : InfoByte.isExtended b = false := by
  simpa [InfoByte.isExtended] using h

theorem skipExtensions_of_chain (h : Chain (b :: bs)) :
    skipExtensions (InfoByte.isExtended b) (bs ++ rest) = .ok rest := by
  induction bs generalizing b with
  | nil =>
    cases h with
    | last hb => rw [isExtended_eq_false hb, skipExtensions_false, List.nil_append]
    | more _ h => cases h
  | cons b' bs ih =>
    cases h with
    | more hb h =>
      rw [isExtended_eq_true hb, List.cons_append, skipExtensions]
      exact ih h

theorem skipExtensions_of_cut (h : ∀ x ∈ b :: bs, x &&& 0x20 ≠ 0) :
    skipExtensions (InfoByte.isExtended b) bs = .error (.headerCutShort .nilExtension) := by
  obtain ⟨hb, hbs⟩ := List.forall_mem_cons.mp h
  rw [isExtended_eq_true hb]
  induction bs generalizing b with
  | nil => rfl
  | cons b' bs ih =>
    obtain ⟨hb', hbs'⟩ := List.forall_mem_cons.mp hbs
    rw [skipExtensions, isExtended_eq_true hb']
    exact ih hbs hb' hbs'

theorem chain_or_cut (data : Bytes) :
    (∃ header rest, Chain header ∧ data = header ++ rest) ∨ ∀ b ∈ data, b &&& 0x20 ≠ 0 := by
  induction data with
  | nil => exact .inr (List.forall_mem_nil _)
  | cons b data ih =>
    by_cases hb : b &&& 0x20 = 0
    · exact .inl ⟨[b], data, .last hb, rfl⟩
    · rcases ih with ⟨header, rest, hc, rfl⟩ | hcut
      · exact .inl ⟨b :: header, rest, .more hb hc, rfl⟩
      · exact .inr (List.forall_mem_cons.mpr ⟨hb, hcut⟩)

end Chains

theorem readNil_header {indirect : Bool} {header : Bytes} (h : NilHeader indirect header) (rest : Bytes) :
    readNil (header ++ rest) = if indirect then (readDepth rest).map some else .ok (some (1, rest)) := by
  obtain ⟨b, hb, h40, h8f⟩ := h.nil
  obtain ⟨bs, rfl⟩ := List.head?_eq_some_iff.mp hb
  rw [List.cons_append, readNil, ofByte_of_nil h40 h8f]
  dsimp only
  rw [skipExtensions_of_chain h.chain, Except.ok_bind, h.flag b rfl]

theorem isEof_iff_intCutShort {data : Bytes} {e : Error} (h : readInt data = .error e) :
    e.isEof ↔ IntCutShort data := by
  cases data with
  | nil =>
    cases h
    exact ⟨fun _ => .start, fun _ => rfl⟩
  | cons b data =>
    rw [readInt] at h
    cases hb : InfoByte.ofByte b with
    | int negative length =>
      rw [hb] at h
      dsimp only at h
      by_cases hlt : data.length < length
      · rw [take, if_pos hlt] at h
        cases h
        exact ⟨fun _ => .magnitude hb hlt, fun _ => rfl⟩
      · rw [take, if_neg hlt, Except.ok_bind] at h
        dsimp only at h
        split at h
        · cases h
          constructor
          · intro h
            cases h
          · rintro (- | ⟨hb', hlt'⟩)
            rw [hb] at hb'
            cases hb'
            exact absurd hlt' hlt
        · cases h
    | _ =>
      rw [hb] at h
      cases h
      constructor
      · intro h
        cases h
      · rintro (- | ⟨hb', -⟩)
        rw [hb] at hb'
        cases hb'

theorem not_intCutShort_of_readInt {data rest : Bytes} {bits : BitVec 64} (h : readInt data = .ok (bits, rest)) :
    ¬ IntCutShort data := by
  intro hcut
  cases hcut with
  | start => cases h
  | magnitude hb hlt =>
    rw [readInt, hb] at h
    dsimp only at h
    rw [take, if_pos hlt] at h
    cases h

theorem readNil_unit {unit : Bytes} {k : Nat} (h : NilUnit unit k) (rest : Bytes) :
    readNil (unit ++ rest) = .ok (some (k, rest)) := by
  cases h with
  | single h =>
    rw [readNil_header h]
    rfl
  | @stack header int bits k h hint hbits hk =>
    have hread : readInt (int ++ rest) = .ok (bits, rest) := by
      have hd := decided_readInt int rest
      rwa [hint] at hd
    have hnat : bits.toNat = k := by
      have := (ofNat_toNat_of_toInt bits (by omega)).1
      rw [BitVec.toInt_eq_toNat_of_lt (by omega)] at hbits
      exact_mod_cast hbits
    rw [List.append_assoc, readNil_header h, if_pos rfl, readDepth, hread]
    dsimp only
    rw [if_neg (by omega), hnat, Except.ok_map]

theorem one_le_of_nilUnit {unit : Bytes} {k : Nat} (h : NilUnit unit k) : 1 ≤ k := by
  cases h with
  | single _ => exact Nat.le_refl 1
  | stack _ _ _ hk => exact hk

theorem readNil_cutShort {data : Bytes} (h : NilCutShort data) :
    ∃ step, readNil data = .error (.headerCutShort step) := by
  cases h with
  | chain hnil hcut =>
    obtain ⟨b, hb, h40, h8f⟩ := hnil
    obtain ⟨bs, rfl⟩ := List.head?_eq_some_iff.mp hb
    refine ⟨.nilExtension, ?_⟩
    rw [readNil, ofByte_of_nil h40 h8f]
    dsimp only
    rw [skipExtensions_of_cut hcut, Except.error_bind]
  | depth h hint =>
    refine ⟨.nilDepth, ?_⟩
    rw [readNil_header h, if_pos rfl, readDepth]
    split
    · next e he =>
      rw [if_pos ((isEof_iff_intCutShort he).mpr hint)]
      rfl
    · next hok => exact absurd hint (not_intCutShort_of_readInt hok)

theorem readNil_badDepth {data : Bytes} (h : BadNilDepth data) :
    ∃ e, readNil data = .error e ∧ e.kind = .malformedData ∧ ¬ e.isIncomplete := by
  obtain ⟨h, hint, hlow⟩ := h
  rw [readNil_header h, if_pos rfl, readDepth]
  split
  · next e he =>
    rw [if_neg fun hi => hint ((isEof_iff_intCutShort he).mp hi)]
    exact ⟨_, rfl, rfl, Bool.false_ne_true⟩
  · next bits after hok =>
    rw [if_pos (hlow bits after hok)]
    exact ⟨_, rfl, rfl, Bool.false_ne_true⟩

theorem exists_int_of_readInt {data after : Bytes} {bits : BitVec 64} (h : readInt data = .ok (bits, after)) :
    ∃ int, data = int ++ after ∧ readInt int = .ok (bits, []) := by
  rcases spelling_of_readInt h with rfl | rfl
  · refine ⟨writeInt bits, rfl, ?_⟩
    have hr := readInt_writeInt bits []
    rwa [List.append_nil] at hr
  · refine ⟨writeCrossed bits, rfl, ?_⟩
    have hr := readInt_writeCrossed bits []
    rwa [List.append_nil] at hr

theorem startsNil_cases {data : Bytes} (h : StartsNil data) :
    (∃ unit k rest, NilUnit unit k ∧ data = unit ++ rest) ∨ NilCutShort data ∨ BadNilDepth data := by
  rcases chain_or_cut data with ⟨header, rest, hchain, rfl⟩ | hcut
  · obtain ⟨b, hb, hbits⟩ := h
    obtain ⟨b', bs, rfl⟩ : ∃ b' bs, header = b' :: bs := by cases hchain <;> exact ⟨_, _, rfl⟩
    obtain rfl : b' = b := Option.some.inj hb
    have hnil : StartsNil (b' :: bs) := ⟨b', rfl, hbits⟩
    cases hflag : b' &&& 0x10 != 0 with
    | false => exact .inl ⟨_, 1, rest, .single ⟨hnil, hchain, fun _ h => by cases h; exact hflag.symm⟩, rfl⟩
    | true =>
      have hh : NilHeader true (b' :: bs) := ⟨hnil, hchain, fun _ h => by cases h; exact hflag.symm⟩
      by_cases hint : IntCutShort rest
      · exact .inr (.inl (.depth hh hint))
      by_cases hlow : ∀ bits after, readInt rest = .ok (bits, after) → bits.toInt < 1
      · exact .inr (.inr ⟨hh, hint, hlow⟩)
      · push Not at hlow
        obtain ⟨bits, after, hr, hpos⟩ := hlow
        obtain ⟨int, rfl, hwhole⟩ := exists_int_of_readInt hr
        have hk : bits.toInt = bits.toInt.toNat := by omega
        exact .inl ⟨_, _, after, .stack hh hwhole hk (by omega), (List.append_assoc _ _ _).symm⟩
  · exact .inr (.inl (.chain h hcut))

end Wire

section Decoding

variable {b : Shape} {n k : Nat} {d : Depth} {data rest : Bytes}

theorem fresh_optionalN_of_none (h : readNil data = .ok none) (hn : n ≤ d.left) :
    fresh (decodeInto (b.optionalN n) d) data =
      (fresh (decodeInto b ⟨d.limit, d.left - n⟩) data).map fun r => (r.1.refN n, r.2) := by
  induction n generalizing d with
  | zero => cases h : fresh (decodeInto b d) data <;> simp [Shape.optionalN, Value.refN, h]
  | succ n ih =>
    have he := Depth.enter_of_pos (Nat.lt_of_lt_of_le (Nat.succ_pos n) hn)
    rw [Shape.optionalN, fresh_decodeInto_optional, readAbsentLayers, h, Except.ok_bind, Except.ok_bind]
    dsimp only
    rw [he, Except.ok_bind, ih (by dsimp only; omega)]
    dsimp only
    rw [Nat.sub_sub, Nat.add_comm 1 n]
    cases fresh (decodeInto b ⟨d.limit, d.left - (n + 1)⟩) data <;> rfl

theorem fresh_optionalN_of_some (hb : b.layers = 0) (h : readNil data = .ok (some (k, rest))) (h1 : 1 ≤ k)
    (hk : k ≤ n) (hn : n - k ≤ d.left) :
    fresh (decodeInto (b.optionalN n) d) data = .ok (Value.nil.refN (n - k), rest) := by
  induction n generalizing d with
  | zero => omega
  | succ n ih =>
    have hl := Shape.layers_optionalN hb (n + 1)
    rw [Shape.optionalN] at hl ⊢
    rw [fresh_decodeInto_optional, readAbsentLayers, h, Except.ok_bind, hl]
    dsimp only
    by_cases heq : k = n + 1
    · rw [if_pos heq, heq, Nat.sub_self]
      rfl
    · have hlt : k ≤ n := by omega
      have he := Depth.enter_of_pos (d := d) (by omega)
      rw [if_neg heq, if_neg (by omega), Except.ok_bind]
      dsimp only
      rw [he, Except.ok_bind, ih hlt (by dsimp only; omega), Except.ok_map, Nat.succ_sub hlt]
      rfl

theorem fresh_optionalN_of_past (hb : b.layers = 0) (hn : 1 ≤ n) (h : readNil data = .ok (some (k, rest)))
    (hk : n < k) : fresh (decodeInto (b.optionalN n) d) data =
      .error (.malformed (.nilPastLayers k (b.optionalN n))) := by
  have hl := Shape.layers_optionalN hb n
  obtain ⟨n, rfl⟩ := Nat.exists_eq_add_of_le' hn
  rw [Shape.optionalN] at hl ⊢
  rw [fresh_decodeInto_optional, readAbsentLayers, h, Except.ok_bind, hl]
  dsimp only
  rw [if_neg (by omega), if_pos hk, Except.error_bind]

theorem fresh_optionalN_of_error {e : Error} (hn : 1 ≤ n) (h : readNil data = .error e) :
    fresh (decodeInto (b.optionalN n) d) data = .error e := by
  obtain ⟨n, rfl⟩ := Nat.exists_eq_add_of_le' hn
  rw [Shape.optionalN, fresh_decodeInto_optional, readAbsentLayers, h, Except.error_bind, Except.error_bind]

theorem decodeValue_optionalN_of_none {c : Config} (h : readNil data = .ok none) (hn : n ≤ c.maxDepth) :
    decodeValue c (b.optionalN n) data =
      ((decodeValue { c with maxDepth := c.maxDepth - n } b data).map fun r => (r.1.refN n, r.2)).mapError
        (.requote c.maxDepth) := by
  have hlimit : fresh (decodeInto b ⟨c.maxDepth, c.maxDepth - n⟩) data =
      (fresh (decodeInto b (.upTo (c.maxDepth - n))) data).mapError (.requote c.maxDepth) := by
    have h := decodesWithin b (.upTo (c.maxDepth - n)) ⟨c.maxDepth, c.maxDepth - n⟩ .nil data (Nat.le_refl _)
    exact h.eq_mapError rfl
  rw [decodeValue_eq, decodeValue_eq, fresh_optionalN_of_none h hn]
  dsimp only [Depth.upTo] at hlimit ⊢
  rw [hlimit]
  cases fresh (decodeInto b ⟨c.maxDepth - n, c.maxDepth - n⟩) data <;> rfl

end Decoding

section Encoding

variable {b : Shape} {n k : Nat} {d : Depth}

theorem encode_optionalN_refN (v : Value) (hn : n ≤ d.left) :
    encode d (b.optionalN n) (v.refN n) = encode ⟨d.limit, d.left - n⟩ b v := by
  induction n generalizing d with
  | zero => rfl
  | succ n ih =>
    have he := Depth.enter_of_pos (Nat.lt_of_lt_of_le (Nat.succ_pos n) hn)
    rw [Shape.optionalN, Value.refN, encode, he, Except.ok_bind, ih (by dsimp only; omega)]
    dsimp only
    rw [Nat.sub_sub, Nat.add_comm 1 n]

theorem encodeValue_optionalN_refN {c : Config} (v : Value) (hn : n ≤ c.maxDepth) :
    encodeValue c (b.optionalN n) (v.refN n) =
      (encodeValue { c with maxDepth := c.maxDepth - n } b v).mapError (.requote c.maxDepth) := by
  have hlimit : encode ⟨c.maxDepth, c.maxDepth - n⟩ b v =
      (encode (.upTo (c.maxDepth - n)) b v).mapError (.requote c.maxDepth) := by
    have h := encodesWithin b (.upTo (c.maxDepth - n)) ⟨c.maxDepth, c.maxDepth - n⟩ v (Nat.le_refl _)
    exact h.eq_mapError rfl
  rw [encodeValue, encodeValue, encode_optionalN_refN v hn]
  dsimp only [Depth.upTo] at hlimit ⊢
  rw [hlimit]
  cases encode ⟨c.maxDepth - n, c.maxDepth - n⟩ b v with
  | error e => rfl
  | ok bytes =>
    rw [Except.ok_mapError, Except.ok_bind]
    split <;> rfl

theorem le_left_of_encode_optionalN {v : Value} {bytes : Bytes}
    (h : encode d (b.optionalN n) (v.refN n) = .ok bytes) : n ≤ d.left := by
  induction n generalizing d with
  | zero => exact Nat.zero_le _
  | succ n ih =>
    rw [Shape.optionalN, Value.refN, encode] at h
    obtain ⟨e, he, h⟩ := Except.bind_eq_ok.mp h
    obtain ⟨-, hl⟩ := Depth.enter_eq_ok_iff.mp he
    have := ih h
    omega

theorem encodeValue_of_optionalN {c : Config} {v : Value} {bytes : Bytes}
    (h : encodeValue c (b.optionalN n) (v.refN n) = .ok bytes) : encodeValue c b v = .ok bytes := by
  obtain ⟨code, hcode, -⟩ := Except.bind_eq_ok.mp h
  rw [encodeValue_optionalN_refN v (le_left_of_encode_optionalN hcode), Except.mapError_eq_ok] at h
  exact (@limited_encodeValue { c with maxDepth := c.maxDepth - n } c (Nat.sub_le _ _) rfl b v).of_ok h

theorem encode_optionalN_nil (hb : b.layers = 0) (h1 : 1 ≤ k) (hk : k ≤ n) (hn : n - k ≤ d.left) :
    encode d (b.optionalN n) (Value.nil.refN (n - k)) = .ok (writeNil k) := by
  have hsplit : b.optionalN n = (b.optionalN k).optionalN (n - k) := by
    rw [Shape.optionalN_optionalN, Nat.add_sub_cancel' hk]
  rw [hsplit, encode_optionalN_refN .nil hn]
  obtain ⟨k, rfl⟩ := Nat.exists_eq_add_of_le' h1
  rw [Shape.optionalN, encode, Shape.layers_optionalN hb]

end Encoding

def canonicalNil (k : Nat) : Bytes :=
  if k = 1 then [0x40] else 0x50 :: writeInt (.ofNat 64 k)

theorem writeNil_eq_canonicalNil {k : Nat} (h : 1 ≤ k) : writeNil k = canonicalNil k := by
  rw [writeNil, canonicalNil]
  by_cases hk : k = 1
  · rw [if_pos hk, if_pos hk.le]
    rfl
  · rw [if_neg hk, if_neg (by omega)]
    rfl

/-- Under `n` reference layers, a nil unit of depth `k` leaves the outer `n - k` layers present and the next
one absent, and data that does not start a nil unit is that of the shape below. Layers that are present are
written as nothing. -/
theorem decodeValue_optionalN {b : Shape} (hb : ∀ inner, b ≠ .optional inner) {n : Nat} (hn : 1 ≤ n)
    (c : Config) :
    (∀ data, ¬ StartsNil data → n ≤ c.maxDepth →
      decodeValue c (b.optionalN n) data =
        ((decodeValue { c with maxDepth := c.maxDepth - n } b data).map fun r => (r.1.refN n, r.2)).mapError
          (.requote c.maxDepth)) ∧
    (∀ unit k rest, NilUnit unit k →
      (k ≤ n → n - k ≤ c.maxDepth →
        decodeValue c (b.optionalN n) (unit ++ rest) = .ok (Value.nil.refN (n - k), unit.length)) ∧
      (n < k → ∃ e, decodeValue c (b.optionalN n) (unit ++ rest) = .error e ∧ e.kind = .malformedData)) ∧
    (∀ data, NilCutShort data →
      ∃ e, decodeValue c (b.optionalN n) data = .error e ∧ e.kind = .malformedData ∧ e.isIncomplete) ∧
    (∀ data, BadNilDepth data →
      ∃ e, decodeValue c (b.optionalN n) data = .error e ∧ e.kind = .malformedData ∧ ¬ e.isIncomplete) ∧
    (∀ data, StartsNil data →
      (∃ unit k rest, NilUnit unit k ∧ data = unit ++ rest) ∨ NilCutShort data ∨ BadNilDepth data) ∧
    (∀ v, n ≤ c.maxDepth → encodeValue c (b.optionalN n) (v.refN n) =
      (encodeValue { c with maxDepth := c.maxDepth - n } b v).mapError (.requote c.maxDepth)) ∧
    (∀ v bytes, encodeValue c (b.optionalN n) (v.refN n) = .ok bytes → encodeValue c b v = .ok bytes) ∧
    ∀ k, 1 ≤ k → k ≤ n → n - k ≤ c.maxDepth → (canonicalNil k).length ≤ c.maxSize →
      encodeValue c (b.optionalN n) (Value.nil.refN (n - k)) = .ok (canonicalNil k) := by
  have hlayers : b.layers = 0 := by
    cases b with
    | optional inner => exact absurd rfl (hb inner)
    | _ => rfl
  refine ⟨?_, ?_, ?_, ?_, ?_, ?_, ?_, ?_⟩
  · intro data hdata hd
    exact decodeValue_optionalN_of_none (readNil_of_not_startsNil hdata) hd
  · intro unit k rest hu
    have hread := readNil_unit hu rest
    constructor
    · intro hk hd
      rw [decodeValue_eq, fresh_optionalN_of_some hlayers hread (one_le_of_nilUnit hu) hk hd, Except.ok_map,
        List.length_append, Nat.add_sub_cancel]
    · intro hk
      rw [decodeValue_eq, fresh_optionalN_of_past hlayers hn hread hk]
      exact ⟨_, rfl, rfl⟩
  · intro data hcut
    obtain ⟨step, he⟩ := readNil_cutShort hcut
    rw [decodeValue_eq, fresh_optionalN_of_error hn he]
    exact ⟨_, rfl, rfl, rfl⟩
  · intro data hbad
    obtain ⟨e, he, hk, hi⟩ := readNil_badDepth hbad
    rw [decodeValue_eq, fresh_optionalN_of_error hn he]
    exact ⟨e, rfl, hk, hi⟩
  · exact fun data => startsNil_cases
  · exact encodeValue_optionalN_refN
  · exact fun v bytes => encodeValue_of_optionalN
  · intro k h1 hk hd hl
    rw [encodeValue, encode_optionalN_nil hlayers h1 hk hd, writeNil_eq_canonicalNil h1, Except.ok_bind,
      if_neg (Nat.not_lt.mpr hl)]

theorem decodeValue_optionalN_blob :
    let s : Shape := .optional (.optional .blob)
    decodeValue {} s [1, 1, 7] = .ok (.ref (.ref (.blob (some [7]))), 3) ∧
      decodeValue {} s [0x60, 0x20, 9, 1] = .ok (.ref .nil, 3) ∧
      decodeValue {} s [0x50, 1, 2] = .ok (.nil, 3) ∧
      (∃ e, decodeValue {} s [0x50, 1, 3] = .error e ∧ e.kind = .malformedData) ∧
      (∃ e, decodeValue {} s [0x70, 0x20] = .error e ∧ e.kind = .malformedData ∧ e.isIncomplete) ∧
      (∃ e, decodeValue {} s [0x50, 2, 1] = .error e ∧ e.kind = .malformedData ∧ e.isIncomplete) ∧
      (∃ e, decodeValue {} s [0x50, 0] = .error e ∧ e.kind = .malformedData ∧ ¬ e.isIncomplete) ∧
      ((∃ unit k rest, NilUnit unit k ∧ [0x40] = unit ++ rest) ∨ NilCutShort [0x40] ∨ BadNilDepth [0x40]) ∧
      encodeValue {} s (.ref (.ref .nil)) = .ok [0x80] ∧ encodeValue {} .blob .nil = .ok [0x80] ∧
      encodeValue {} s (.ref .nil) = .ok [0x40] := by
  intro s
  have hflag : NilHeader true [0x50] :=
    ⟨⟨_, rfl, by decide, by decide⟩, .last (by decide), fun b hb => by cases hb; rfl⟩
  have hchain : NilHeader false [0x60, 0x20, 9] :=
    ⟨⟨_, rfl, by decide, by decide⟩, .more (by decide) (.more (by decide) (.last (by decide))),
      fun b hb => by cases hb; rfl⟩
  have htwo : NilUnit ([0x50] ++ [1, 2]) 2 :=
    .stack hflag (show readInt [1, 2] = .ok (2, []) from rfl) rfl (by decide)
  have hthree : NilUnit ([0x50] ++ [1, 3]) 3 :=
    .stack hflag (show readInt [1, 3] = .ok (3, []) from rfl) rfl (by decide)
  obtain ⟨below, units, cutShort, badDepth, starts, present, bytes, absent⟩ :=
    @decodeValue_optionalN .blob (fun inner h => by cases h) 2 (by decide) {}
  have hpresent := (present .nil (by decide)).trans (show _ = .ok [0x80] from rfl)
  refine ⟨below [1, 1, 7] ?_ (by decide), (units _ 1 [1] (.single hchain)).1 (by decide) (by decide),
    (units _ 2 [] htwo).1 (by decide) (by decide), (units _ 3 [] hthree).2 (by decide),
    cutShort _ (.chain ⟨_, rfl, by decide, by decide⟩ ?_),
    cutShort _ (.depth hflag (.magnitude (rfl : InfoByte.ofByte 2 = .int false 2) (by decide))),
    badDepth _ (.intro hflag (not_intCutShort_of_readInt (show readInt [0] = .ok (0, []) from rfl)) ?_),
    starts _ ⟨_, rfl, by decide, by decide⟩, hpresent, bytes _ _ hpresent,
    absent 1 (by decide) (by decide) (by decide) (by decide)⟩
  · rintro ⟨b, hb, h, -⟩
    cases hb
    exact h rfl
  · rw [List.forall_mem_cons, List.forall_mem_singleton]
    exact ⟨by decide, by decide⟩
  · intro bits after h
    cases h
    decide

end ShapeCodec
