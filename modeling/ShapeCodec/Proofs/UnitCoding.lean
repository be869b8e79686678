import ShapeCodec.Wire.Payload
import ShapeCodec.Proofs.IntegerCoding
import ShapeCodec.Proofs.TextCoding

namespace ShapeCodec.Wire

theorem readInt_writeInt_ofNat {n : Nat} (h : n < 2 ^ 63) (rest : Bytes) :
    (BitVec.ofNat 64 n).toInt = n ∧
      readInt (writeInt (BitVec.ofNat 64 n) ++ rest) = .ok (BitVec.ofNat 64 n, rest) := by
  refine ⟨?_, readInt_writeInt _ rest⟩
  rw [BitVec.toInt_eq_msb_cond, msb_ofNat_of_lt h, toNat_ofNat_of_lt h]
  rfl

theorem ofNat_toNat_of_toInt (bits : BitVec 64) (h : 0 ≤ bits.toInt) :
    bits.toNat < 2 ^ 63 ∧ BitVec.ofNat 64 bits.toNat = bits := by
  refine ⟨?_, by simp⟩
  rw [BitVec.toInt_eq_toNat_cond] at h
  have := bits.isLt
  split at h <;> omega

theorem readBool_eq_ok {input rest : Bytes} {b : Bool} (h : readBool input = .ok (b, rest)) :
    ∃ used, input = used ++ rest ∧ (writeBool b).length ≤ used.length := by
  cases input with
  | nil => cases h
  | cons x input =>
    rw [readBool] at h
    split at h
    · cases h
      exact ⟨[x], rfl, Nat.le_refl _⟩
    · split at h
      · cases h
        exact ⟨[x], rfl, Nat.le_refl _⟩
      · cases h

section Lengths

theorem readLength_writeLength_none (step : Step) (rest : Bytes) :
    readLength step (writeLength none ++ rest) = .ok (none, rest) := by
  rw [readLength, writeLength, readInt_writeInt]
  rfl

theorem readLength_writeLength_some {n : Nat} (h : n < 2 ^ 63) (step : Step) (rest : Bytes) :
    readLength step (writeLength (some n) ++ rest) = .ok (some n, rest) := by
  obtain ⟨hi, hr⟩ := readInt_writeInt_ofNat h rest
  rw [readLength, writeLength, hr]
  simp only [Except.ok_bind, hi, toNat_ofNat_of_lt h]
  rw [if_neg (by omega), if_neg (by omega)]

theorem readLength_eq_ok {step : Step} {input rest : Bytes} {n : Option Nat}
    (h : readLength step input = .ok (n, rest)) :
    (∀ k, n = some k → k < 2 ^ 63) ∧
      ∃ used, input = used ++ rest ∧ (writeLength n).length ≤ used.length := by
  rw [readLength] at h
  obtain ⟨⟨bits, after⟩, hr, hn⟩ := Except.bind_eq_ok.mp h
  obtain ⟨used, rfl, hu⟩ := readInt_eq_ok hr
  dsimp only at hn
  split at hn
  · next hb =>
    cases hn
    refine ⟨nofun, used, rfl, ?_⟩
    have he : BitVec.ofInt 64 (-1) = bits := by rw [← hb, BitVec.ofInt_toInt]
    rwa [writeLength, he]
  · split at hn
    · cases hn
    · next hb =>
      cases hn
      obtain ⟨hl, he⟩ := ofNat_toNat_of_toInt bits (by omega)
      exact ⟨fun k hk => by cases hk; exact hl, used, rfl, by rwa [writeLength, he]⟩

theorem writeLength_mono {m n : Nat} (hm : m ≤ n) (hn : n < 2 ^ 63) :
    (writeLength (some m)).length ≤ (writeLength (some n)).length :=
  length_writeInt_ofNat_mono hm hn

theorem writeLength_add {m n : Nat} (h : m + n < 2 ^ 63) :
    (writeLength (some (m + n))).length ≤
      (writeLength (some m)).length + (writeLength (some n)).length :=
  length_writeInt_ofNat_add h

end Lengths

section Strings

theorem writeStr_append_ne_nil (s : String) (rest : Bytes) : writeStr s ++ rest ≠ [] :=
  List.append_ne_nil_of_left_ne_nil (List.cons_ne_nil _ _) rest

theorem readStr_writeStr {s : String} (h : (Text.utf8 s).length < 2 ^ 63) (rest : Bytes) :
    readStr (writeStr s ++ rest) = .ok (s, rest) := by
  rw [readStr, writeStr, writeCounted, List.append_assoc, readLength_writeLength_some h]
  simp only [Except.ok_bind, take_append, Text.Utf8.decode_utf8]

theorem readStr_eq_ok {input rest : Bytes} {s : String} (h : readStr input = .ok (s, rest)) :
    (Text.utf8 s).length < 2 ^ 63 ∧
      ∃ used, input = used ++ rest ∧ (writeStr s).length ≤ used.length := by
  rw [readStr] at h
  obtain ⟨⟨n, after⟩, hr, hc⟩ := Except.bind_eq_ok.mp h
  obtain ⟨hn, used, rfl, hu⟩ := readLength_eq_ok hr
  cases n with
  | none => cases hc
  | some n =>
    obtain ⟨⟨content, tail⟩, ht, hs⟩ := Except.bind_eq_ok.mp hc
    obtain ⟨rfl, hl⟩ := take_eq_ok ht
    dsimp only at hs
    cases hd : Text.Utf8.decode content with
    | error fault => rw [hd] at hs; cases hs
    | ok t =>
      rw [hd] at hs
      cases hs
      have he := Text.Utf8.utf8_of_decode hd
      rw [he, hl]
      refine ⟨hn n rfl, used ++ content, by rw [List.append_assoc], ?_⟩
      rw [writeStr, writeCounted, he, hl, List.length_append, List.length_append]
      omega

theorem readBlob_writeCounted {content : Option Bytes} (h : ∀ c, content = some c → c.length < 2 ^ 63)
    (rest : Bytes) : readBlob (writeCounted content ++ rest) = .ok (content, rest) := by
  cases content with
  | none =>
    rw [readBlob, writeCounted, readLength_writeLength_none]
    rfl
  | some c =>
    rw [readBlob, writeCounted, List.append_assoc, readLength_writeLength_some (h c rfl)]
    simp only [Except.ok_bind, take_append]

theorem readBlob_eq_ok {input rest : Bytes} {content : Option Bytes}
    (h : readBlob input = .ok (content, rest)) :
    (∀ c, content = some c → c.length < 2 ^ 63) ∧
      ∃ used, input = used ++ rest ∧ (writeCounted content).length ≤ used.length := by
  rw [readBlob] at h
  obtain ⟨⟨n, after⟩, hr, hc⟩ := Except.bind_eq_ok.mp h
  obtain ⟨hn, used, rfl, hu⟩ := readLength_eq_ok hr
  cases n with
  | none =>
    cases hc
    exact ⟨nofun, used, rfl, hu⟩
  | some n =>
    obtain ⟨⟨c, tail⟩, ht, hs⟩ := Except.bind_eq_ok.mp hc
    obtain ⟨rfl, rfl⟩ := take_eq_ok ht
    cases hs
    refine ⟨fun c hc => by cases hc; exact hn _ rfl, used ++ c, by rw [List.append_assoc], ?_⟩
    rw [writeCounted, List.length_append, List.length_append]
    omega

end Strings

section Nil

theorem readNil_writeInt (bits : BitVec 64) (rest : Bytes) :
    readNil (writeInt bits ++ rest) = .ok none := by
  rw [writeInt_eq, List.cons_append, readNil,
    InfoByte.ofByte_toByte_int (length_magnitude_le bits)]

theorem readNil_writeCounted (content : Option Bytes) (rest : Bytes) :
    readNil (writeCounted content ++ rest) = .ok none := by
  cases content with
  | none => exact readNil_writeInt _ rest
  | some c => rw [writeCounted, List.append_assoc]; exact readNil_writeInt _ _

theorem readAbsent_writeCounted (content : Option Bytes) (rest : Bytes) :
    readAbsent (writeCounted content ++ rest) = .ok none := by
  rw [readAbsent, readNil_writeCounted]
  rfl

@[simp] theorem skipExtensions_false (input : Bytes) : skipExtensions false input = .ok input := by
  cases input <;> rfl

theorem readNil_writeNil {k : Nat} (h1 : 1 ≤ k) (hk : k < 2 ^ 63) (rest : Bytes) :
    readNil (writeNil k ++ rest) = .ok (some (k, rest)) := by
  by_cases h : k ≤ 1
  · obtain rfl : k = 1 := by omega
    rw [writeNil, if_pos h, List.cons_append, readNil,
      show InfoByte.ofByte (InfoByte.nil false false).toByte = .nil false false from rfl]
    dsimp only
    rw [skipExtensions_false, Except.ok_bind, if_neg nofun, List.nil_append]
  · obtain ⟨hi, hr⟩ := readInt_writeInt_ofNat hk rest
    rw [writeNil, if_neg h, List.cons_append, readNil,
      show InfoByte.ofByte (InfoByte.nil false true).toByte = .nil false true from rfl]
    simp only [skipExtensions_false, Except.ok_bind, if_true, readDepth, hr, hi, toNat_ofNat_of_lt hk]
    rw [if_neg (by omega), Except.ok_map]

theorem skipExtensions_eq_ok {extended : Bool} {input rest : Bytes}
    (h : skipExtensions extended input = .ok rest) : ∃ used, input = used ++ rest := by
  induction input generalizing extended with
  | nil =>
    cases extended with
    | false => cases h; exact ⟨[], rfl⟩
    | true => cases h
  | cons b input ih =>
    cases extended with
    | false => cases h; exact ⟨[], rfl⟩
    | true =>
      obtain ⟨used, rfl⟩ := ih h
      exact ⟨b :: used, rfl⟩

theorem readDepth_eq_ok {input rest : Bytes} {k : Nat} (h : readDepth input = .ok (k, rest)) :
    1 ≤ k ∧ k < 2 ^ 63 ∧
      ∃ used, input = used ++ rest ∧ (writeInt (BitVec.ofNat 64 k)).length ≤ used.length := by
  rw [readDepth] at h
  cases hr : readInt input with
  | error e => rw [hr] at h; cases h
  | ok r =>
    obtain ⟨bits, after⟩ := r
    obtain ⟨used, rfl, hu⟩ := readInt_eq_ok hr
    rw [hr] at h
    dsimp only at h
    split at h
    · cases h
    · next hb =>
      cases h
      obtain ⟨hl, he⟩ := ofNat_toNat_of_toInt bits (by omega)
      have hi := (readInt_writeInt_ofNat hl []).1
      rw [he] at hi
      exact ⟨by omega, hl, used, rfl, by rwa [he]⟩

theorem readNil_eq_ok {input rest : Bytes} {k : Nat} (h : readNil input = .ok (some (k, rest))) :
    1 ≤ k ∧ k < 2 ^ 63 ∧ ∃ used, input = used ++ rest ∧ (writeNil k).length ≤ used.length := by
  cases input with
  | nil => cases h
  | cons b input =>
    rw [readNil] at h
    cases hb : InfoByte.ofByte b with
    | int negative length => rw [hb] at h; cases h
    | reserved b => rw [hb] at h; cases h
    | nil extended indirect =>
      rw [hb] at h
      obtain ⟨after, hs, hd⟩ := Except.bind_eq_ok.mp h
      obtain ⟨skipped, rfl⟩ := skipExtensions_eq_ok hs
      cases indirect with
      | false =>
        cases hd
        exact ⟨Nat.le_refl _, by decide, b :: skipped, rfl, by simp [writeNil]⟩
      | true =>
        obtain ⟨⟨n, tail⟩, hr, hn⟩ := Except.map_eq_ok.mp hd
        cases hn
        obtain ⟨h1, hk, used, rfl, hu⟩ := readDepth_eq_ok hr
        refine ⟨h1, hk, b :: (skipped ++ used), by simp, ?_⟩
        rw [writeNil]
        split <;> simp only [List.length_cons, List.length_nil, List.length_append] <;> omega

theorem readAbsent_eq_ok {input rest : Bytes} (h : readAbsent input = .ok (some rest)) :
    ∃ used, input = used ++ rest ∧ 1 ≤ used.length := by
  rw [readAbsent] at h
  obtain ⟨r, hr, hn⟩ := Except.bind_eq_ok.mp h
  split at hn
  · cases hn
  · cases hn
    obtain ⟨-, -, used, rfl, hu⟩ := readNil_eq_ok hr
    exact ⟨used, rfl, hu⟩
  · cases hn

end Nil

section Payloads

theorem openPayload_writeCounted_none (of : Composite) (rest : Bytes) :
    openPayload of (writeCounted none ++ rest) = .ok (none, rest) := by
  rw [openPayload, readAbsent_writeCounted, Except.ok_bind]
  dsimp only
  rw [writeCounted, readLength_writeLength_none]
  rfl

theorem openPayload_writeCounted_some {payload : Bytes} (h : payload.length < 2 ^ 63) (of : Composite)
    (rest : Bytes) : openPayload of (writeCounted (some payload) ++ rest) =
      .ok (some ⟨(writeLength (some payload.length)).length, payload⟩, rest) := by
  rw [openPayload, readAbsent_writeCounted, Except.ok_bind]
  dsimp only
  rw [writeCounted, List.append_assoc, readLength_writeLength_some h]
  simp only [Except.ok_bind, take_append, List.length_append, Nat.add_sub_cancel]

theorem openPayload_eq_ok_none {of : Composite} {input rest : Bytes}
    (h : openPayload of input = .ok (none, rest)) : ∃ used, input = used ++ rest ∧ 1 ≤ used.length := by
  rw [openPayload] at h
  obtain ⟨r, ha, hl⟩ := Except.bind_eq_ok.mp h
  cases r with
  | some after =>
    cases hl
    exact readAbsent_eq_ok ha
  | none =>
    obtain ⟨⟨n, after⟩, hr, hn⟩ := Except.bind_eq_ok.mp hl
    obtain ⟨-, used, rfl, hu⟩ := readLength_eq_ok hr
    cases n with
    | none =>
      cases hn
      exact ⟨used, rfl, Nat.le_trans (by simp [writeLength, writeInt_eq]) hu⟩
    | some n =>
      obtain ⟨_, -, ho⟩ := Except.bind_eq_ok.mp hn
      cases ho

theorem openPayload_eq_ok_some {of : Composite} {input rest : Bytes} {p : Payload}
    (h : openPayload of input = .ok (some p, rest)) :
    p.bytes.length < 2 ^ 63 ∧ ∃ used, input = used ++ p.bytes ++ rest ∧ used.length = p.header ∧
      (writeLength (some p.bytes.length)).length ≤ used.length := by
  rw [openPayload] at h
  obtain ⟨r, -, hl⟩ := Except.bind_eq_ok.mp h
  cases r with
  | some after => cases hl
  | none =>
    obtain ⟨⟨n, after⟩, hr, hp⟩ := Except.bind_eq_ok.mp hl
    obtain ⟨hn, used, rfl, hu⟩ := readLength_eq_ok hr
    cases n with
    | none => cases hp
    | some n =>
      obtain ⟨⟨bytes, tail⟩, ht, ho⟩ := Except.bind_eq_ok.mp hp
      obtain ⟨rfl, rfl⟩ := take_eq_ok ht
      cases ho
      refine ⟨hn _ rfl, used, by rw [List.append_assoc], ?_, hu⟩
      simp

end Payloads

end ShapeCodec.Wire
