import ShapeCodec.Text.Utf8
import ShapeCodec.Proofs.Outcome
import Mathlib.Tactic.SplitIfs

namespace ShapeCodec.Text

open String (utf8EncodeChar)

namespace Utf8

def leadOf (n : Nat) : Option Lead :=
  if n < 0x80 then some ⟨n, 0, 0x80, 0xbf⟩
  else if n < 0xc2 then none
  else if n < 0xe0 then some ⟨n - 0xc0, 1, 0x80, 0xbf⟩
  else if n < 0xf0 then
    some ⟨n - 0xe0, 2, if n = 0xe0 then 0xa0 else 0x80, if n = 0xed then 0x9f else 0xbf⟩
  else if n < 0xf5 then
    some ⟨n - 0xf0, 3, if n = 0xf0 then 0x90 else 0x80, if n = 0xf4 then 0x8f else 0xbf⟩
  else none

theorem lead?_eq_leadOf (b : UInt8) : lead? b = leadOf b.toNat := by
  unfold lead? leadOf
  simp only [UInt8.lt_iff_toNat_lt, ← UInt8.toNat_inj, UInt8.reduceToNat]
  split_ifs <;> first | omega | simp_all

theorem lead?_ofNat {n : Nat} (h : n < 256) : lead? (.ofNat n) = leadOf n := by
  rw [lead?_eq_leadOf, UInt8.toNat_ofNat', Nat.mod_eq_of_lt h]

@[simp] theorem follow_zero (low high : UInt8) (code k : Nat) (bs : Bytes) :
    follow 0 low high code k bs = .ok (code, bs) := rfl

theorem follow_ofNat {low high : UInt8} {d : Nat} (hd : d < 64) (hl : low.toNat ≤ d + 0x80)
    (hh : d + 0x80 ≤ high.toNat) (n code k : Nat) (bs : Bytes) :
    follow (n + 1) low high code k (.ofNat (d + 0x80) :: bs) =
      follow n 0x80 0xbf (code * 64 + d) (k + 1) bs := by
  have hb : (UInt8.ofNat (d + 0x80)).toNat = d + 0x80 := by rw [UInt8.toNat_ofNat']; omega
  simp only [follow, UInt8.le_iff_toNat_le, hb, hl, hh, and_self, if_true, Nat.add_sub_cancel]

theorem follow_succ_eq_ok {low high : UInt8} (hl : 0x80 ≤ low) (hh : high ≤ 0xbf) {n code k v : Nat}
    {bs rest : Bytes} (h : follow (n + 1) low high code k bs = .ok (v, rest)) :
    ∃ d, d < 64 ∧ low.toNat ≤ d + 0x80 ∧ d + 0x80 ≤ high.toNat ∧
      ∃ tail, bs = .ofNat (d + 0x80) :: tail ∧
        follow n 0x80 0xbf (code * 64 + d) (k + 1) tail = .ok (v, rest) := by
  simp only [UInt8.le_iff_toNat_le, UInt8.reduceToNat] at hl hh
  cases bs with
  | nil => simp [follow] at h
  | cons b tail =>
    by_cases hb : low ≤ b ∧ b ≤ high
    · simp only [follow, hb, and_self, if_true] at h
      simp only [UInt8.le_iff_toNat_le] at hb
      have he : b.toNat - 0x80 + 0x80 = b.toNat := by omega
      refine ⟨b.toNat - 0x80, by omega, by omega, by omega, tail, ?_, h⟩
      rw [he, UInt8.ofNat_toNat]
    · simp [follow, hb] at h

theorem toNat_valid (c : Char) :
    c.toNat < 0xd800 ∨ 0xdfff < c.toNat ∧ c.toNat < 0x110000 := c.valid

theorem toNat_ofNat_of_valid {n : Nat} (h : n < 0xd800 ∨ 0xdfff < n ∧ n < 0x110000) :
    (Char.ofNat n).val.toNat = n := by
  rw [Char.ofNat, dif_pos h]
  rfl

theorem next_utf8EncodeChar (c : Char) (rest : Bytes) :
    next (utf8EncodeChar c ++ rest) = .ok (c, rest) := by
  have hc := toNat_valid c
  have he : c.val.toNat = c.toNat := rfl
  have hok (n : Nat) (h : n = c.toNat) : Char.ofNat n = c := by rw [h, Char.ofNat_toNat]
  unfold utf8EncodeChar
  simp only [he]
  split_ifs with h1 h2 h3
  · simp only [List.cons_append, List.nil_append, next]
    rw [lead?_ofNat (by omega), leadOf, if_pos (by omega)]
    simp only [follow_zero, Except.ok_map, Char.ofNat_toNat]
  · simp only [List.cons_append, List.nil_append, next]
    rw [lead?_ofNat (by omega), leadOf, if_neg (by omega), if_neg (by omega), if_pos (by omega)]
    dsimp only
    rw [follow_ofNat (by omega) (by simp) (by simp; omega)]
    rw [follow_zero, Except.ok_map, hok _ (by omega)]
  · simp only [List.cons_append, List.nil_append, next]
    rw [lead?_ofNat (by omega), leadOf, if_neg (by omega), if_neg (by omega), if_neg (by omega),
      if_pos (by omega)]
    dsimp only
    rw [follow_ofNat (by omega) (by split_ifs <;> simp; omega) (by split_ifs <;> simp <;> omega)]
    rw [follow_ofNat (by omega) (by simp) (by simp; omega)]
    rw [follow_zero, Except.ok_map, hok _ (by omega)]
  · simp only [List.cons_append, List.nil_append, next]
    rw [lead?_ofNat (by omega), leadOf, if_neg (by omega), if_neg (by omega), if_neg (by omega),
      if_neg (by omega), if_pos (by omega)]
    dsimp only
    rw [follow_ofNat (by omega) (by split_ifs <;> simp; omega) (by split_ifs <;> simp <;> omega)]
    rw [follow_ofNat (by omega) (by simp) (by simp; omega)]
    rw [follow_ofNat (by omega) (by simp) (by simp; omega)]
    rw [follow_zero, Except.ok_map, hok _ (by omega)]

section Encoded

variable {m d d' d'' : Nat} (hd : d < 64) (hd' : d' < 64) (hd'' : d'' < 64)

include hd in
theorem utf8EncodeChar_two (hlow : 2 ≤ m) (hhigh : m < 32) :
    utf8EncodeChar (.ofNat (m * 64 + d)) = [.ofNat (m + 0xc0), .ofNat (d + 0x80)] := by
  rw [utf8EncodeChar, toNat_ofNat_of_valid (by omega), if_neg (by omega), if_pos (by omega)]
  congr 2 <;> congr 1 <;> omega

include hd hd' in
theorem utf8EncodeChar_three (hm : m < 16) (hlow : m = 0 → 32 ≤ d) (hhigh : m = 13 → d < 32) :
    utf8EncodeChar (.ofNat ((m * 64 + d) * 64 + d')) =
      [.ofNat (m + 0xe0), .ofNat (d + 0x80), .ofNat (d' + 0x80)] := by
  rw [utf8EncodeChar, toNat_ofNat_of_valid (by omega), if_neg (by omega), if_neg (by omega),
    if_pos (by omega)]
  congr 2
  · omega
  congr 2
  · omega
  congr 2
  omega

include hd hd' hd'' in
theorem utf8EncodeChar_four (hm : m < 5) (hlow : m = 0 → 16 ≤ d) (hhigh : m = 4 → d < 16) :
    utf8EncodeChar (.ofNat (((m * 64 + d) * 64 + d') * 64 + d'')) =
      [.ofNat (m + 0xf0), .ofNat (d + 0x80), .ofNat (d' + 0x80), .ofNat (d'' + 0x80)] := by
  rw [utf8EncodeChar, toNat_ofNat_of_valid (by omega), if_neg (by omega), if_neg (by omega),
    if_neg (by omega)]
  congr 2
  · omega
  congr 2
  · omega
  congr 2
  · omega
  congr 2
  omega

end Encoded

theorem eq_append_of_next {bs rest : Bytes} {c : Char} (h : next bs = .ok (c, rest)) :
    bs = utf8EncodeChar c ++ rest := by
  cases bs with
  | nil => simp [next] at h
  | cons b bs =>
    obtain ⟨n, hn, rfl⟩ : ∃ n < 256, b = .ofNat n := ⟨b.toNat, b.toNat_lt, by simp⟩
    simp only [next, lead?_ofNat hn, leadOf] at h
    by_cases h1 : n < 0x80
    · rw [if_pos h1] at h
      dsimp only at h
      cases h
      rw [utf8EncodeChar, toNat_ofNat_of_valid (by omega), if_pos (by omega)]
      rfl
    rw [if_neg h1] at h
    by_cases h2 : n < 0xc2
    · rw [if_pos h2] at h
      cases h
    rw [if_neg h2] at h
    by_cases h3 : n < 0xe0
    · rw [if_pos h3] at h
      dsimp only at h
      obtain ⟨⟨v, tail⟩, hf, hc⟩ := Except.map_eq_ok.mp h
      obtain ⟨d, hd, -, -, ds, rfl, hv⟩ := follow_succ_eq_ok (by simp) (by simp) hf
      cases hc
      cases hv
      rw [utf8EncodeChar_two hd (by omega) (by omega), Nat.sub_add_cancel (by omega)]
      rfl
    rw [if_neg h3] at h
    by_cases h4 : n < 0xf0
    · rw [if_pos h4] at h
      dsimp only at h
      obtain ⟨⟨v, tail⟩, hf, hc⟩ := Except.map_eq_ok.mp h
      obtain ⟨d, hd, hl, hh, ds, rfl, hf'⟩ :=
        follow_succ_eq_ok (by split_ifs <;> simp) (by split_ifs <;> simp) hf
      obtain ⟨d', hd', -, -, ds', rfl, hv⟩ := follow_succ_eq_ok (by simp) (by simp) hf'
      cases hc
      cases hv
      have hlow : n = 0xe0 → 32 ≤ d := by intro hn; simp [hn] at hl; omega
      have hhigh : n = 0xed → d < 32 := by intro hn; simp [hn] at hh; omega
      rw [utf8EncodeChar_three hd hd' (by omega) (by omega) (by omega), Nat.sub_add_cancel (by omega)]
      rfl
    rw [if_neg h4] at h
    by_cases h5 : n < 0xf5
    · rw [if_pos h5] at h
      dsimp only at h
      obtain ⟨⟨v, tail⟩, hf, hc⟩ := Except.map_eq_ok.mp h
      obtain ⟨d, hd, hl, hh, ds, rfl, hf'⟩ :=
        follow_succ_eq_ok (by split_ifs <;> simp) (by split_ifs <;> simp) hf
      obtain ⟨d', hd', -, -, ds', rfl, hf''⟩ := follow_succ_eq_ok (by simp) (by simp) hf'
      obtain ⟨d'', hd'', -, -, ds'', rfl, hv⟩ := follow_succ_eq_ok (by simp) (by simp) hf''
      cases hc
      cases hv
      have hlow : n = 0xf0 → 16 ≤ d := by intro hn; simp [hn] at hl; omega
      have hhigh : n = 0xf4 → d < 16 := by intro hn; simp [hn] at hh; omega
      rw [utf8EncodeChar_four hd hd' hd'' (by omega) (by omega) (by omega), Nat.sub_add_cancel (by omega)]
      rfl
    · rw [if_neg h5] at h
      cases h

theorem chars_flatMap (cs : List Char) (fuel index : Nat)
    (h : (cs.flatMap utf8EncodeChar).length ≤ fuel) :
    chars fuel index (cs.flatMap utf8EncodeChar) = .ok cs := by
  induction cs generalizing fuel index with
  | nil => rw [List.flatMap_nil, chars]
  | cons c cs ih =>
    have hp := c.utf8Size_pos
    have hn := next_utf8EncodeChar c (cs.flatMap utf8EncodeChar)
    rw [List.flatMap_cons, List.length_append, String.length_utf8EncodeChar] at h
    rw [List.flatMap_cons]
    cases hb : utf8EncodeChar c ++ cs.flatMap utf8EncodeChar with
    | nil => simp [String.utf8EncodeChar_ne_nil] at hb
    | cons b bs =>
      cases fuel with
      | zero => omega
      | succ fuel =>
        rw [hb] at hn
        rw [chars, hn]
        dsimp only
        rw [ih _ _ (by omega)]
        rfl

theorem eq_flatMap_of_chars {fuel index : Nat} {bs : Bytes} {cs : List Char}
    (hf : bs.length ≤ fuel) (h : chars fuel index bs = .ok cs) :
    bs = cs.flatMap utf8EncodeChar := by
  induction fuel generalizing index bs cs with
  | zero =>
    obtain rfl : bs = [] := List.eq_nil_of_length_eq_zero (by omega)
    rw [chars] at h
    cases h
    rfl
  | succ fuel ih =>
    cases bs with
    | nil =>
      rw [chars] at h
      cases h
      rfl
    | cons b bs =>
      rw [chars] at h
      cases hn : next (b :: bs) with
      | error e => rw [hn] at h; cases h
      | ok r =>
        obtain ⟨c, rest⟩ := r
        rw [hn] at h
        obtain ⟨ds, hd, rfl⟩ := Except.map_eq_ok.mp h
        have he := eq_append_of_next hn
        have hl := congrArg List.length he
        have hp := c.utf8Size_pos
        rw [List.length_append, String.length_utf8EncodeChar] at hl
        rw [he, List.flatMap_cons, ← ih (by omega) hd]

theorem decode_utf8 (s : String) : decode (utf8 s) = .ok s := by
  rw [decode, utf8, chars_flatMap _ _ _ (Nat.le_refl _), Except.ok_map, String.ofList_toList]

theorem utf8_of_decode {bs : Bytes} {s : String} (h : decode bs = .ok s) : utf8 s = bs := by
  obtain ⟨cs, hc, rfl⟩ := Except.map_eq_ok.mp h
  rw [utf8, String.toList_ofList, eq_flatMap_of_chars (Nat.le_refl _) hc]

end Utf8

theorem utf8_inj {s t : String} : utf8 s = utf8 t ↔ s = t := by
  refine ⟨fun h => ?_, congrArg utf8⟩
  have hs := Utf8.decode_utf8 s
  rw [h, Utf8.decode_utf8] at hs
  cases hs
  rfl

end ShapeCodec.Text
