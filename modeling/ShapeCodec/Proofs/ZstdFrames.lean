import ShapeCodec.Frame.Zstd
import ShapeCodec.Proofs.Blocks
import Mathlib.Data.Nat.Bitwise

namespace ShapeCodec.Frame

namespace Descriptor

variable (d : UInt8)

theorem hasChecksumOrDictionary_eq : hasChecksumOrDictionary d = decide (d.toNat % 8 ≠ 0) := by
  have hlow : (d &&& 7).toNat = d.toNat % 8 := by
    rw [UInt8.toNat_and]
    exact Nat.and_two_pow_sub_one_eq_mod d.toNat 3
  rw [hasChecksumOrDictionary, Bool.eq_iff_iff, bne_iff_ne, decide_eq_true_iff, ne_eq, ne_eq,
    ← UInt8.toNat_inj, hlow]
  rfl

theorem and_two_pow_ne_zero {bit : UInt8} (i : Nat) (hb : bit.toNat = 2 ^ i) :
    (d &&& bit != 0) = decide (d.toNat / 2 ^ i % 2 = 1) := by
  have hbit : (d &&& bit).toNat = (d.toNat.testBit i).toNat * 2 ^ i := by
    rw [UInt8.toNat_and, hb]
    exact Nat.and_two_pow d.toNat i
  rw [← Nat.testBit_eq_decide_div_mod_eq, Bool.eq_iff_iff, bne_iff_ne, ne_eq, ← UInt8.toNat_inj, hbit]
  cases d.toNat.testBit i <;> simp

theorem singleSegment_eq : singleSegment d = decide (d.toNat / 32 % 2 = 1) :=
  and_two_pow_ne_zero d 5 rfl

theorem isReserved_eq : isReserved d = decide (d.toNat / 8 % 2 = 1) :=
  and_two_pow_ne_zero d 3 rfl

theorem sizeStart_eq_succ : sizeStart d = (if d.toNat / 32 % 2 = 1 then 0 else 1) + 1 := by
  rw [sizeStart, singleSegment_eq]
  by_cases hs : d.toNat / 32 % 2 = 1 <;> simp [hs]

theorem flag_eq : (d >>> 6).toNat = d.toNat / 64 := by
  rw [UInt8.toNat_shiftRight]
  exact Nat.shiftRight_eq_div_pow d.toNat 6

end Descriptor

namespace Zstd

/-- How a header of a single segment or another may hold the size of the content: the number in the top two
bits of the descriptor, and the bytes of the size. -/
inductive SizeField (n : Nat) : Bool → Nat → Bytes → Prop
  | one : n < 256 → SizeField n true 0 (littleEndian 1 n)
  | two (single : Bool) : 256 ≤ n → n < 256 + 2 ^ 16 → SizeField n single 1 (littleEndian 2 (n - 256))
  | four (single : Bool) : n < 2 ^ 32 → SizeField n single 2 (littleEndian 4 n)
  | eight (single : Bool) : n < 2 ^ 64 → SizeField n single 3 (littleEndian 8 n)

inductive HeaderOf (n : Nat) : Bytes → Prop
  | mk {d : UInt8} {window field : Bytes} : d.toNat % 8 = 0 →
      window.length = (if d.toNat / 32 % 2 = 1 then 0 else 1) →
      SizeField n (decide (d.toNat / 32 % 2 = 1)) (d.toNat / 64) field → HeaderOf n (d :: (window ++ field))

def Declares (n : Nat) (frame : Bytes) : Prop :=
  ∃ header blocks, frame = header ++ blocks ∧ HeaderOf n header

theorem SizeField.read {n : Nat} {d : UInt8} {field : Bytes}
    (h : SizeField n (decide (d.toNat / 32 % 2 = 1)) (d.toNat / 64) field) :
    Descriptor.sizeLength d = field.length ∧ 0 < field.length ∧
      littleEndianValue field + (if field.length = 2 then 256 else 0) = n := by
  rw [Descriptor.sizeLength, Descriptor.flag_eq, Descriptor.singleSegment_eq]
  generalize decide (d.toNat / 32 % 2 = 1) = single at h ⊢
  generalize d.toNat / 64 = flag at h ⊢
  cases h with
  | one hn =>
    refine ⟨rfl, Nat.succ_pos _, ?_⟩
    rw [littleEndianValue_littleEndian, Nat.mod_eq_of_lt hn]
    rfl
  | two _ hl hn =>
    refine ⟨rfl, Nat.succ_pos _, ?_⟩
    rw [littleEndianValue_littleEndian, Nat.mod_eq_of_lt (by omega), length_littleEndian, if_pos rfl]
    omega
  | four _ hn =>
    refine ⟨rfl, Nat.succ_pos _, ?_⟩
    rw [littleEndianValue_littleEndian, Nat.mod_eq_of_lt (by omega)]
    rfl
  | eight _ hn =>
    refine ⟨rfl, Nat.succ_pos _, ?_⟩
    rw [littleEndianValue_littleEndian, Nat.mod_eq_of_lt (by omega)]
    rfl

theorem sizeStart_eq {d : UInt8} {window : Bytes} (h : window.length = if d.toNat / 32 % 2 = 1 then 0 else 1) :
    Descriptor.sizeStart d = (d :: window).length := by
  rw [Descriptor.sizeStart_eq_succ, List.length_cons, h]

theorem contentSize_of_declares {n : Nat} {frame : Bytes} (h : Declares n frame) : contentSize frame = .ok n := by
  obtain ⟨_, blocks, rfl, @⟨d, window, field, hlow, hwindow, hfield⟩⟩ := h
  obtain ⟨hlen, hpos, hvalue⟩ := hfield.read
  have hdrop : ((d :: (window ++ field)) ++ blocks).drop (d :: window).length = field ++ blocks := by
    rw [← List.cons_append, List.append_assoc, List.drop_left]
  rw [List.cons_append, contentSize, Descriptor.hasChecksumOrDictionary_eq, if_neg (by simpa using hlow), hlen,
    if_neg (Nat.ne_of_gt hpos), sizeStart_eq hwindow, ← List.cons_append, hdrop, List.take_left]
  dsimp only
  rw [if_neg (Nat.lt_irrefl _), hvalue]

theorem header_eq {n : Nat} (h : n < 2 ^ 64) :
    ∃ d field, header n = d :: field ∧ d.toNat % 16 = 0 ∧ d.toNat / 32 % 2 = 1 ∧
      SizeField n true (d.toNat / 64) field := by
  rw [header]
  split
  · next hn => exact ⟨_, _, rfl, rfl, rfl, .one hn⟩
  · split
    · next hn => exact ⟨_, _, rfl, rfl, rfl, .two true (by omega) hn⟩
    · split
      · next hn => exact ⟨_, _, rfl, rfl, rfl, .four true hn⟩
      · exact ⟨_, _, rfl, rfl, rfl, .eight true h⟩

theorem headerOf_header {n : Nat} (h : n < 2 ^ 64) : HeaderOf n (header n) := by
  obtain ⟨d, field, he, hlow, hs, hfield⟩ := header_eq h
  rw [he]
  refine @HeaderOf.mk n d [] field (by omega) (by rw [if_pos hs, List.length_nil]) ?_
  rwa [decide_eq_true hs]

theorem unpack_pack {content : Bytes} (h : content.length < 2 ^ 64) :
    unpack content.length (pack content) = some content := by
  obtain ⟨d, field, he, hlow, hs, hfield⟩ := header_eq h
  obtain ⟨hne, hc, hl⟩ := Block.split_spec content
  have hsingle : Descriptor.singleSegment d = true := by rw [Descriptor.singleSegment_eq, decide_eq_true hs]
  have hreserved : Descriptor.isReserved d = false := by
    rw [Descriptor.isReserved_eq, decide_eq_false_iff_not]
    omega
  have hlen : Descriptor.sizeLength d = field.length := by
    rw [← decide_eq_true hs] at hfield
    exact hfield.read.1
  have hdrop : (d :: field ++ Block.writeAll (Block.split content)).drop
      (Descriptor.sizeStart d + Descriptor.sizeLength d) = Block.writeAll (Block.split content) ++ [] := by
    rw [List.append_nil, Descriptor.sizeStart, if_pos hsingle, hlen, Nat.add_comm, ← List.length_cons,
      List.drop_left]
  have hfuel : (Block.split content).length ≤ (d :: field ++ Block.writeAll (Block.split content)).length := by
    have := Block.length_le_writeAll (Block.split content)
    rw [List.length_append]
    omega
  have hread := Block.readAll_writeAll hne hl hfuel []
  rw [hc] at hread
  rw [unpack, pack, he, List.cons_append, readFrame]
  dsimp only
  rw [hreserved, windowFits, hsingle, Bool.true_or, if_neg (by decide), ← List.cons_append, hdrop, hread]
  rfl

/-- What is relied on of an engine: it packs whatever there is to pack into a frame that says how much it
holds, and gets the same out of this frame in a buffer of that size. -/
def Engine.Faithful (zstd : Engine) : Prop :=
  ∀ level content, content.length < 2 ^ 64 → ∃ frame, zstd.pack level content = some frame ∧
    Declares content.length frame ∧ zstd.unpack content.length frame = some content

theorem Engine.faithful_ofRuns : ofRuns.Faithful := by
  intro level content h
  exact ⟨Zstd.pack content, rfl, ⟨_, _, rfl, headerOf_header h⟩, unpack_pack h⟩

end Zstd

end ShapeCodec.Frame
