import ShapeCodec.Frame.Compression
import ShapeCodec.Proofs.Outcome
import ShapeCodec.Proofs.ZstdFrames

namespace ShapeCodec.Frame

namespace Zstd

theorem sizeField_of_length {d : UInt8} {field : Bytes} (hl : field.length = Descriptor.sizeLength d)
    (hne : Descriptor.sizeLength d ≠ 0) :
    SizeField (littleEndianValue field + if Descriptor.sizeLength d = 2 then 256 else 0)
      (decide (d.toNat / 32 % 2 = 1)) (d.toNat / 64) field := by
  have hd := d.toNat_lt
  have hlt := littleEndianValue_lt field
  have hfield := littleEndian_littleEndianValue field
  rw [← hl] at hne ⊢
  rw [Descriptor.sizeLength, Descriptor.flag_eq, Descriptor.singleSegment_eq] at hl
  generalize decide (d.toNat / 32 % 2 = 1) = single at hl ⊢
  have hflag : d.toNat / 64 < 4 := by omega
  generalize d.toNat / 64 = flag at hl hflag ⊢
  generalize littleEndianValue field = n at hlt hfield ⊢
  obtain rfl | rfl | rfl | rfl : flag = 0 ∨ flag = 1 ∨ flag = 2 ∨ flag = 3 := by omega
  · cases single with
    | false => exact absurd hl hne
    | true =>
      have hl : field.length = 1 := hl
      rw [hl] at hlt hfield ⊢
      rw [← hfield]
      exact .one hlt
  · have hl : field.length = 2 := hl
    rw [hl] at hlt hfield ⊢
    have hn : n + 256 - 256 = n := Nat.add_sub_cancel n 256
    rw [← hfield, if_pos rfl]
    nth_rewrite 2 [← hn]
    exact .two single (by omega) (by omega)
  · have hl : field.length = 4 := hl
    rw [hl] at hlt hfield ⊢
    rw [← hfield]
    exact .four single hlt
  · have hl : field.length = 8 := hl
    rw [hl] at hlt hfield ⊢
    rw [← hfield]
    exact .eight single hlt

theorem contentSize_eq_ok_iff {n : Nat} {frame : Bytes} : contentSize frame = .ok n ↔ Declares n frame := by
  refine ⟨fun h => ?_, contentSize_of_declares⟩
  cases frame with
  | nil => cases h
  | cons d rest =>
    have hstart := Descriptor.sizeStart_eq_succ d
    rw [contentSize, Descriptor.hasChecksumOrDictionary_eq, hstart, List.drop_succ_cons] at h
    generalize hk : (if d.toNat / 32 % 2 = 1 then 0 else 1) = k at h
    generalize hfield : (rest.drop k).take (Descriptor.sizeLength d) = field at h
    split at h
    · cases h
    next hlow =>
    split at h
    · cases h
    next hne =>
    dsimp only at h
    split at h
    · cases h
    next hlt =>
    cases h
    have hlen : field.length = Descriptor.sizeLength d := by
      have hle := List.length_take_le (Descriptor.sizeLength d) (rest.drop k)
      rw [hfield] at hle
      omega
    have hwindow : (rest.take k).length = k := by
      have hle := List.length_take_le' (Descriptor.sizeLength d) (rest.drop k)
      rw [hfield, List.length_drop] at hle
      rw [List.length_take_of_le]
      omega
    refine ⟨d :: (rest.take k ++ field), (rest.drop k).drop (Descriptor.sizeLength d), ?_, ?_⟩
    · rw [← hfield, List.cons_append, List.append_assoc, List.take_append_drop, List.take_append_drop]
    · exact .mk (by simpa using hlow) (hwindow.trans hk.symm) (sizeField_of_length hlen hne)

theorem contentSize_take {n : Nat} {header : Bytes} (h : HeaderOf n header) {k : Nat} (hk : k < header.length) :
    contentSize (header.take k) = .error (if k = 0 then .emptyHeader else .shortHeader) := by
  obtain @⟨d, window, field, hlow, hwindow, hfield⟩ := h
  cases k with
  | zero => rfl
  | succ k =>
    obtain ⟨hlen, hpos, -⟩ := hfield.read
    have hshort : ((window ++ field).take k |>.drop window.length |>.take field.length).length < field.length := by
      rw [List.length_cons, List.length_append] at hk
      rw [List.length_take, List.length_drop, List.length_take]
      omega
    rw [List.take_succ_cons, contentSize, Descriptor.hasChecksumOrDictionary_eq, if_neg (by simpa using hlow), hlen,
      if_neg (Nat.ne_of_gt hpos), sizeStart_eq hwindow, List.length_cons, List.drop_succ_cons]
    dsimp only
    rw [if_pos hshort, if_neg (Nat.succ_ne_zero k)]

theorem SizeField.lt {n flag : Nat} {single : Bool} {field : Bytes} (h : SizeField n single flag field) :
    n < 2 ^ 64 := by
  cases h <;> omega

theorem exists_headerOf_iff {n : Nat} : (∃ header, HeaderOf n header) ↔ n < 2 ^ 64 := by
  constructor
  · rintro ⟨_, _, _, hfield⟩
    exact hfield.lt
  · intro h
    exact ⟨header n, headerOf_header h⟩

end Zstd

variable {zstd : Zstd.Engine} {max n : Nat} {packed content : Bytes}

theorem unpack_eq_ok (h : unpack zstd max packed = .ok content) :
    Zstd.Declares content.length packed ∧ content.length ≤ max := by
  obtain ⟨n, hn, h⟩ := Except.bind_eq_ok.mp h
  split at h
  · cases h
  next hle =>
  split at h
  · cases h
  next _ hu =>
  split at h
  · next hlen =>
    cases h
    rw [hlen]
    exact ⟨Zstd.contentSize_eq_ok_iff.mp hn, Nat.not_lt.mp hle⟩
  · cases h

theorem unpack_of_exceeded (hd : Zstd.Declares n packed) (h : max < n) :
    unpack zstd max packed = .error (.exceededSize max n) := by
  rw [unpack, Zstd.contentSize_of_declares hd, Except.ok_bind, if_pos h]

theorem decompress_eq_ok {frame : Bytes} (h : decompress zstd max frame = .ok content) :
    content.length ≤ max ∧ (frame = 0 :: content ∨ ∃ packed, frame = 1 :: packed ∧ Zstd.Declares content.length packed) := by
  cases frame with
  | nil => cases h
  | cons marker rest =>
    rw [decompress] at h
    split at h
    · next hm =>
      split at h
      · cases h
      next hle =>
      cases h
      exact ⟨Nat.not_lt.mp hle, .inl (by rw [hm])⟩
    · split at h
      · next hm =>
        obtain ⟨hd, hle⟩ := unpack_eq_ok (Except.mapError_eq_ok.mp h)
        exact ⟨hle, .inr ⟨rest, by rw [hm], hd⟩⟩
      · cases h

/-- Each size below `2 ^ 64` can be declared, in several layouts. A header gives its size whatever follows it,
and none if a part of it is missing. Nothing is unpacked that has another size than the declared one or exceeds
the limit, and a declared size above the limit is refused whatever the blocks and the engine. -/
theorem decompress_within_limit :
    (∀ n, (∃ header, Zstd.HeaderOf n header) ↔ n < 2 ^ 64) ∧
    (∀ n header, Zstd.HeaderOf n header → (∀ more, Zstd.contentSize (header ++ more) = .ok n) ∧
      ∀ k < header.length, Zstd.contentSize (header.take k) = .error (if k = 0 then .emptyHeader else .shortHeader)) ∧
    ∀ (zstd : Zstd.Engine) (max : Nat),
      (∀ frame content, decompress zstd max frame = .ok content → content.length ≤ max ∧
        (frame = 0 :: content ∨ ∃ packed, frame = 1 :: packed ∧ Zstd.Declares content.length packed)) ∧
      ∀ n header blocks, Zstd.HeaderOf n header → max < n →
        decompress zstd max (1 :: (header ++ blocks)) = .error (.frame (.exceededSize max n)) := by
  refine ⟨fun n => Zstd.exists_headerOf_iff, fun n header hn => ⟨fun more => ?_, fun k => Zstd.contentSize_take hn⟩,
    fun zstd max => ⟨fun frame content => decompress_eq_ok, fun n header blocks hn h => ?_⟩⟩
  · exact Zstd.contentSize_of_declares ⟨header, more, rfl, hn⟩
  · rw [decompress, if_neg (by decide), if_pos rfl, unpack_of_exceeded ⟨header, blocks, rfl, hn⟩ h]
    rfl

theorem decompress_within_limit_window :
    let header : Bytes := [0x80, 0x58, 24, 0, 0, 0]
    let frame : Bytes := 1 :: (header ++ [0xc3, 0, 0, 0x61])
    Zstd.contentSize (header ++ [0xc3]) = .ok 24 ∧ Zstd.contentSize [0x80, 0x58, 24] = .error .shortHeader ∧
      (∃ content, decompress .ofRuns 24 frame = .ok content ∧ content.length ≤ 24) ∧
      decompress .ofRuns 23 frame = .error (.frame (.exceededSize 23 24)) := by
  intro header frame
  have hn : Zstd.HeaderOf 24 header :=
    @Zstd.HeaderOf.mk 24 0x80 [0x58] [24, 0, 0, 0] rfl rfl (.four false (by decide))
  have hc : decompress .ofRuns 24 frame = .ok (List.replicate 24 0x61) := rfl
  obtain ⟨-, hsize, hlimit⟩ := decompress_within_limit
  obtain ⟨hwhole, hcut⟩ := hsize 24 header hn
  obtain ⟨hle, -⟩ := (hlimit .ofRuns 24).1 _ _ hc
  exact ⟨hwhole _, hcut 3 (by decide), ⟨_, hc, hle⟩, (hlimit .ofRuns 23).2 24 header _ hn (by decide)⟩

end ShapeCodec.Frame
