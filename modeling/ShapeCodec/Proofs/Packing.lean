import ShapeCodec.Proofs.CodecShapes
import ShapeCodec.Proofs.TypedRoundTrip
import ShapeCodec.Proofs.ZstdFrames

namespace ShapeCodec

namespace Frame

variable {zstd : Zstd.Engine} {content : Bytes} {max : Nat}

theorem decompress_raw (h : content.length ≤ max) : decompress zstd max (0 :: content) = .ok content := by
  rw [decompress, if_pos rfl, if_neg (Nat.not_lt.mpr h)]

theorem unpack_of_declares {frame : Bytes} (hd : Zstd.Declares content.length frame)
    (hu : zstd.unpack content.length frame = some content) (h : content.length ≤ max) :
    unpack zstd max frame = .ok content := by
  rw [unpack, Zstd.contentSize_of_declares hd, Except.ok_bind, if_neg (Nat.not_lt.mpr h), hu]
  exact if_pos rfl

theorem decompress_of_compress (hz : zstd.Faithful) (compression : Compression)
    (hl : content.length < 2 ^ 64) (h : content.length ≤ max) :
    ∃ frame, compress zstd compression content = .ok frame ∧ frame.length ≤ content.length + 1 ∧
      decompress zstd max frame = .ok content := by
  cases compression with
  | none => exact ⟨_, rfl, Nat.le_refl _, decompress_raw h⟩
  | general level =>
    obtain ⟨packed, hp, hd, hu⟩ := hz level content hl
    rw [compress, hp]
    dsimp only
    by_cases hlt : (1 :: packed).length < content.length + 1
    · rw [if_pos hlt]
      refine ⟨_, rfl, Nat.le_of_lt hlt, ?_⟩
      rw [decompress, if_neg (by decide), if_pos rfl, unpack_of_declares hd hu h, Except.ok_mapError]
    · rw [if_neg hlt]
      exact ⟨_, rfl, Nat.le_refl _, decompress_raw h⟩

end Frame

theorem decodeDatum_of_encodeDatum {c : Config} {t : Ty} {s : Shape} (hs : t.shapeWithin c.maxDepth = .ok s)
    (hl : s.All fun u => u.layers < 2 ^ 63) {x : Datum} (hx : t.Holds x) {b : Bytes}
    (h : encodeDatum c s x = .ok b) (hb : b.length < 2 ^ 63) :
    b.length ≤ c.maxSize ∧ ∃ y, t.Same x y ∧ ∀ suffix, decodeDatum c s t (b ++ suffix) = .ok (y, b.length) := by
  have hask := Ty.ask_of_shapeWithin hs
  have hd := Ty.distinct_of_ask hask
  obtain ⟨v, y, hv⟩ := carries_of_ask hx hask
  rw [hv.encodeDatum_eq hd (Nat.le_refl _)] at h
  split at h
  · cases h
  · next hmax =>
    cases h
    exact ⟨Nat.not_lt.mp hmax, y, hv.same,
      hv.decodeDatum_encoding hd (Nat.le_refl _) (fits_of_length hd hl hv.conforms hb)⟩

namespace Codec

variable {zstd : Frame.Zstd.Engine} {t : StaticType} {x y : Datum} {codec codec' : Codec}

theorem pack_eq_ok {frame : Bytes} (h : pack zstd t x codec = .ok frame codec') :
    ∃ s b, shapeOf t codec = .ok s codec' ∧ encodeDatum codec'.config s x = .ok b ∧
      Frame.compress zstd codec'.config.compression b = .ok frame := by
  obtain ⟨b, c₁, hb, h⟩ := EStateM.bind_eq_ok.mp h
  obtain ⟨s, c₂, hs, hb⟩ := EStateM.bind_eq_ok.mp hb
  obtain ⟨c, c₃, hc, hb⟩ := EStateM.bind_eq_ok.mp hb
  obtain ⟨rfl, rfl⟩ := EStateM.get_eq_ok.mp hc
  obtain ⟨he, rfl⟩ := EStateM.ofExcept_eq_ok.mp hb
  obtain ⟨c, c₄, hc, h⟩ := EStateM.bind_eq_ok.mp h
  obtain ⟨rfl, rfl⟩ := EStateM.get_eq_ok.mp hc
  obtain ⟨hf, rfl⟩ := EStateM.ofExcept_eq_ok.mp h
  exact ⟨s, b, hs, he, Except.mapError_eq_ok.mp hf⟩

theorem unpack_of_decodeDatum {s : Shape} {frame b : Bytes} (hs : shapeOf t codec = .ok s codec')
    (hf : Frame.decompress zstd codec.config.maxSize frame = .ok b)
    (hd : decodeDatum codec'.config s t.type b = .ok (y, b.length)) :
    unpack zstd t frame codec = .ok y codec' := by
  have hdec : Codec.decode t b codec = .ok (y, b.length) codec' :=
    EStateM.bind_eq_ok.mpr ⟨s, codec', hs, EStateM.bind_eq_ok.mpr ⟨codec', codec', EStateM.get_eq_ok.mpr ⟨rfl, rfl⟩,
      EStateM.ofExcept_eq_ok.mpr ⟨hd, rfl⟩⟩⟩
  refine EStateM.bind_eq_ok.mpr ⟨codec, codec, EStateM.get_eq_ok.mpr ⟨rfl, rfl⟩, ?_⟩
  refine EStateM.bind_eq_ok.mpr ⟨b, codec, EStateM.ofExcept_eq_ok.mpr ⟨hf, rfl⟩, ?_⟩
  refine EStateM.bind_eq_ok.mpr ⟨_, codec', hdec, ?_⟩
  simp only [ne_eq, not_true, if_false]
  rfl

/-- Packing loses nothing. Every content comes back from its frame under each limit that it keeps, whatever
the compression, and every datum that a codec packs is unpacked by each codec of that configuration, up to
the order of maps. -/
theorem unpack_of_pack (hz : zstd.Faithful) :
    (∀ (compression : Frame.Compression) (content : Bytes) (max : Nat), content.length < 2 ^ 64 →
      content.length ≤ max → ∃ frame, Frame.compress zstd compression content = .ok frame ∧
        frame.length ≤ content.length + 1 ∧ Frame.decompress zstd max frame = .ok content) ∧
    ∀ (t : StaticType) (x : Datum) (codec codec' : Codec) (frame : Bytes), t.type.Holds x → codec.Traced t →
      (∀ s, t.type.shapeWithin codec.config.maxDepth = .ok s → s.All (fun u => u.layers < 2 ^ 63) ∧
        ∀ b, encodeDatum codec.config s x = .ok b → b.length < 2 ^ 63) →
      pack zstd t x codec = .ok frame codec' →
      codec'.config = codec.config ∧ codec'.Traced t ∧
      ∃ y, t.type.Same x y ∧ ∀ reader : Codec, reader.config = codec.config → reader.Traced t →
        ∃ reader', unpack zstd t frame reader = .ok y reader' := by
  refine ⟨fun compression content max hl h => Frame.decompress_of_compress hz compression hl h, ?_⟩
  intro t x codec codec' frame hx ht hsize h
  obtain ⟨s, b, hs, he, hf⟩ := pack_eq_ok h
  obtain ⟨hconfig, -⟩ := shapeOf_eq_ok hs
  obtain ⟨hshape, ht'⟩ := ht.of_shapeOf hs
  rw [hconfig] at he hf
  obtain ⟨hl, hb⟩ := hsize s hshape
  obtain ⟨hmax, y, hsame, hdec⟩ := decodeDatum_of_encodeDatum hshape hl hx he (hb b he)
  refine ⟨hconfig, ht', y, hsame, fun reader hreader htr => ?_⟩
  -- The limit that the encoding kept is the one that the content of the frame is held against.
  rw [← hreader] at hshape hf hmax hdec
  obtain ⟨reader', hs', hconfig'⟩ := htr.shapeOf hshape
  obtain ⟨frame', hf', -, hunpack⟩ := Frame.decompress_of_compress hz reader.config.compression
    (Nat.lt_trans (hb b he) (by decide)) hmax
  cases hf.symm.trans hf'
  have hdec := hdec []
  rw [List.append_nil, ← hconfig'] at hdec
  exact ⟨reader', unpack_of_decodeDatum hs' hunpack hdec⟩

theorem unpack_of_pack_run :
    let zstd := Frame.Zstd.Engine.ofRuns
    let t : StaticType := ⟨0, .string⟩
    let x : Datum := .str "aaaaaaaaaaaaaaaaaaaaaaaa"
    let codec : Codec := { config := { compression := .standard } }
    let frame : Bytes := [1, 32, 26, 16, 0, 0, 1, 24, 195, 0, 0, 97]
    (∃ codec', pack zstd t x codec = .ok frame codec') ∧
      ∃ y, t.type.Same x y ∧ ∃ reader', unpack zstd t frame codec = .ok y reader' := by
  intro zstd t x codec frame
  have hx : t.type.Holds x := .string _
  have ht : codec.Traced t := nofun
  have h : pack zstd t x codec = .ok frame (codec.insert t .str) := rfl
  have hsize : ∀ s, t.type.shapeWithin codec.config.maxDepth = .ok s → s.All (fun u => u.layers < 2 ^ 63) ∧
      ∀ b, encodeDatum codec.config s x = .ok b → b.length < 2 ^ 63 := by
    rintro s ⟨⟩
    refine ⟨Nat.two_pow_pos 63, fun b hb => ?_⟩
    cases hb
    decide
  obtain ⟨-, -, y, hsame, hread⟩ := (unpack_of_pack Frame.Zstd.Engine.faithful_ofRuns).2 t x codec _ frame hx ht
    hsize h
  exact ⟨⟨_, h⟩, y, hsame, hread codec rfl ht⟩

end Codec

end ShapeCodec
