import ShapeCodec.Stream.Writer
import ShapeCodec.Proofs.BufferedReading
import ShapeCodec.Proofs.RoundTrip

namespace ShapeCodec

def runEach {ε σ α ι : Type} (call : ι → EStateM ε σ α) : List ι → σ → List (Except ε α) × σ
  | [], s => ([], s)
  | x :: xs, s =>
    match call x s with
    | .ok a s => (.ok a :: (runEach call xs s).1, (runEach call xs s).2)
    | .error e s => (.error e :: (runEach call xs s).1, (runEach call xs s).2)

def encodings (c : Config) (calls : List (Shape × Value)) : List ((Shape × Value) × Bytes) :=
  calls.filterMap fun call => (encodeValue c call.1 call.2).toOption.map (Prod.mk call)

section Encodings

variable {c : Config} {calls : List (Shape × Value)} {call : Shape × Value}

theorem mem_encodings_iff {i : (Shape × Value) × Bytes} :
    i ∈ encodings c calls ↔ i.1 ∈ calls ∧ encodeValue c i.1.1 i.1.2 = .ok i.2 := by
  obtain ⟨call, b⟩ := i
  rw [encodings, List.mem_filterMap]
  constructor
  · rintro ⟨call', hm, h⟩
    cases he : encodeValue c call'.1 call'.2 with
    | error e =>
      rw [he] at h
      cases h
    | ok b' =>
      rw [he] at h
      cases h
      exact ⟨hm, he⟩
  · rintro ⟨hm, h⟩
    exact ⟨call, hm, by rw [h]; rfl⟩

theorem encodings_cons_of_ok {b : Bytes} (h : encodeValue c call.1 call.2 = .ok b)
    (calls : List (Shape × Value)) : encodings c (call :: calls) = (call, b) :: encodings c calls := by
  rw [encodings, List.filterMap_cons, h]
  rfl

theorem encodings_cons_of_error {e : Error} (h : encodeValue c call.1 call.2 = .error e)
    (calls : List (Shape × Value)) : encodings c (call :: calls) = encodings c calls := by
  rw [encodings, List.filterMap_cons, h]
  rfl

theorem encodings_append (before after : List (Shape × Value)) :
    encodings c (before ++ after) = encodings c before ++ encodings c after :=
  List.filterMap_append

end Encodings

namespace Sink

def HasRoom (sink : Sink) (n : Nat) : Prop :=
  ∀ room, sink.room = some room → n ≤ room

def taking (sink : Sink) (bs : Bytes) : Sink :=
  { sink with bytes := sink.bytes ++ bs, room := sink.room.map (· - bs.length) }

variable {sink : Sink} {bs more : Bytes}

theorem HasRoom.mono {m n : Nat} (h : sink.HasRoom n) (hle : m ≤ n) : sink.HasRoom m :=
  fun room hr => Nat.le_trans hle (h room hr)

theorem HasRoom.taking {n : Nat} (h : sink.HasRoom (bs.length + n)) : (sink.taking bs).HasRoom n := by
  intro room hr
  obtain ⟨room', hr', rfl⟩ := Option.map_eq_some_iff.mp hr
  exact Nat.le_sub_of_add_le' (h room' hr')

theorem taking_nil (sink : Sink) : sink.taking [] = sink := by
  obtain ⟨bytes, room, fails, refuses⟩ := sink
  cases room <;> simp [taking]

theorem taking_taking (sink : Sink) (bs more : Bytes) : (sink.taking bs).taking more = sink.taking (bs ++ more) := by
  simp [taking, Function.comp_def, Nat.sub_sub]

theorem write_of_hasRoom (h : sink.HasRoom bs.length) : write bs sink = .ok () (sink.taking bs) := by
  rw [write, taking]
  cases hr : sink.room with
  | none => rfl
  | some room =>
    have hl := h room hr
    dsimp only
    rw [if_pos hl, List.take_of_length_le hl]
    rfl

end Sink

namespace Writer

variable {w : Writer} {calls : List (Shape × Value)}

def after (w : Writer) (bs : Bytes) (k : Nat) : Writer :=
  { w with sink := w.sink.taking bs, offset := w.offset + bs.length, count := w.count + k }

theorem after_nil (w : Writer) : w.after [] 0 = w := by
  rw [after, Sink.taking_nil]
  rfl

theorem after_after (w : Writer) (bs more : Bytes) (k l : Nat) :
    (w.after bs k).after more l = w.after (bs ++ more) (k + l) := by
  simp [after, Sink.taking_taking, Nat.add_assoc]

theorem writeValue_of_error {s : Shape} {v : Value} {e : Error}
    (h : encodeValue w.codec.config s v = .error e) : writeValue s v w = .error e w := by
  change EStateM.bind (ofExcept (encodeValue w.codec.config s v)) writeEncoded w = _
  rw [h]
  rfl

theorem writeValue_of_ok {s : Shape} {v : Value} {b : Bytes} (h : encodeValue w.codec.config s v = .ok b)
    (hr : w.sink.HasRoom b.length) : writeValue s v w = .ok b.length (w.after b 1) := by
  change EStateM.bind (ofExcept (encodeValue w.codec.config s v)) writeEncoded w = _
  rw [h]
  change writeEncoded b w = _
  rw [writeEncoded, Sink.write_of_hasRoom hr]
  rfl

def writeValues (calls : List (Shape × Value)) (w : Writer) : List (Except Error Nat) × Writer :=
  runEach (fun call => writeValue call.1 call.2) calls w

def written (c : Config) (calls : List (Shape × Value)) : Bytes :=
  (encodings c calls).flatMap (·.2)

theorem written_append (c : Config) (before after : List (Shape × Value)) :
    written c (before ++ after) = written c before ++ written c after := by
  rw [written, encodings_append, List.flatMap_append]
  rfl

theorem writeValues_eq (hr : w.sink.HasRoom (written w.codec.config calls).length) :
    writeValues calls w =
      (calls.map fun call => (encodeValue w.codec.config call.1 call.2).map List.length,
        w.after (written w.codec.config calls) (encodings w.codec.config calls).length) := by
  induction calls generalizing w with
  | nil => rw [written, encodings, List.filterMap_nil, List.flatMap_nil, List.length_nil, after_nil]; rfl
  | cons call calls ih =>
    rw [writeValues, runEach]
    cases he : encodeValue w.codec.config call.1 call.2 with
    | error e =>
      have henc := encodings_cons_of_error he calls
      rw [written, henc] at hr ⊢
      rw [writeValue_of_error he, List.map_cons, he]
      dsimp only
      rw [← writeValues, ih hr]
      rfl
    | ok b =>
      have henc := encodings_cons_of_ok he calls
      rw [written, henc, List.flatMap_cons] at hr ⊢
      rw [List.length_append] at hr
      rw [writeValue_of_ok he (hr.mono (Nat.le_add_right _ _)), List.map_cons, he]
      dsimp only
      rw [← writeValues, ih (w := w.after b 1) hr.taking, after_after, List.length_cons, Nat.add_comm _ 1]
      rfl

theorem writeValue_error_unchanged {s : Shape} {v : Value}
    (hr : ∀ b, encodeValue w.codec.config s v = .ok b → w.sink.HasRoom b.length) {e : Error} {w' : Writer}
    (h : writeValue s v w = .error e w') : w' = w := by
  cases he : encodeValue w.codec.config s v with
  | error e' =>
    rw [writeValue_of_error he] at h
    cases h
    rfl
  | ok b =>
    rw [writeValue_of_ok he (hr b he)] at h
    cases h

theorem hasRoom_after {before rest : List (Shape × Value)} {call : Shape × Value}
    (hr : w.sink.HasRoom (written w.codec.config (before ++ call :: rest)).length) {b : Bytes}
    (h : encodeValue w.codec.config call.1 call.2 = .ok b) :
    (w.sink.taking (written w.codec.config before)).HasRoom b.length := by
  rw [written_append, List.length_append] at hr
  have hle : b.length ≤ (written w.codec.config (call :: rest)).length := by
    rw [written, encodings_cons_of_ok h, List.flatMap_cons, List.length_append]
    exact Nat.le_add_right _ _
  exact hr.taking.mono hle

end Writer

namespace Reader

open ReadEvent

variable {codec : Codec} {data : Bytes} {p n : Nat} {r : Reader}

def readValues (shapes : List Shape) (r : Reader) : List (Except Error (Option Value)) × Reader :=
  runEach readValue shapes r

theorem readValue_of_oneShot {s : Shape} {x : Option Value} {p' n' : Nat}
    (hshot : oneShot (decodeValue codec.config s) data p n = (.ok x, p', n'))
    (hlimit : ∀ k, ¬ Overlong (decodeValue codec.config s) codec.config.maxSize (data.drop p) k)
    (hr : At codec data p n r) (hq : Quiet r.source) :
    ∃ r', readValue s r = .ok x r' ∧ At codec data p' n' r' ∧ Quiet r'.source := by
  have hserved := (readValue_served s hr).resolve_right fun h => by
    obtain ⟨k, hk⟩ := h.overlong
    exact hlimit k hk
  generalize readValue s r = res at hserved ⊢
  cases hserved with
  | failed ht _ _ =>
    rw [ht] at hq
    exact absurd (List.mem_append_right _ List.mem_cons_self) (hq _)
  | refused _ _ ho _ =>
    rw [hshot] at ho
    cases ho
  | returned ht _ ho hr' =>
    rw [hshot] at ho
    cases ho
    rw [ht] at hq
    exact ⟨_, rfl, hr', fun text h => hq text (List.mem_append_right _ h)⟩

theorem readValue_of_decoded {s : Shape} {v : Value} {b rest : Bytes} (hne : b ≠ [])
    (hmax : b.length ≤ codec.config.maxSize)
    (hdec : ∀ suffix, decodeValue codec.config s (b ++ suffix) = .ok (v, b.length))
    (hdata : data.drop p = b ++ rest) (hr : At codec data p n r) (hq : Quiet r.source) :
    ∃ r', readValue s r = .ok (some v) r' ∧ At codec data (p + b.length) (n + 1) r' ∧ Quiet r'.source := by
  have hp : p ≠ data.length := by
    rintro rfl
    rw [List.drop_length] at hdata
    exact hne (List.append_eq_nil_iff.mp hdata.symm).1
  apply readValue_of_oneShot _ _ hr hq
  · rw [oneShot, if_neg hp, hdata, hdec]
  · -- More bytes than the limit hold all of the encoding.
    rintro k ⟨hk, -, e, he, -⟩
    rw [hdata, List.take_append, List.take_of_length_le (by omega), hdec] at he
    cases he

theorem readValue_at_end (s : Shape) (hr : At codec data data.length n r) (hq : Quiet r.source) :
    ∃ r', readValue s r = .ok none r' ∧ At codec data data.length n r' := by
  have hlimit : ∀ k, ¬ Overlong (decodeValue codec.config s) codec.config.maxSize (data.drop data.length) k := by
    rintro k ⟨hk, hl, -⟩
    rw [List.drop_length, List.length_nil] at hl
    omega
  obtain ⟨r', hread, hr', -⟩ := readValue_of_oneShot (by rw [oneShot, if_pos rfl]) hlimit hr hq
  exact ⟨r', hread, hr'⟩

structure ReadsBack (c : Config) (i : (Shape × Value) × Bytes) : Prop where
  ne_nil : i.2 ≠ []
  length_le : i.2.length ≤ c.maxSize
  decodes : ∀ suffix, decodeValue c i.1.1 (i.2 ++ suffix) = .ok (canon i.1.1 i.1.2, i.2.length)

theorem readsBack_of_mem_encodings {c : Config} {calls : List (Shape × Value)}
    (hs : ∀ call ∈ calls, call.1.Distinct ∧ call.1.All fun t => t.layers < 2 ^ 63)
    (hb : ∀ call ∈ calls, ∀ b, encodeValue c call.1 call.2 = .ok b → b.length < 2 ^ 63)
    {i : (Shape × Value) × Bytes} (hi : i ∈ encodings c calls) : ReadsBack c i := by
  obtain ⟨hm, he⟩ := mem_encodings_iff.mp hi
  obtain ⟨hd, hl⟩ := hs _ hm
  obtain ⟨⟨hc, -⟩, heq, hmax⟩ := (encodeValue_eq_ok_iff hd).mp he
  have hlt := hb _ hm _ he
  refine ⟨?_, hmax, decodeValue_of_encodeValue hd hl hlt rfl he⟩
  rw [heq] at hlt ⊢
  exact encoding_ne_nil hc (fits_of_length hd hl hc hlt)

theorem readValues_of_readsBack {items : List ((Shape × Value) × Bytes)}
    (hi : ∀ i ∈ items, ReadsBack codec.config i) (hdata : data.drop p = items.flatMap (·.2))
    (hr : At codec data p n r) (hq : Quiet r.source) :
    ∃ r', readValues (items.map (·.1.1)) r = (items.map fun i => .ok (some (canon i.1.1 i.1.2)), r') ∧
      At codec data data.length (n + items.length) r' ∧ Quiet r'.source := by
  induction items generalizing p n r with
  | nil =>
    have hp : p = data.length := Nat.le_antisymm hr.inside (List.drop_eq_nil_iff.mp hdata)
    subst hp
    exact ⟨r, rfl, hr, hq⟩
  | cons i items ih =>
    obtain ⟨⟨hne, hmax, hdec⟩, hi⟩ := List.forall_mem_cons.mp hi
    rw [List.flatMap_cons] at hdata
    obtain ⟨r₁, hread, hr₁, hq₁⟩ := readValue_of_decoded hne hmax hdec hdata hr hq
    have hrest : data.drop (p + i.2.length) = items.flatMap (·.2) := by
      rw [← List.drop_drop, hdata, List.drop_left]
    obtain ⟨r', hreads, hr', hq'⟩ := ih hi hrest hr₁ hq₁
    refine ⟨r', ?_, ?_, hq'⟩
    · rw [List.map_cons, readValues, runEach, hread]
      dsimp only
      rw [← readValues, hreads]
      rfl
    · rw [List.length_cons, Nat.add_comm items.length, ← Nat.add_assoc]
      exact hr'

end Reader

open Writer Reader

/-- Under one configuration a reader takes back what a writer has written. A value that does not encode
leaves the writer as it was; the others stand in the sink back to back, and however these bytes come in,
a reader that asks for values of their shapes gets them in their order, and then the end. -/
theorem readValues_of_writeValues {codec codec' : Codec} (hcodec : codec'.config = codec.config) {sink : Sink}
    {calls : List (Shape × Value)}
    (hs : ∀ call ∈ calls, call.1.Distinct ∧ call.1.All fun t => t.layers < 2 ^ 63)
    (hb : ∀ call ∈ calls, ∀ b, encodeValue codec.config call.1 call.2 = .ok b → b.length < 2 ^ 63)
    (hroom : sink.HasRoom (written codec.config calls).length) {w : Writer}
    (hw : w = (writeValues calls { sink, codec }).2) :
    (∀ before call rest, calls = before ++ call :: rest → ∀ e w',
      writeValue call.1 call.2 (writeValues before { sink, codec }).2 = .error e w' →
        w' = (writeValues before { sink, codec }).2) ∧
    (writeValues calls { sink, codec }).1 =
      calls.map (fun call => (encodeValue codec.config call.1 call.2).map List.length) ∧
    w.sink.bytes = sink.bytes ++ (encodings codec.config calls).flatMap (·.2) ∧
    w.offset = ((encodings codec.config calls).flatMap (·.2)).length ∧
    w.count = (encodings codec.config calls).length ∧
    ∀ source, ReadEvent.Chunked source → ReadEvent.Quiet source →
      w.sink.bytes = sink.bytes ++ ReadEvent.delivered source →
      ∃ r, readValues ((encodings codec.config calls).map (·.1.1)) { source, codec := codec' } =
          ((encodings codec.config calls).map (fun i => .ok (some (canon i.1.1 i.1.2))), r) ∧
        ∀ s, ∃ r', readValue s r = .ok none r' ∧
          r'.pending.offset = w.offset ∧ r'.pending.count = w.count := by
  have hrun : writeValues calls { sink, codec } =
      (calls.map fun call => (encodeValue codec.config call.1 call.2).map List.length,
        after { sink, codec } (written codec.config calls) (encodings codec.config calls).length) :=
    writeValues_eq hroom
  rw [hrun] at hw
  obtain rfl := hw
  refine ⟨?_, by rw [hrun], rfl, Nat.zero_add _, Nat.zero_add _, ?_⟩
  · rintro before call rest rfl e w' h
    have hbefore : sink.HasRoom (written codec.config before).length := by
      rw [written_append, List.length_append] at hroom
      exact hroom.mono (Nat.le_add_right _ _)
    refine writeValue_error_unchanged (fun b hok => ?_) h
    rw [writeValues_eq (w := { sink, codec }) hbefore] at hok ⊢
    exact hasRoom_after hroom hok
  · intro source hchunked hquiet hbytes
    have hdata : written codec.config calls = ReadEvent.delivered source := List.append_cancel_left hbytes
    have hback : ∀ i ∈ encodings codec.config calls, ReadsBack codec'.config i := by
      rw [hcodec]
      exact fun i hi => readsBack_of_mem_encodings hs hb hi
    have hdrop : (ReadEvent.delivered source).drop 0 = written codec.config calls := hdata.symm
    obtain ⟨r, hreads, hr, hq⟩ := readValues_of_readsBack hback hdrop (At.start hchunked codec') hquiet
    refine ⟨r, hreads, fun s => ?_⟩
    obtain ⟨r', hread, hr'⟩ := readValue_at_end s hr hq
    refine ⟨r', hread, ?_, hr'.count⟩
    rw [hr'.offset, ← hdata]
    exact (Nat.zero_add _).symm

theorem readValues_of_writeValues_cut :
    let calls : List (Shape × Value) := [(.bool, .bool true), (.bool, .str "h"), (.str, .str "h")]
    let source : List ReadEvent := [.data [1, 1], .interrupted, .data [1, 104]]
    (writeValues calls {}).2.sink.bytes = [1, 1, 1, 104] ∧
      ∃ r, readValues [.bool, .str] { source } = ([.ok (some (.bool true)), .ok (some (.str "h"))], r) ∧
        ∀ s, ∃ r', readValue s r = .ok none r' ∧ r'.pending.offset = 4 ∧ r'.pending.count = 2 := by
  intro calls source
  have hs : ∀ call ∈ calls, call.1.Distinct ∧ call.1.All fun t => t.layers < 2 ^ 63 := by
    simp [calls, Shape.Distinct, Shape.All, Shape.NamesDiffer, Shape.layers]
  have hb : ∀ call ∈ calls, ∀ b, encodeValue {} call.1 call.2 = .ok b → b.length < 2 ^ 63 := by
    intro call hm b h
    have hmax : b.length ≤ 2 ^ 24 := ((encodeValue_eq_ok_iff (hs call hm).1).mp h).2.2
    omega
  have hc : ReadEvent.Chunked source := by simp [source, ReadEvent.Chunked, ReadEvent.bufferSize]
  have hq : ReadEvent.Quiet source := by simp [source, ReadEvent.Quiet]
  have hroom : ∀ n, ({} : Sink).HasRoom n := fun n => by simp [Sink.HasRoom]
  obtain ⟨-, -, hbytes, -, -, hread⟩ :=
    @readValues_of_writeValues {} {} rfl {} calls hs hb (hroom _) _ rfl
  exact ⟨hbytes, hread source hc hq rfl⟩

end ShapeCodec
