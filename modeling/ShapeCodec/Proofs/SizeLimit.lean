import ShapeCodec.Proofs.PolledDecoding

/-!
What the limit on the size of an item means for streams. It is looked at only when the bytes at hand are no
whole item yet. So an item that comes in at once may exceed it, by one read or one chunk at most, and only
items within it are sure to be given out whatever the reads and chunks are.
-/

namespace ShapeCodec

namespace Pending

variable {q : Pending} {bound : Nat}

structure Holds (bound : Nat) (q : Pending) : Prop where
  start_le : q.start ≤ q.buffer.length
  length_le : q.length ≤ bound

theorem Holds.length_extend (h : q.Holds bound) (bs : Bytes) : (q.extend bs).length = q.length + bs.length := by
  rw [← length_bytes, ← length_bytes, bytes_extend h.start_le, List.length_append]

theorem Holds.extended {bs : Bytes} (h : q.Holds bound) (hb : q.length + bs.length ≤ bound) :
    (q.extend bs).Holds bound := by
  refine ⟨start_extend_le h.start_le bs, ?_⟩
  rw [h.length_extend]
  exact hb

theorem Holds.moved {used : Nat} (h : q.Holds bound) (hu : used ≤ q.bytes.length) :
    (⟨q.buffer, q.start + used, q.offset + used, q.count + 1⟩ : Pending).Holds bound := by
  have hstart := h.start_le
  have hlen := h.length_le
  rw [length_bytes] at hu
  rw [Pending.length] at hu hlen
  refine ⟨?_, ?_⟩
  · dsimp only
    omega
  · rw [Pending.length]
    dsimp only
    omega

theorem length_of_isEmpty (h : q.isEmpty) : q.length = 0 := by
  rw [isEmpty, beq_iff_eq] at h
  rw [Pending.length, h, Nat.sub_self]

end Pending

namespace ReadEvent

theorem length_read_le {source rest : List ReadEvent} {bs : Bytes} (h : read source = (.ok bs, rest)) :
    bs.length ≤ bufferSize := by
  induction source with
  | nil =>
    cases h
    exact Nat.zero_le _
  | cons x source ih =>
    cases x with
    | interrupted => exact ih h
    | failure text => cases h
    | data more =>
      rw [read] at h
      split at h
      · cases h
        assumption
      · cases h
        exact List.length_take_le _ _

end ReadEvent

open ReadEvent

namespace Reader

variable {α : Type} {decoder : ItemDecoder α} {codec : Codec} {data : Bytes} {p n bound : Nat} {r : Reader}

def Kept (codec : Codec) (bound offset : Nat) : EStateM.Result Error Reader (Option α) → Prop
  | .ok _ r | .error _ r => r.codec = codec ∧ r.pending.Holds bound ∧ r.pending.offset ≤ offset + bound

theorem fill_cases (r : Reader) :
    ∃ r' : Reader, (fill r = .ok () r' ∨ ∃ e, fill r = .error e r') ∧ r'.codec = r.codec ∧
      (r'.pending = r.pending ∨ ∃ bs, bs.length ≤ bufferSize ∧ r'.pending = r.pending.extend bs) := by
  rw [fill]
  rcases hread : ReadEvent.read r.source with ⟨e | bs, rest⟩
  · exact ⟨_, .inr ⟨_, rfl⟩, rfl, .inl rfl⟩
  · cases bs with
    | nil => exact ⟨_, .inl rfl, rfl, .inl rfl⟩
    | cons b bs => exact ⟨_, .inl rfl, rfl, .inr ⟨b :: bs, length_read_le hread, rfl⟩⟩

theorem attempt_kept (hd : Steady decoder) {fuel : Nat} (hc : r.codec = codec)
    (hr : r.pending.Holds (codec.config.maxSize + bufferSize)) :
    Kept codec (codec.config.maxSize + bufferSize) r.pending.offset (attempt decoder fuel r) := by
  induction fuel generalizing r with
  | zero => exact ⟨hc, hr, Nat.le_add_right _ _⟩
  | succ fuel ih =>
    have hretry (hl : r.pending.length ≤ codec.config.maxSize) :
        Kept codec (codec.config.maxSize + bufferSize) r.pending.offset (retry decoder fuel r) := by
      obtain ⟨r', hfill, hc', hp'⟩ := fill_cases r
      have hr' : r'.pending.Holds (codec.config.maxSize + bufferSize) ∧
          r'.pending.offset = r.pending.offset := by
        rcases hp' with hp' | ⟨bs, hbs, hp'⟩
        · rw [hp']
          exact ⟨hr, rfl⟩
        · rw [hp']
          exact ⟨hr.extended (Nat.add_le_add hl hbs), Pending.offset_extend _ _⟩
      rw [retry]
      rcases hfill with hfill | ⟨e, hfill⟩
      · rw [hfill, ← hr'.2]
        exact ih (hc'.trans hc) hr'.1
      · rw [hfill]
        exact ⟨hc'.trans hc, hr'.1, by rw [hr'.2]; exact Nat.le_add_right _ _⟩
    rw [attempt_succ]
    split
    · rename_i hb
      split
      · exact ⟨hc, hr, Nat.le_add_right _ _⟩
      · exact hretry (by rw [Pending.length_of_isEmpty hb]; exact Nat.zero_le _)
    · rw [Pending.decode]
      cases hx : decoder r.pending.bytes with
      | ok y =>
        have hu := hd.used_le hx
        refine ⟨hc, hr.moved hu, Nat.add_le_add_left ?_ _⟩
        rw [Pending.length_bytes] at hu
        exact Nat.le_trans hu hr.length_le
      | error e =>
        dsimp only
        rw [Pending.checkLimit, hc]
        split
        · exact ⟨hc, hr, Nat.le_add_right _ _⟩
        · by_cases hm : codec.config.maxSize < r.pending.length
          · rw [if_pos hm]
            exact ⟨hc, hr, Nat.le_add_right _ _⟩
          · rw [if_neg hm]
            exact hretry (Nat.le_of_not_lt hm)

theorem readValue_kept {s : Shape} (hc : r.codec = codec)
    (hr : r.pending.Holds (codec.config.maxSize + bufferSize)) :
    Kept codec (codec.config.maxSize + bufferSize) r.pending.offset (readValue s r) :=
  attempt_kept (steady_decodeValue r.codec.config s) hc hr

theorem holds_afterCalls {calls : List Shape} {r' : Reader} {p' n' : Nat} (hc : r.codec = codec)
    (hr : r.pending.Holds (codec.config.maxSize + bufferSize))
    (h : afterCalls data calls r p n = (r', p', n')) :
    r'.codec = codec ∧ r'.pending.Holds (codec.config.maxSize + bufferSize) := by
  induction calls generalizing r p n with
  | nil =>
    cases h
    exact ⟨hc, hr⟩
  | cons s calls ih =>
    have hstep := readValue_kept (s := s) hc hr
    rw [afterCalls] at h
    cases hv : readValue s r with
    | error e r₁ =>
      rw [hv] at h hstep
      exact ih hstep.1 hstep.2.1 h
    | ok x r₁ =>
      rw [hv] at h hstep
      cases x with
      | none => exact ih hstep.1 hstep.2.1 h
      | some v =>
        dsimp only at h
        split at h
        · exact ih hstep.1 hstep.2.1 h
        · exact ih hstep.1 hstep.2.1 h

end Reader

namespace ItemStream

open ChunkEvent Reader

variable {α : Type} {decoder : ItemDecoder α} {data : Bytes} {max bound p n : Nat} {q : Pending}
  {events : List ChunkEvent} {s : ItemStream}

structure Kept (max bound : Nat) (s : ItemStream) : Prop where
  holds : s.pending.Holds (max + bound)
  chunks : ∀ bs, .chunk bs ∈ s.events → bs.length ≤ bound

theorem kept_of_decode (hd : Steady decoder) (hq : q.Holds (max + bound))
    (hb : ∀ bs, .chunk bs ∈ events → bs.length ≤ bound) {x : α} {used : Nat}
    (hx : decoder q.bytes = .ok (x, used)) (done : Bool) :
    Kept max bound ⟨events, ⟨q.buffer, q.start + used, q.offset + used, q.count + 1⟩, done⟩ ∧
      q.offset + used ≤ q.offset + (max + bound) := by
  have hu := hd.used_le hx
  refine ⟨⟨hq.moved hu, hb⟩, Nat.add_le_add_left ?_ _⟩
  rw [Pending.length_bytes] at hu
  exact Nat.le_trans hu hq.length_le

theorem attempt_kept (hd : Steady decoder) (hq : q.Holds (max + bound))
    (hb : ∀ bs, .chunk bs ∈ events → bs.length ≤ bound) :
    match attempt decoder max events q with
    | some (_, s) => Kept max bound s ∧ s.pending.offset ≤ q.offset + (max + bound)
    | none => q.length ≤ max := by
  rw [attempt_eq]
  by_cases hempty : q.isEmpty
  · rw [if_pos hempty, Pending.length_of_isEmpty hempty]
    exact Nat.zero_le _
  · rw [if_neg hempty]
    cases hx : decoder q.bytes with
    | ok y => exact kept_of_decode hd hq hb hx false
    | error e =>
      dsimp only
      by_cases hi : e.isIncomplete
      · rw [if_pos hi]
        by_cases hm : max < q.length
        · rw [if_pos hm]
          exact ⟨⟨hq, hb⟩, Nat.le_add_right _ _⟩
        · rw [if_neg hm]
          exact Nat.le_of_not_lt hm
      · rw [if_neg hi]
        exact ⟨⟨hq, hb⟩, Nat.le_add_right _ _⟩

theorem finish_kept (hd : Steady decoder) (hq : q.Holds (max + bound)) :
    Kept max bound (finish decoder q).2 ∧ (finish decoder q).2.pending.offset ≤ q.offset + (max + bound) := by
  have hnone : ∀ bs, ChunkEvent.chunk bs ∈ [] → bs.length ≤ bound := nofun
  rw [finish, Pending.decode]
  split
  · exact ⟨⟨hq, hnone⟩, Nat.le_add_right _ _⟩
  · cases hx : decoder q.bytes with
    | ok y => exact kept_of_decode hd hq hnone hx true
    | error e => exact ⟨⟨hq, hnone⟩, Nat.le_add_right _ _⟩

theorem advance_kept (hd : Steady decoder) (hq : q.Holds (max + bound))
    (hb : ∀ bs, .chunk bs ∈ events → bs.length ≤ bound) :
    Kept max bound (advance decoder max events q).2 ∧
      (advance decoder max events q).2.pending.offset ≤ q.offset + (max + bound) := by
  induction events generalizing q with
  | nil =>
    have hattempt := attempt_kept hd hq hb
    rw [advance]
    generalize attempt decoder max [] q = answer at hattempt
    cases answer with
    | some answer => exact hattempt
    | none => exact finish_kept hd hq
  | cons x events ih =>
    have hattempt := attempt_kept hd hq hb
    have hrest : ∀ bs, .chunk bs ∈ events → bs.length ≤ bound := fun bs h => hb bs (List.mem_cons_of_mem _ h)
    rw [advance.eq_def]
    generalize attempt decoder max (x :: events) q = answer at hattempt
    cases answer with
    | some answer => exact hattempt
    | none =>
      cases x with
      | notReady => exact ⟨⟨hq, hrest⟩, Nat.le_add_right _ _⟩
      | chunk bs =>
        -- The attempt leaves no more than the limit, so with the chunk the bytes are within the bound.
        have hnext := ih (hq.extended (Nat.add_le_add hattempt (hb bs List.mem_cons_self))) hrest
        rwa [Pending.offset_extend] at hnext

theorem poll_kept (hd : Steady decoder) (hs : Kept max bound s) :
    Kept max bound (poll decoder max s).2 ∧
      (poll decoder max s).2.pending.offset ≤ s.pending.offset + (max + bound) := by
  rw [poll]
  split
  · exact ⟨hs, Nat.le_add_right _ _⟩
  · exact advance_kept hd hs.holds hs.chunks

theorem at_poll (hd : Steady decoder) (hs : At data p n s) : ∃ p' n', At data p' n' (poll decoder max s).2 := by
  cases hdone : s.done with
  | true =>
    rw [poll, hdone, if_pos rfl]
    exact ⟨p, n, hs⟩
  | false =>
    have hsettles : Settles decoder max data p n s.events s.pending (poll decoder max s) :=
      poll_settles hd hs hdone
    generalize poll decoder max s = answer at hsettles
    rcases hsettles.cases with h | h
    · cases h with
      | notReady hs' => exact ⟨p, n, hs'⟩
      | item _ hs' => exact ⟨_, _, hs'⟩
      | failed _ hs' => exact ⟨p, n, hs'⟩
      | ended _ hs' => exact ⟨p, n, hs'⟩
    · cases h with
      | mk _ hs' => exact ⟨p, n, hs'⟩

theorem polls_kept (hd : Steady decoder) (hs : Kept max bound s) (hat : At data p n s) (k : Nat) :
    Kept max bound (polls decoder max k s).2 ∧ ∃ p' n', At data p' n' (polls decoder max k s).2 := by
  induction k generalizing p n s with
  | zero => exact ⟨hs, p, n, hat⟩
  | succ k ih =>
    obtain ⟨p', n', hat'⟩ := at_poll hd hat
    rw [polls_succ]
    exact ih (poll_kept hd hs).1 hat'

theorem used_le_of_item (hd : Steady decoder) (hs : Kept max bound s) (hat : At data p n s) {x : α}
    {s' : ItemStream} (h : poll decoder max s = (.item x, s')) :
    ∃ used, decoder (data.drop p) = .ok (x, used) ∧ used ≤ max + bound := by
  have hle := (poll_kept hd hs).2
  cases hdone : s.done with
  | true =>
    rw [poll, hdone, if_pos rfl] at h
    cases h
  | false =>
    have hsettles : Settles decoder max data p n s.events s.pending (poll decoder max s) :=
      poll_settles hd hat hdone
    rw [h] at hsettles hle
    rcases hsettles.cases with hserved | hgiven
    · cases hserved with
      | item ho hat' =>
        obtain ⟨used, hx, rfl, -⟩ := oneShot_eq_some ho
        refine ⟨used, hx, ?_⟩
        rw [hat'.offset, hat.offset] at hle
        exact Nat.le_of_add_le_add_left hle
    · cases hgiven

end ItemStream

namespace Reader

theorem used_le_of_readValue {codec : Codec} {data : Bytes} {p n : Nat} {r r' : Reader} {s : Shape} {v : Value}
    (hr : r.pending.Holds (codec.config.maxSize + bufferSize)) (hat : At codec data p n r)
    (h : readValue s r = .ok (some v) r') :
    ∃ used, decodeValue codec.config s (data.drop p) = .ok (v, used) ∧
      used ≤ codec.config.maxSize + bufferSize := by
  have hkept := readValue_kept (s := s) hat.codec_eq hr
  have hstep := at_of_readValue (s := s) hat
  rw [h] at hkept hstep
  obtain ⟨used, hx, hat'⟩ := hstep
  refine ⟨used, hx, ?_⟩
  have hle := hkept.2.2
  rw [hat'.offset, hat.offset] at hle
  exact Nat.le_of_add_le_add_left hle

theorem outcomes_readValue {codec : Codec} {s : Shape} {source : List ReadEvent} (hs : Chunked source)
    (hq : Quiet source) (hl : WithinLimit (decodeValue codec.config s) codec.config.maxSize (delivered source))
    (k : Nat) :
    outcomes (readValue s) k { source, codec } =
      shots (decodeValue codec.config s) (delivered source) k 0 0 := by
  refine outcomes_eq_shots (fun hp hr => ?_) .first (At.start hs codec) hq k
  exact (readValue_settles s hr).served fun ⟨_, k, _, ho⟩ => hl _ _ hp k ho

/-- An integer of three bytes where the limit is one: whether it is refused depends on the reads. -/
theorem outcomes_of_cut :
    let codec : Codec := { config := { maxSize := 1 } }
    let whole : List ReadEvent := [.data [2, 1, 0x9d]]
    let parts : List ReadEvent := [.data [2], .data [1], .data [0x9d]]
    Chunked whole ∧ Chunked parts ∧ delivered whole = delivered parts ∧
      encodeValue codec.config (.int .u16) (.int (.ofUnsigned 413)) = .error (.tooLong 1 3) ∧
      outcomes (readValue (.int .u16)) 1 { source := whole, codec } =
        [.ok (some (.int (.ofUnsigned 413)))] ∧
      outcomes (readValue (.int .u16)) 1 { source := parts, codec } =
        [.error (.nested 0 (.stream 0) (.tooLong 1 2))] := by
  intro codec whole parts
  refine ⟨?_, ?_, rfl, ?_, ?_, ?_⟩
  · simp [whole, Chunked, bufferSize]
  · simp [parts, Chunked, bufferSize]
  · rfl
  · rfl
  · rfl

end Reader

open Reader ItemStream

/-- Data within the limit give the same outcomes whatever the reads or chunks are. In any case a call or a
poll refuses an item exactly if, at one of its attempts, the bytes at hand exceed the limit and are no whole
item, and what is given out exceeds the limit by one read or chunk at most. -/
theorem limit_at_attempts (codec : Codec) (shape : Shape) (data : Bytes) (stream : DatumStream) :
    (WithinLimit (decodeValue codec.config shape) codec.config.maxSize data →
      ∀ source source', Chunked source → Chunked source' → Quiet source → Quiet source' →
        delivered source = data → delivered source' = data → ∀ k,
        outcomes (readValue shape) k { source, codec } =
          outcomes (readValue shape) k { source := source', codec }) ∧
    (∀ source, Chunked source → delivered source = data → ∀ calls r p n,
      afterCalls data calls { source, codec } 0 0 = (r, p, n) →
      Reader.Settles (decodeValue codec.config shape) codec data p n r (readValue shape r) ∧
      ∀ v r', readValue shape r = .ok (some v) r' →
        ∃ used, decodeValue codec.config shape (data.drop p) = .ok (v, used) ∧
          used ≤ codec.config.maxSize + bufferSize) ∧
    (WithinLimit (decodeDatum stream.config stream.shape stream.type) stream.config.maxSize data →
      ∀ events events', ChunkEvent.delivered events = data → ChunkEvent.delivered events' = data → ∀ k k',
        let (answers, last) := DatumStream.polls k { stream with items := { events } }
        let (answers', _) := DatumStream.polls k' { stream with items := { events := events' } }
        last.items.done → settled answers' <+: settled answers) ∧
    (∀ events bound, ChunkEvent.delivered events = data →
      (∀ bs, .chunk bs ∈ events → bs.length ≤ bound) → ∀ k,
      let decoder := decodeDatum stream.config stream.shape stream.type
      let s := (DatumStream.polls k { stream with items := { events } }).2.items
      ∃ p n, ItemStream.At data p n s ∧
        (s.done = false → ItemStream.Settles decoder stream.config.maxSize data p n s.events s.pending
          (ItemStream.poll decoder stream.config.maxSize s)) ∧
        ∀ x s', ItemStream.poll decoder stream.config.maxSize s = (.item x, s') →
          ∃ used, decoder (data.drop p) = .ok (x, used) ∧ used ≤ stream.config.maxSize + bound) := by
  refine ⟨?_, ?_, ?_, ?_⟩
  · rintro hl source source' hs hs' hq hq' rfl hsame k
    rw [outcomes_readValue hs hq hl, outcomes_readValue hs' hq' (hsame ▸ hl), hsame]
  · rintro source hs rfl calls r p n hr
    have hat := at_afterCalls (At.start hs codec) hr
    have hstart : Pending.Holds (codec.config.maxSize + bufferSize) {} := ⟨Nat.le_refl _, Nat.zero_le _⟩
    obtain ⟨-, hholds⟩ := holds_afterCalls rfl hstart hr
    exact ⟨readValue_settles shape hat, fun v r' h => used_le_of_readValue hholds hat h⟩
  · intro hl events events' hd hd' k k'
    have hsteady := steady_decodeDatum stream.config stream.shape stream.type
    have hat : ItemStream.At data 0 0 { events } := hd ▸ Pending.Stands.start _
    have hat' : ItemStream.At data 0 0 { events := events' } := hd' ▸ Pending.Stands.start _
    obtain ⟨_, _, ha, -⟩ := polls_answered hsteady hl .first hat rfl k
    obtain ⟨_, _, ha', -⟩ := polls_answered hsteady hl .first hat' rfl k'
    rw [DatumStream.polls_eq, DatumStream.polls_eq]
    exact fun hdone => ha.settled_prefix hdone ha'
  · intro events bound hd hb k
    have hsteady := steady_decodeDatum stream.config stream.shape stream.type
    have hat : ItemStream.At data 0 0 { events } := hd ▸ Pending.Stands.start _
    have hstart : ItemStream.Kept stream.config.maxSize bound { events } :=
      ⟨⟨Nat.le_refl _, Nat.zero_le _⟩, hb⟩
    obtain ⟨hkept, p, n, hat'⟩ := polls_kept hsteady hstart hat k
    rw [DatumStream.polls_eq]
    exact ⟨p, n, hat', poll_settles hsteady hat', fun x s' => used_le_of_item hsteady hkept hat'⟩

end ShapeCodec
