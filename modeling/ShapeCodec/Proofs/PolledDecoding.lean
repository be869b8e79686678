import ShapeCodec.Stream.Polled
import ShapeCodec.Proofs.BufferedReading
import ShapeCodec.Proofs.CodecShapes

namespace ShapeCodec

namespace ChunkEvent

def delivered : List ChunkEvent → Bytes
  | [] => []
  | .chunk bs :: events => bs ++ delivered events
  | .notReady :: events => delivered events

def atHand : Nat → List ChunkEvent → List Nat
  | m, [] => [m]
  | m, .notReady :: _ => [m]
  | m, .chunk bs :: events => m :: atHand (m + bs.length) events

theorem mem_atHand_self (m : Nat) (events : List ChunkEvent) : m ∈ atHand m events := by
  cases events with
  | nil => exact List.mem_singleton_self m
  | cons x events => cases x <;> exact List.mem_cons_self

theorem le_of_mem_atHand {m k : Nat} {events : List ChunkEvent} (h : k ∈ atHand m events) : m ≤ k := by
  induction events generalizing m with
  | nil => exact (List.mem_singleton.mp h).ge
  | cons x events ih =>
    cases x with
    | notReady => exact (List.mem_singleton.mp h).ge
    | chunk bs =>
      rcases List.mem_cons.mp h with rfl | h
      · exact Nat.le_refl _
      · exact Nat.le_trans (Nat.le_add_right _ _) (ih h)

def waits : List ChunkEvent → Nat
  | [] => 0
  | .chunk _ :: events => waits events
  | .notReady :: events => waits events + 1

end ChunkEvent

open ChunkEvent Reader

namespace ItemStream

variable {α : Type} {decoder : ItemDecoder α} {data : Bytes} {max p n : Nat} {q : Pending}
  {events : List ChunkEvent} {s : ItemStream}

def At (data : Bytes) (p n : Nat) (s : ItemStream) : Prop :=
  s.pending.Stands data p n (delivered s.events)

inductive Served (decoder : ItemDecoder α) (data : Bytes) (p n w : Nat) : Polled α × ItemStream → Prop
  | notReady {s : ItemStream} : At data p n s → s.done = false → waits s.events + 1 = w →
      Served decoder data p n w (.notReady, s)
  | item {x : α} {p' n' : Nat} {s : ItemStream} : oneShot decoder data p n = (.ok (some x), p', n') →
      At data p' n' s → s.done = false → waits s.events = w → Served decoder data p n w (.item x, s)
  | failed {e : Error} {s : ItemStream} : oneShot decoder data p n = (.error e, p, n) →
      At data p n s → s.done = true → waits s.events = w → Served decoder data p n w (.failed e, s)
  | ended {s : ItemStream} : oneShot decoder data p n = (.ok none, p, n) →
      At data p n s → s.done = true → waits s.events = w → Served decoder data p n w (.ended, s)

inductive GivenUp (decoder : ItemDecoder α) (max : Nat) (data : Bytes) (p n : Nat) : Polled α × ItemStream → Prop
  | mk {k : Nat} {s : ItemStream} : Overlong decoder max (data.drop p) k → At data p n s → s.done = true →
      GivenUp decoder max data p n (.failed (.nested p (.stream n) (.tooLong max k)), s)

def PastLimit (decoder : ItemDecoder α) (max : Nat) (rest : Bytes) (events : List ChunkEvent) (q : Pending) :
    Prop :=
  ∃ k ∈ atHand q.length events, Overlong decoder max rest k

structure Settles (decoder : ItemDecoder α) (max : Nat) (data : Bytes) (p n : Nat) (events : List ChunkEvent)
    (q : Pending) (answer : Polled α × ItemStream) : Prop where
  givenUp : PastLimit decoder max (data.drop p) events q → GivenUp decoder max data p n answer
  served : ¬ PastLimit decoder max (data.drop p) events q → Served decoder data p n (waits events) answer

theorem Settles.of_served {answer : Polled α × ItemStream}
    (hk : ∀ k ∈ atHand q.length events, ¬ Overlong decoder max (data.drop p) k)
    (h : Served decoder data p n (waits events) answer) : Settles decoder max data p n events q answer :=
  ⟨fun ⟨k, hm, ho⟩ => absurd ho (hk k hm), fun _ => h⟩

theorem Settles.cases {answer : Polled α × ItemStream} (h : Settles decoder max data p n events q answer) :
    Served decoder data p n (waits events) answer ∨ GivenUp decoder max data p n answer := by
  by_cases hp : PastLimit decoder max (data.drop p) events q
  · exact .inr (h.givenUp hp)
  · exact .inl (h.served hp)

theorem attempt_eq (decoder : ItemDecoder α) (max : Nat) (events : List ChunkEvent) (q : Pending) :
    attempt decoder max events q =
      if q.isEmpty then none
      else
        match decoder q.bytes with
        | .ok (x, used) =>
          some (.item x, { events, pending := ⟨q.buffer, q.start + used, q.offset + used, q.count + 1⟩ })
        | .error e =>
          if e.isIncomplete then
            if max < q.length then some (.failed (q.locate (.tooLong max q.length)), ⟨events, q, true⟩)
            else none
          else some (.failed (q.locate e), ⟨events, q, true⟩) := by
  rw [attempt, Pending.decode]
  split
  · rfl
  · cases decoder q.bytes with
    | ok y => rfl
    | error e =>
      have hi : (q.locate e).isIncomplete = e.isIncomplete := rfl
      dsimp only
      rw [hi, Pending.checkLimit]
      by_cases hm : max < q.length <;> simp [hm]

theorem attempt_cases (max : Nat) (hd : Steady decoder) (hq : q.Stands data p n (delivered events)) :
    (∃ answer, attempt decoder max events q = some answer ∧ Settles decoder max data p n events q answer) ∨
      (attempt decoder max events q = none ∧ ¬ Overlong decoder max (data.drop p) q.length ∧
        (q.isEmpty ∨ ¬ q.isEmpty ∧ ∃ e, decoder q.bytes = .error e ∧ e.isIncomplete)) := by
  rw [attempt_eq]
  by_cases hb : q.isEmpty
  · refine .inr ⟨if_pos hb, ?_, .inl hb⟩
    rintro ⟨hmax, -⟩
    rw [Pending.isEmpty_iff hq.start_le] at hb
    rw [← Pending.length_bytes, hb] at hmax
    exact Nat.not_lt_zero _ hmax
  · have hne : q.bytes ≠ [] := fun h => hb ((Pending.isEmpty_iff hq.start_le).mpr h)
    rw [if_neg hb]
    cases hx : decoder q.bytes with
    | ok y =>
      obtain ⟨x, used⟩ := y
      refine .inl ⟨_, rfl, .of_served (fun k hk => not_overlong hd hq hne ?_ (le_of_mem_atHand hk)) ?_⟩
      · intro e he
        rw [hx] at he
        cases he
      · exact .item (oneShot_ok hd hq hne hx) (hq.moved (hd.used_le hx)) rfl rfl
    | error e =>
      dsimp only
      by_cases hi : e.isIncomplete
      · rw [if_pos hi]
        by_cases hmax : max < q.length
        · rw [if_pos hmax, hq.locate]
          have hover := overlong_length hq hx hi hmax
          exact .inl ⟨_, rfl, fun _ => .mk hover hq rfl, fun h => absurd ⟨_, mem_atHand_self _ _, hover⟩ h⟩
        · rw [if_neg hmax]
          exact .inr ⟨rfl, fun h => hmax h.1, .inr ⟨hb, e, rfl, hi⟩⟩
      · rw [if_neg hi, hq.locate]
        rw [Bool.not_eq_true] at hi
        refine .inl ⟨_, rfl, .of_served (fun k hk => not_overlong hd hq hne ?_ (le_of_mem_atHand hk)) ?_⟩
        · intro e' he'
          rw [hx] at he'
          cases he'
          exact hi
        · exact .failed (oneShot_error hd hq hne hx (.inl hi)) hq rfl rfl

theorem advance_settles (hd : Steady decoder) (hq : q.Stands data p n (delivered events)) :
    Settles decoder max data p n events q (advance decoder max events q) := by
  induction events generalizing q with
  | nil =>
    rw [advance]
    rcases attempt_cases max hd hq with ⟨answer, ha, h⟩ | ⟨ha, hnow, hrest⟩
    · rw [ha]
      exact h
    · rw [ha]
      refine .of_served (List.forall_mem_singleton.mpr hnow) ?_
      dsimp only
      rw [finish]
      rcases hrest with hb | ⟨hb, e, he, hi⟩
      · rw [if_pos hb]
        exact .ended (oneShot_none hq ((Pending.isEmpty_iff hq.start_le).mp hb)) hq rfl rfl
      · have hne : q.bytes ≠ [] := fun h => hb ((Pending.isEmpty_iff hq.start_le).mpr h)
        rw [if_neg hb, Pending.decode, he]
        dsimp only
        rw [hq.locate]
        exact .failed (oneShot_error hd hq hne he (.inr rfl)) hq rfl rfl
  | cons x events ih =>
    rw [advance.eq_def]
    rcases attempt_cases max hd hq with ⟨answer, ha, h⟩ | ⟨ha, hnow, -⟩
    · rw [ha]
      exact h
    · rw [ha]
      cases x with
      | notReady =>
        exact .of_served (List.forall_mem_singleton.mpr hnow) (.notReady hq rfl rfl)
      | chunk bs =>
        have hnext := ih hq.extended
        -- The attempt before the chunk is settled, so the limit is met at the others or not at all.
        have hpast : PastLimit decoder max (data.drop p) events (q.extend bs) ↔
            PastLimit decoder max (data.drop p) (.chunk bs :: events) q := by
          rw [PastLimit, PastLimit, hq.length_extend, atHand, List.exists_mem_cons_iff, or_iff_right hnow]
        exact ⟨fun h => hnext.givenUp (hpast.mpr h), fun h => hnext.served fun h' => h (hpast.mp h')⟩

theorem poll_settles (hd : Steady decoder) (hs : At data p n s) (hdone : s.done = false) :
    Settles decoder max data p n s.events s.pending (poll decoder max s) := by
  rw [poll, hdone, if_neg Bool.false_ne_true]
  exact advance_settles hd hs

def polls (decoder : ItemDecoder α) (max : Nat) : Nat → ItemStream → List (Polled α) × ItemStream
  | 0, s => ([], s)
  | k + 1, s =>
    let (answer, s) := poll decoder max s
    let (answers, s) := polls decoder max k s
    (answer :: answers, s)

theorem polls_succ (decoder : ItemDecoder α) (max k : Nat) (s : ItemStream) :
    polls decoder max (k + 1) s =
      ((poll decoder max s).1 :: (polls decoder max k (poll decoder max s).2).1,
        (polls decoder max k (poll decoder max s).2).2) :=
  rfl

theorem polls_of_done (hdone : s.done = true) (k : Nat) :
    polls decoder max k s = (List.replicate k .ended, s) := by
  have hp : poll decoder max s = (.ended, s) := by rw [poll, hdone, if_pos rfl]
  induction k with
  | zero => rfl
  | succ k ih => rw [polls_succ, hp, ih, List.replicate_succ]

/-- The answers are those of one-shot decoding from a place in the data on, with any number of others
between them that say the source is not ready. They lead to another place, and maybe to the end of the
stream, after which nothing else is answered. -/
inductive Answered (decoder : ItemDecoder α) (data : Bytes) :
    Nat → Nat → List (Polled α) → Nat → Nat → Bool → Prop
  | start (p n : Nat) : Answered decoder data p n [] p n false
  | notReady {p n p' n' : Nat} {answers : List (Polled α)} {done : Bool} :
    Answered decoder data p n answers p' n' done → Answered decoder data p n (.notReady :: answers) p' n' done
  | item {p n p' n' p'' n'' : Nat} {x : α} {answers : List (Polled α)} {done : Bool} :
    oneShot decoder data p n = (.ok (some x), p', n') → Answered decoder data p' n' answers p'' n'' done →
      Answered decoder data p n (.item x :: answers) p'' n'' done
  | failed {p n : Nat} {e : Error} (k : Nat) : oneShot decoder data p n = (.error e, p, n) →
      Answered decoder data p n (.failed e :: .replicate k .ended) p n true
  | ended {p n : Nat} (k : Nat) : oneShot decoder data p n = (.ok none, p, n) →
      Answered decoder data p n (.ended :: .replicate k .ended) p n true

def isNotReady : Polled α → Bool
  | .notReady => true
  | _ => false

theorem countP_ended (k : Nat) : (List.replicate k (.ended : Polled α)).countP isNotReady = 0 := by
  rw [List.countP_eq_zero]
  intro a ha
  rw [List.eq_of_mem_replicate ha]
  exact Bool.false_ne_true

theorem polls_answered (hd : Steady decoder) (hl : WithinLimit decoder max data) (hp : Starts decoder data p n)
    (hs : At data p n s) (hdone : s.done = false) (k : Nat) :
    ∃ p' n', Answered decoder data p n (polls decoder max k s).1 p' n' (polls decoder max k s).2.done ∧
      At data p' n' (polls decoder max k s).2 ∧
      (polls decoder max k s).1.countP isNotReady + waits (polls decoder max k s).2.events = waits s.events := by
  induction k generalizing p n s with
  | zero =>
    refine ⟨p, n, ?_, hs, Nat.zero_add _⟩
    rw [polls, hdone]
    exact .start p n
  | succ k ih =>
    have hserved := (poll_settles hd hs hdone).served fun ⟨k, _, ho⟩ => hl p n hp k ho
    rw [polls_succ]
    generalize poll decoder max s = answer at hserved
    cases hserved with
    | notReady hs' hdone' hw =>
      obtain ⟨p', n', ha, hat, hc⟩ := ih hp hs' hdone'
      refine ⟨p', n', .notReady ha, hat, ?_⟩
      dsimp only
      rw [List.countP_cons_of_pos rfl]
      omega
    | item ho hs' hdone' hw =>
      obtain ⟨p', n', ha, hat, hc⟩ := ih (hp.next ho) hs' hdone'
      refine ⟨p', n', .item ho ha, hat, ?_⟩
      dsimp only
      rw [List.countP_cons_of_neg Bool.false_ne_true]
      omega
    | failed ho hs' hdone' hw =>
      dsimp only
      rw [polls_of_done hdone']
      dsimp only
      rw [hdone', List.countP_cons_of_neg Bool.false_ne_true, countP_ended, Nat.zero_add]
      exact ⟨p, n, .failed k ho, hs', hw⟩
    | ended ho hs' hdone' hw =>
      dsimp only
      rw [polls_of_done hdone']
      dsimp only
      rw [hdone', List.countP_cons_of_neg Bool.false_ne_true, countP_ended, Nat.zero_add]
      exact ⟨p, n, .ended k ho, hs', hw⟩

def isFinal : Polled α → Bool
  | .failed _ | .ended => true
  | .notReady | .item _ => false

theorem Answered.done_iff {answers : List (Polled α)} {p' n' : Nat} {done : Bool}
    (h : Answered decoder data p n answers p' n' done) : done = true ↔ ∃ a ∈ answers, isFinal a := by
  induction h with
  | start => simp
  | notReady _ ih => simp [ih, isFinal]
  | item _ _ ih => simp [ih, isFinal]
  | failed => exact ⟨fun _ => ⟨_, List.mem_cons_self, rfl⟩, fun _ => rfl⟩
  | ended => exact ⟨fun _ => ⟨_, List.mem_cons_self, rfl⟩, fun _ => rfl⟩

/-- What the answers say of the data: the items, and the end or the failure that no other follows. -/
def settled : List (Polled α) → List (Except Error (Option α))
  | [] => []
  | .notReady :: answers => settled answers
  | .item x :: answers => .ok (some x) :: settled answers
  | .failed e :: _ => [.error e]
  | .ended :: _ => [.ok none]

theorem Answered.settled_eq {answers : List (Polled α)} {p' n' : Nat} {done : Bool}
    (h : Answered decoder data p n answers p' n' done) :
    settled answers = shots decoder data (settled answers).length p n := by
  induction h with
  | start => rfl
  | notReady _ ih => exact ih
  | item ho _ ih => rw [settled, List.length_cons, shots_succ ho, ← ih]
  | failed _ ho => rw [settled, List.length_singleton, shots_succ ho, shots]
  | ended _ ho => rw [settled, List.length_singleton, shots_succ ho, shots]

theorem Answered.settled_item {answers : List (Polled α)} {p' n' p'' n'' : Nat} {done : Bool} {x : α}
    (h : Answered decoder data p n answers p'' n'' done) (ho : oneShot decoder data p n = (.ok (some x), p', n')) :
    settled answers = [] ∨ ∃ more p₁ n₁, settled answers = .ok (some x) :: settled more ∧
      Answered decoder data p' n' more p₁ n₁ done := by
  induction h with
  | start => exact .inl rfl
  | notReady _ ih => exact ih ho
  | item ho' hrest _ =>
    rw [ho] at ho'
    cases ho'
    exact .inr ⟨_, _, _, rfl, hrest⟩
  | failed _ ho' =>
    rw [ho] at ho'
    cases ho'
  | ended _ ho' =>
    rw [ho] at ho'
    cases ho'

theorem Answered.settled_final {answers : List (Polled α)} {p' n' p'' n'' : Nat} {done : Bool}
    {x : Except Error (Option α)} (h : Answered decoder data p n answers p'' n'' done)
    (ho : oneShot decoder data p n = (x, p', n')) (hx : ∀ y, x ≠ .ok (some y)) : settled answers <+: [x] := by
  induction h with
  | start => exact List.nil_prefix
  | notReady _ ih => exact ih ho
  | item ho' _ _ =>
    rw [ho] at ho'
    cases ho'
    exact absurd rfl (hx _)
  | failed _ ho' =>
    rw [ho] at ho'
    cases ho'
    exact List.prefix_rfl
  | ended _ ho' =>
    rw [ho] at ho'
    cases ho'
    exact List.prefix_rfl

theorem Answered.settled_prefix {answers more : List (Polled α)} {p₁ n₁ p₂ n₂ : Nat} {done last : Bool}
    (h : Answered decoder data p n answers p₁ n₁ done) (hdone : done = true)
    (hm : Answered decoder data p n more p₂ n₂ last) : settled more <+: settled answers := by
  induction h generalizing more p₂ n₂ with
  | start => cases hdone
  | notReady _ ih => exact ih hdone hm
  | item ho _ ih =>
    rcases hm.settled_item ho with hnil | ⟨more', _, _, heq, hrest⟩
    · rw [hnil]
      exact List.nil_prefix
    · rw [heq, settled]
      exact (List.prefix_cons_inj _).mpr (ih hdone hrest)
  | failed _ ho => exact hm.settled_final ho nofun
  | ended _ ho => exact hm.settled_final ho nofun

end ItemStream

namespace Reader

theorem read_eq {r : Reader} {t : StaticType} {s : Shape} {codec' : Codec} (h : Codec.shapeOf t r.codec = .ok s codec') :
    read t r = next (decodeDatum codec'.config s t.type) { r with codec := codec' } := by
  rw [read, h]

end Reader

theorem steady_decodeDatum (c : Config) (s : Shape) (t : Ty) : Steady (decodeDatum c s t) where
  used_le h := by
    obtain ⟨⟨v, used⟩, hv, h⟩ := Except.bind_eq_ok.mp h
    obtain ⟨d, -, h⟩ := Except.bind_eq_ok.mp h
    cases h
    exact used_le_length hv
  decided hne more := (decided_decodeValue c s hne more).bind fun _ _ => Decided.refl _

namespace DatumStream

open ItemStream

def polls : Nat → DatumStream → List (Polled Datum) × DatumStream
  | 0, s => ([], s)
  | k + 1, s =>
    let (answer, s) := s.poll
    let (answers, s) := polls k s
    (answer :: answers, s)

theorem polls_eq (k : Nat) (s : DatumStream) :
    polls k s =
      ((ItemStream.polls (decodeDatum s.config s.shape s.type) s.config.maxSize k s.items).1,
        { s with items := (ItemStream.polls (decodeDatum s.config s.shape s.type) s.config.maxSize k s.items).2 }) := by
  induction k generalizing s with
  | zero => rfl
  | succ k ih =>
    rw [polls, poll]
    dsimp only
    rw [ih, ItemStream.polls_succ]

theorem ofCodec_eq_ok {t : StaticType} {codec codec' : Codec} {events : List ChunkEvent} {s : DatumStream}
    (h : ofCodec t events codec = .ok s codec') :
    Codec.shapeOf t codec = .ok s.shape codec' ∧ s.type = t.type ∧ s.config = codec.config ∧
      s.items = { events } := by
  have hbind : ofCodec t events codec =
      match Codec.shapeOf t codec with
      | .ok shape codec => .ok { type := t.type, shape, config := codec.config, items := { events } } codec
      | .error e codec => .error e codec := by
    rw [ofCodec]
    change EStateM.bind _ _ codec = _
    rw [EStateM.bind]
    cases Codec.shapeOf t codec <;> rfl
  rw [hbind] at h
  cases hs : Codec.shapeOf t codec with
  | error e codec₁ =>
    rw [hs] at h
    cases h
  | ok shape codec₁ =>
    rw [hs] at h
    cases h
    exact ⟨rfl, rfl, (Codec.shapeOf_eq_ok hs).1, rfl⟩

/-- Whenever the chunks come in and however they are cut, polls answer with what decoding all of the bytes
gives, one datum after another, up to the first failure or the end; no bytes are lost on the way, and a
reader over the same bytes gives the same. -/
theorem polls_eq_oneShot {t : StaticType} {codec codec' : Codec} {events : List ChunkEvent} {s : DatumStream}
    (hs : ofCodec t events codec = .ok s codec')
    (hl : WithinLimit (decodeDatum codec.config s.shape t.type) codec.config.maxSize (delivered events)) (k : Nat) :
    (∃ p n, Answered (decodeDatum codec.config s.shape t.type) (delivered events) 0 0 (polls k s).1 p n
        (polls k s).2.items.done ∧
      At (delivered events) p n (polls k s).2.items) ∧
    (polls k s).1.countP isNotReady + waits (polls k s).2.items.events = waits events ∧
    ((polls k s).2.items.done = true ↔ ∃ a ∈ (polls k s).1, isFinal a) ∧
    ∀ source, ReadEvent.Chunked source → ReadEvent.Quiet source →
      ReadEvent.delivered source = delivered events →
      Reader.outcomes (Reader.read t) (settled (polls k s).1).length { source, codec } =
        settled (polls k s).1 := by
  obtain ⟨hshape, htype, hconfig, hitems⟩ := ofCodec_eq_ok hs
  have hstart : At (delivered events) 0 0 { events } := Pending.Stands.start _
  obtain ⟨p, n, ha, hat, hc⟩ := polls_answered (steady_decodeDatum _ _ _) hl .first hstart rfl k
  rw [polls_eq, htype, hconfig, hitems]
  refine ⟨⟨p, n, ha, hat⟩, hc, ha.done_iff, fun source hsource hquiet hsame => ?_⟩
  obtain ⟨hsettings, hagain⟩ := Codec.shapeOf_eq_ok hshape
  have hcall {p n : Nat} {r : Reader} (hp : Starts (decodeDatum codec.config s.shape t.type) (delivered events) p n)
      (hr : Reader.At codec' (delivered events) p n r) :
      Reader.Served (decodeDatum codec.config s.shape t.type) codec' (delivered events) p n r
        (Reader.read t r) := by
    have hread : Reader.read t r = Reader.next (decodeDatum codec.config s.shape t.type) r := by
      rw [← hsettings, ← hr.codec_eq]
      exact Reader.read_eq (hr.codec_eq ▸ hagain)
    rw [hread]
    exact (Reader.next_settles (steady_decodeDatum _ _ _) hr).served fun ⟨_, k, _, ho⟩ =>
      hl p n hp k (hsettings ▸ ho)
  have hreader : Reader.At codec' (delivered events) 0 0 { source, codec := codec' } :=
    hsame ▸ Reader.At.start hsource codec'
  have hfirst : Reader.read t { source, codec } = Reader.read t { source, codec := codec' } := by
    rw [Reader.read_eq hshape, Reader.read_eq hagain]
  rw [Reader.outcomes_congr hfirst, Reader.outcomes_eq_shots hcall .first hreader hquiet]
  exact ha.settled_eq.symm

theorem polls_eq_oneShot_split :
    let t : StaticType := ⟨0, .seq .bool⟩
    let events : List ChunkEvent := [.notReady, .chunk [1], .chunk [], .notReady, .chunk [2, 1, 0, 1]]
    let s : DatumStream := { type := t.type, shape := .seq .bool, config := {}, items := { events } }
    let decoder := decodeDatum {} s.shape t.type
    ofCodec t events {} = .ok s (Codec.insert t s.shape {}) ∧
      WithinLimit decoder (2 ^ 24) (delivered events) ∧
      (∃ p n, Answered decoder (delivered events) 0 0 (polls 5 s).1 p n (polls 5 s).2.items.done ∧
        At (delivered events) p n (polls 5 s).2.items) ∧
      (polls 5 s).1.countP isNotReady + waits (polls 5 s).2.items.events = 2 ∧
      ((polls 5 s).2.items.done = true ↔ ∃ a ∈ (polls 5 s).1, isFinal a) ∧
      ∀ source, ReadEvent.Chunked source → ReadEvent.Quiet source →
        ReadEvent.delivered source = delivered events →
        Reader.outcomes (Reader.read t) (settled (polls 5 s).1).length { source } = settled (polls 5 s).1 := by
  intro t events s decoder
  have hs : ofCodec t events {} = .ok s (Codec.insert t s.shape {}) := rfl
  have hl : WithinLimit decoder (2 ^ 24) (delivered events) := .of_length (by decide)
  exact ⟨hs, hl, polls_eq_oneShot hs hl 5⟩

end DatumStream

end ShapeCodec
