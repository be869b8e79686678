import ShapeCodec.Stream.Reader
import ShapeCodec.Proofs.Prefixes

/-!
A reader over a source gives what decoding all of the bytes at once gives, however the source cuts them
into reads and wherever reads fail.
-/

namespace ShapeCodec

namespace ReadEvent

def delivered : List ReadEvent → Bytes
  | [] => []
  | .data bs :: events => bs ++ delivered events
  | .interrupted :: events => delivered events
  | .failure _ :: events => delivered events

def Chunked (source : List ReadEvent) : Prop :=
  ∀ bs, .data bs ∈ source → bs ≠ [] ∧ bs.length ≤ bufferSize

def Quiet (events : List ReadEvent) : Prop :=
  ∀ text, .failure text ∉ events

theorem delivered_append (xs ys : List ReadEvent) : delivered (xs ++ ys) = delivered xs ++ delivered ys := by
  induction xs with
  | nil => rfl
  | cons x xs ih => cases x <;> simp [delivered, ih]

theorem reads_le_append (xs ys : List ReadEvent) : reads ys ≤ reads (xs ++ ys) := by
  induction xs with
  | nil => exact Nat.le_refl _
  | cons x xs ih => cases x <;> simp only [List.cons_append, reads] <;> omega

theorem reads_pos (source : List ReadEvent) : 0 < reads source := by
  cases source with
  | nil => exact Nat.one_pos
  | cons x xs => cases x <;> simp only [reads] <;> omega

theorem quiet_nil : Quiet [] := fun _ => List.not_mem_nil

theorem Quiet.append {xs ys : List ReadEvent} (hx : Quiet xs) (hy : Quiet ys) : Quiet (xs ++ ys) := by
  intro text h
  rcases List.mem_append.mp h with h | h
  · exact hx text h
  · exact hy text h

theorem Chunked.rest {xs ys : List ReadEvent} {x : ReadEvent} (h : Chunked (xs ++ x :: ys)) : Chunked ys :=
  fun bs hb => h bs (List.mem_append_right _ (List.mem_cons_of_mem _ hb))

theorem quiet_interrupted {xs : List ReadEvent} (h : ∀ x ∈ xs, x = .interrupted) : Quiet xs := by
  intro text hm
  cases h _ hm

theorem delivered_interrupted {xs : List ReadEvent} (h : ∀ x ∈ xs, x = .interrupted) : delivered xs = [] := by
  induction xs with
  | nil => rfl
  | cons x xs ih =>
    obtain ⟨rfl, hx⟩ := List.forall_mem_cons.mp h
    exact ih hx

theorem read_cases {source : List ReadEvent} (hs : Chunked source) :
    ∃ quiet, (∀ x ∈ quiet, x = .interrupted) ∧
      ((source = quiet ∧ read source = (.ok [], [])) ∨
        (∃ text rest, source = quiet ++ .failure text :: rest ∧ read source = (.error text, rest)) ∨
        ∃ bs rest, source = quiet ++ .data bs :: rest ∧ read source = (.ok bs, rest)) := by
  induction source with
  | nil => exact ⟨[], nofun, .inl ⟨rfl, rfl⟩⟩
  | cons x source ih =>
    cases x with
    | data bs =>
      obtain ⟨-, hl⟩ := hs bs List.mem_cons_self
      exact ⟨[], nofun, .inr (.inr ⟨bs, source, rfl, by rw [read, if_pos hl]⟩)⟩
    | failure text => exact ⟨[], nofun, .inr (.inl ⟨text, source, rfl, rfl⟩)⟩
    | interrupted =>
      obtain ⟨quiet, hq, h⟩ := ih fun bs hb => hs bs (List.mem_cons_of_mem _ hb)
      refine ⟨.interrupted :: quiet, List.forall_mem_cons.mpr ⟨rfl, hq⟩, ?_⟩
      rcases h with ⟨rfl, hr⟩ | ⟨text, rest, rfl, hr⟩ | ⟨bs, rest, rfl, hr⟩
      · exact .inl ⟨rfl, hr⟩
      · exact .inr (.inl ⟨text, rest, rfl, hr⟩)
      · exact .inr (.inr ⟨bs, rest, rfl, hr⟩)

def atHand : Nat → List ReadEvent → List Nat
  | m, [] => [m]
  | m, .failure _ :: _ => [m]
  | m, .interrupted :: events => atHand m events
  | m, .data bs :: events => m :: atHand (m + bs.length) events

theorem atHand_append {xs : List ReadEvent} (h : ∀ x ∈ xs, x = .interrupted) (m : Nat) (ys : List ReadEvent) :
    atHand m (xs ++ ys) = atHand m ys := by
  induction xs with
  | nil => rfl
  | cons x xs ih =>
    obtain ⟨rfl, hx⟩ := List.forall_mem_cons.mp h
    exact ih hx

theorem mem_atHand_self (m : Nat) (source : List ReadEvent) : m ∈ atHand m source := by
  induction source with
  | nil => exact List.mem_singleton_self m
  | cons x source ih =>
    cases x with
    | data bs => exact List.mem_cons_self
    | interrupted => exact ih
    | failure text => exact List.mem_singleton_self m

theorem le_of_mem_atHand {m k : Nat} {source : List ReadEvent} (h : k ∈ atHand m source) : m ≤ k := by
  induction source generalizing m with
  | nil => exact (List.mem_singleton.mp h).ge
  | cons x source ih =>
    cases x with
    | data bs =>
      rcases List.mem_cons.mp h with rfl | h
      · exact Nat.le_refl _
      · exact Nat.le_trans (Nat.le_add_right _ _) (ih h)
    | interrupted => exact ih h
    | failure text => exact (List.mem_singleton.mp h).ge

end ReadEvent

namespace Pending

variable {data rest : Bytes} {p n : Nat} {q : Pending}

/-- The buffer holds what has come in of the data from `p` bytes on, after `n` items; the rest is yet to
come. -/
structure Stands (data : Bytes) (p n : Nat) (rest : Bytes) (q : Pending) : Prop where
  offset : q.offset = p
  count : q.count = n
  inside : p ≤ data.length
  start_le : q.start ≤ q.buffer.length
  unread : q.bytes ++ rest = data.drop p

theorem Stands.start (data : Bytes) : Stands data 0 0 data {} :=
  ⟨rfl, rfl, Nat.zero_le _, Nat.le_refl _, rfl⟩

theorem Stands.locate (h : Stands data p n rest q) (e : Error) : q.locate e = .nested p (.stream n) e := by
  rw [Pending.locate, h.offset, h.count]

theorem Stands.extended {bs : Bytes} (h : Stands data p n (bs ++ rest) q) :
    Stands data p n rest (q.extend bs) := by
  refine ⟨?_, ?_, h.inside, start_extend_le h.start_le bs, ?_⟩
  · rw [offset_extend, h.offset]
  · rw [count_extend, h.count]
  · rw [bytes_extend h.start_le, List.append_assoc, h.unread]

theorem Stands.length_extend (h : Stands data p n rest q) (bs : Bytes) :
    (q.extend bs).length = q.length + bs.length := by
  rw [← length_bytes, ← length_bytes, bytes_extend h.start_le, List.length_append]

theorem Stands.moved {used : Nat} (h : Stands data p n rest q) (hu : used ≤ q.bytes.length) :
    Stands data (p + used) (n + 1) rest ⟨q.buffer, q.start + used, q.offset + used, q.count + 1⟩ := by
  have hlen := congrArg List.length h.unread
  have hinside := h.inside
  have hstart := h.start_le
  rw [List.length_append, List.length_drop] at hlen
  refine ⟨?_, ?_, by omega, ?_, ?_⟩
  · rw [h.offset]
  · rw [h.count]
  · rw [length_bytes, Pending.length] at hu
    dsimp only
    omega
  · rw [← List.drop_drop, ← h.unread, List.drop_append_of_le_length hu, Pending.bytes, Pending.bytes,
      List.drop_drop]

theorem Stands.ne_length (h : Stands data p n rest q) (hne : q.bytes ≠ []) : p ≠ data.length := by
  rintro rfl
  have hunread := h.unread
  rw [List.drop_length] at hunread
  exact hne (List.append_eq_nil_iff.mp hunread).1

end Pending

open ReadEvent

namespace Reader

variable {α : Type} {decoder : ItemDecoder α} {codec : Codec} {data : Bytes} {p n : Nat} {r : Reader}

/-- The reader stands `p` bytes into the data, after `n` items: what it holds and what its source has yet
to deliver are the data from there on. -/
structure At (codec : Codec) (data : Bytes) (p n : Nat) (r : Reader) : Prop where
  codec_eq : r.codec = codec
  offset : r.pending.offset = p
  count : r.pending.count = n
  inside : p ≤ data.length
  start_le : r.pending.start ≤ r.pending.buffer.length
  unread : r.pending.bytes ++ delivered r.source = data.drop p
  chunked : Chunked r.source
  exhausted : r.ended → r.source = []

def oneShot (decoder : ItemDecoder α) (data : Bytes) (p n : Nat) :
    Except Error (Option α) × Nat × Nat :=
  if p = data.length then (.ok none, p, n)
  else
    match decoder (data.drop p) with
    | .ok (x, used) => (.ok (some x), p + used, n + 1)
    | .error e => (.error (.nested p (.stream n) e), p, n)

theorem oneShot_eq_some {x : α} {p' n' : Nat} (h : oneShot decoder data p n = (.ok (some x), p', n')) :
    ∃ used, decoder (data.drop p) = .ok (x, used) ∧ p' = p + used ∧ n' = n + 1 := by
  rw [oneShot] at h
  split at h
  · cases h
  · cases hd : decoder (data.drop p) with
    | error e =>
      rw [hd] at h
      cases h
    | ok y =>
      rw [hd] at h
      cases h
      exact ⟨y.2, rfl, rfl, rfl⟩

theorem oneShot_eq_none {p' n' : Nat} (h : oneShot decoder data p n = (.ok none, p', n')) : p' = p ∧ n' = n := by
  rw [oneShot] at h
  split at h
  · cases h
    exact ⟨rfl, rfl⟩
  · cases hd : decoder (data.drop p) with
    | error e =>
      rw [hd] at h
      cases h
    | ok y =>
      rw [hd] at h
      cases h

/-- A call from a place in the data that ends as it should: with the failure of the read that it meets, or
else with what one-shot decoding gives there. -/
inductive Served (decoder : ItemDecoder α) (codec : Codec) (data : Bytes) (p n : Nat) (r : Reader) :
    EStateM.Result Error Reader (Option α) → Prop
  | failed {turn : List ReadEvent} {text : String} {r' : Reader} :
    r.source = turn ++ .failure text :: r'.source → Quiet turn → At codec data p n r' →
      Served decoder codec data p n r (.error (.io text) r')
  | returned {turn : List ReadEvent} {x : Option α} {p' n' : Nat} {r' : Reader} :
    r.source = turn ++ r'.source → Quiet turn → oneShot decoder data p n = (.ok x, p', n') →
      At codec data p' n' r' → Served decoder codec data p n r (.ok x r')
  | refused {turn : List ReadEvent} {e : Error} {r' : Reader} :
    r.source = turn ++ r'.source → Quiet turn → oneShot decoder data p n = (.error e, p, n) →
      At codec data p n r' → Served decoder codec data p n r (.error e r')

def Overlong (decoder : ItemDecoder α) (max : Nat) (rest : Bytes) (k : Nat) : Prop :=
  max < k ∧ k ≤ rest.length ∧ ∃ e, decoder (rest.take k) = .error e ∧ e.isIncomplete

inductive GivenUp (decoder : ItemDecoder α) (codec : Codec) (data : Bytes) (p n : Nat) :
    EStateM.Result Error Reader (Option α) → Prop
  | mk {k : Nat} {r' : Reader} : Overlong decoder codec.config.maxSize (data.drop p) k →
      At codec data p n r' →
      GivenUp decoder codec data p n
        (.error (.nested p (.stream n) (.tooLong codec.config.maxSize k)) r')

theorem GivenUp.overlong {res : EStateM.Result Error Reader (Option α)}
    (h : GivenUp decoder codec data p n res) :
    ∃ k, Overlong decoder codec.config.maxSize (data.drop p) k := by
  cases h with
  | mk hk _ => exact ⟨_, hk⟩

theorem Served.after {pre : List ReadEvent} {r' : Reader}
    {res : EStateM.Result Error Reader (Option α)} (hpre : Quiet pre) (hs : r.source = pre ++ r'.source)
    (h : Served decoder codec data p n r' res) : Served decoder codec data p n r res := by
  cases h with
  | failed ht hq hr =>
    rw [ht, ← List.append_assoc] at hs
    exact .failed hs (hpre.append hq) hr
  | returned ht hq ho hr =>
    rw [ht, ← List.append_assoc] at hs
    exact .returned hs (hpre.append hq) ho hr
  | refused ht hq ho hr =>
    rw [ht, ← List.append_assoc] at hs
    exact .refused hs (hpre.append hq) ho hr

def retry (decoder : ItemDecoder α) (fuel : Nat) (r : Reader) : EStateM.Result Error Reader (Option α) :=
  match fill r with
  | .ok () r => attempt decoder fuel r
  | .error e r => .error e r

theorem retry_eq (decoder : ItemDecoder α) (fuel : Nat) (r : Reader) :
    (fill >>= fun _ => attempt decoder fuel) r = retry decoder fuel r := by
  change EStateM.bind _ _ r = _
  rw [EStateM.bind, retry]
  cases fill r <;> rfl

theorem attempt_succ (decoder : ItemDecoder α) (fuel : Nat) (r : Reader) :
    attempt decoder (fuel + 1) r =
      if r.pending.isEmpty then
        if r.ended then .ok none r else retry decoder fuel r
      else
        match r.pending.decode decoder with
        | .ok (x, pending) => .ok (some x) { r with pending }
        | .error e =>
          if !e.isIncomplete || r.ended then .error e r
          else
            match r.pending.checkLimit r.codec.config.maxSize with
            | .error e => .error e r
            | .ok () => retry decoder fuel r := by
  have hget (f : Reader → EStateM Error Reader (Option α)) : (get >>= f) r = f r r := rfl
  rw [attempt, hget]
  split
  · split
    · rfl
    · exact retry_eq decoder fuel r
  · cases r.pending.decode decoder with
    | ok x => rfl
    | error e =>
      dsimp only
      split
      · rfl
      · cases r.pending.checkLimit r.codec.config.maxSize with
        | error e => rfl
        | ok u => exact retry_eq decoder fuel r

def pace (r : Reader) : Nat :=
  if r.ended then 0 else reads r.source

/-- The decoder takes no more than it is given, and more bytes change neither a result nor a failure that
is final. -/
structure Steady (decoder : ItemDecoder α) : Prop where
  used_le : ∀ {input x used}, decoder input = .ok (x, used) → used ≤ input.length
  decided : ∀ {input}, input ≠ [] → ∀ more, Decided id (decoder input) (decoder (input ++ more))

theorem steady_decodeValue (c : Config) (s : Shape) : Steady (decodeValue c s) where
  used_le := used_le_length
  decided := decided_decodeValue c s

section Standing

variable {rest : Bytes} {q : Pending}

theorem oneShot_none (hq : q.Stands data p n []) (hb : q.bytes = []) :
    oneShot decoder data p n = (.ok none, p, n) := by
  have hunread := hq.unread
  rw [hb, List.append_nil] at hunread
  have hl := List.drop_eq_nil_iff.mp hunread.symm
  have := hq.inside
  rw [oneShot, if_pos (by omega)]

theorem decided_drop (hd : Steady decoder) (hq : q.Stands data p n rest) (hne : q.bytes ≠ []) :
    Decided id (decoder q.bytes) (decoder (data.drop p)) := by
  rw [← hq.unread]
  exact hd.decided hne rest

theorem oneShot_ok (hd : Steady decoder) (hq : q.Stands data p n rest) (hne : q.bytes ≠ []) {x : α} {used : Nat}
    (hx : decoder q.bytes = .ok (x, used)) : oneShot decoder data p n = (.ok (some x), p + used, n + 1) := by
  have hdec := decided_drop hd hq hne
  rw [hx] at hdec
  rw [oneShot, if_neg (hq.ne_length hne), show decoder (data.drop p) = .ok (x, used) from hdec]

theorem oneShot_error (hd : Steady decoder) (hq : q.Stands data p n rest) (hne : q.bytes ≠ []) {e : Error}
    (hx : decoder q.bytes = .error e) (hfinal : e.isIncomplete = false ∨ rest = []) :
    oneShot decoder data p n = (.error (.nested p (.stream n) e), p, n) := by
  have hwhole : decoder (data.drop p) = .error e := by
    rcases hfinal with hfinal | rfl
    · have hdec := decided_drop hd hq hne
      rw [hx] at hdec
      exact hdec hfinal
    · rw [← hq.unread, List.append_nil, hx]
  rw [oneShot, if_neg (hq.ne_length hne), hwhole]

variable {max : Nat}

theorem overlong_length (hq : q.Stands data p n rest) {e : Error} (hx : decoder q.bytes = .error e)
    (hi : e.isIncomplete) (hmax : max < q.length) : Overlong decoder max (data.drop p) q.length := by
  rw [← Pending.length_bytes] at hmax ⊢
  refine ⟨hmax, ?_, e, ?_, hi⟩
  · rw [← hq.unread, List.length_append]
    omega
  · rw [← hq.unread, List.take_left, hx]

theorem not_overlong (hd : Steady decoder) (hq : q.Stands data p n rest) (hne : q.bytes ≠ [])
    (hfinal : ∀ e, decoder q.bytes = .error e → e.isIncomplete = false) {k : Nat} (hk : q.length ≤ k) :
    ¬ Overlong decoder max (data.drop p) k := by
  rintro ⟨-, -, e, he, hi⟩
  rw [← Pending.length_bytes] at hk
  rw [← hq.unread, List.take_append, List.take_of_length_le hk] at he
  have hdec := hd.decided hne (rest.take (k - q.bytes.length))
  rw [he] at hdec
  cases hx : decoder q.bytes with
  | ok y =>
    rw [hx] at hdec
    cases hdec
  | error e' =>
    have hf := hfinal e' hx
    rw [hx] at hdec
    cases hdec hf
    exact Bool.noConfusion (hi.symm.trans hf)

end Standing

theorem At.stands (hr : At codec data p n r) : r.pending.Stands data p n (delivered r.source) :=
  ⟨hr.offset, hr.count, hr.inside, hr.start_le, hr.unread⟩

theorem At.unread_nil (hr : At codec data p n r) (he : r.ended) : r.pending.Stands data p n [] := by
  have hq := hr.stands
  rwa [hr.exhausted he] at hq

section Read

variable {quiet rest : List ReadEvent}

theorem At.at_end (hr : At codec data p n r) (hs : delivered r.source = []) :
    At codec data p n { r with source := [], ended := true } :=
  ⟨hr.codec_eq, hr.offset, hr.count, hr.inside, hr.start_le, by rw [← hr.unread, hs, delivered], nofun,
    fun _ => rfl⟩

theorem At.past_failure {text : String} (hr : At codec data p n r) (he : r.ended = false)
    (hs : r.source = quiet ++ .failure text :: rest) (hq : delivered quiet = []) :
    At codec data p n { r with source := rest } := by
  have hchunked : Chunked (quiet ++ .failure text :: rest) := hs ▸ hr.chunked
  refine ⟨hr.codec_eq, hr.offset, hr.count, hr.inside, hr.start_le, ?_, hchunked.rest, fun h => ?_⟩
  · rw [← hr.unread, hs, delivered_append, hq]
    rfl
  · rw [he] at h
    cases h

theorem At.extended {bs : Bytes} (hr : At codec data p n r) (he : r.ended = false)
    (hs : r.source = quiet ++ .data bs :: rest) (hq : delivered quiet = []) :
    At codec data p n { r with source := rest, pending := r.pending.extend bs } := by
  have hchunked : Chunked (quiet ++ .data bs :: rest) := hs ▸ hr.chunked
  have hstands := hr.stands
  rw [hs, delivered_append, hq, List.nil_append, delivered] at hstands
  obtain ⟨ho, hc, hi, hl, hu⟩ := hstands.extended
  refine ⟨hr.codec_eq, ho, hc, hi, hl, hu, hchunked.rest, fun h => ?_⟩
  rw [he] at h
  cases h

end Read

theorem At.moved {used : Nat} (hr : At codec data p n r) (hu : used ≤ r.pending.bytes.length) :
    At codec data (p + used) (n + 1)
      { r with
        pending :=
          ⟨r.pending.buffer, r.pending.start + used, r.pending.offset + used, r.pending.count + 1⟩ } := by
  obtain ⟨ho, hc, hi, hl, hb⟩ := hr.stands.moved hu
  exact ⟨hr.codec_eq, ho, hc, hi, hl, hb, hr.chunked, hr.exhausted⟩

theorem pace_lt_of_suffix {quiet rest : List ReadEvent} {bs : Bytes} {q : Pending} (he : r.ended = false)
    (hs : r.source = quiet ++ .data bs :: rest) : pace { r with source := rest, pending := q } < r.pace := by
  have hle := reads_le_append quiet (.data bs :: rest)
  rw [← hs, reads] at hle
  rw [pace, pace, he, if_neg Bool.false_ne_true, if_neg Bool.false_ne_true]
  dsimp only
  omega

def PastLimit (decoder : ItemDecoder α) (max : Nat) (rest : Bytes) (r : Reader) : Prop :=
  r.ended = false ∧ ∃ k ∈ atHand r.pending.length r.source, Overlong decoder max rest k

/-- A call ends as it should, unless it meets bytes past the limit; then it gives up. -/
structure Settles (decoder : ItemDecoder α) (codec : Codec) (data : Bytes) (p n : Nat) (r : Reader)
    (res : EStateM.Result Error Reader (Option α)) : Prop where
  givenUp : PastLimit decoder codec.config.maxSize (data.drop p) r → GivenUp decoder codec data p n res
  served : ¬ PastLimit decoder codec.config.maxSize (data.drop p) r → Served decoder codec data p n r res

theorem Settles.of_served {res : EStateM.Result Error Reader (Option α)}
    (hk : r.ended = false → ∀ k ∈ atHand r.pending.length r.source,
      ¬ Overlong decoder codec.config.maxSize (data.drop p) k)
    (h : Served decoder codec data p n r res) : Settles decoder codec data p n r res :=
  ⟨fun ⟨he, k, hm, ho⟩ => absurd ho (hk he k hm), fun _ => h⟩

theorem Settles.cases {res : EStateM.Result Error Reader (Option α)}
    (h : Settles decoder codec data p n r res) :
    Served decoder codec data p n r res ∨ GivenUp decoder codec data p n res := by
  by_cases hp : PastLimit decoder codec.config.maxSize (data.drop p) r
  · exact .inr (h.givenUp hp)
  · exact .inl (h.served hp)

theorem retry_settles {fuel : Nat} (hr : At codec data p n r) (he : r.ended = false)
    (hf : r.pace ≤ fuel) (hnow : ¬ Overlong decoder codec.config.maxSize (data.drop p) r.pending.length)
    (ih : ∀ r', At codec data p n r' → r'.pace < fuel →
      Settles decoder codec data p n r' (attempt decoder fuel r')) :
    Settles decoder codec data p n r (retry decoder fuel r) := by
  obtain ⟨quiet, hq, h⟩ := read_cases hr.chunked
  have hquiet := quiet_interrupted hq
  have hnone := delivered_interrupted hq
  have honly {rest : List ReadEvent} (hs : r.source = quiet ++ rest)
      (hrest : atHand r.pending.length rest = [r.pending.length]) :
      ∀ k ∈ atHand r.pending.length r.source, ¬ Overlong decoder codec.config.maxSize (data.drop p) k := by
    rw [hs, atHand_append hq, hrest]
    exact List.forall_mem_singleton.mpr hnow
  rw [retry, fill]
  rcases h with ⟨hs, hread⟩ | ⟨text, rest, hs, hread⟩ | ⟨bs, rest, hs, hread⟩
  · rw [hread]
    have hs : r.source = quiet ++ [] := by rw [hs, List.append_nil]
    have hp : pace { r with source := [], ended := true } < fuel := by
      have := reads_pos r.source
      rw [pace, he, if_neg Bool.false_ne_true] at hf
      rw [pace, if_pos rfl]
      omega
    have hend := ih _ (hr.at_end (by rw [hs, List.append_nil, hnone])) hp
    exact .of_served (fun _ => honly hs rfl) ((hend.served fun h => nomatch h.1).after hquiet hs)
  · rw [hread]
    exact .of_served (fun _ => honly hs rfl) (.failed hs hquiet (hr.past_failure he hs hnone))
  · obtain ⟨hne, -⟩ := hr.chunked bs (by rw [hs]; exact List.mem_append_right _ List.mem_cons_self)
    obtain ⟨b, bs, rfl⟩ := List.exists_cons_of_ne_nil hne
    have hdata : Quiet [.data (b :: bs)] := by
      intro text h
      cases List.mem_singleton.mp h
    have hp := Nat.lt_of_lt_of_le (pace_lt_of_suffix (q := r.pending.extend (b :: bs)) he hs) hf
    have hnext := ih _ (hr.extended he hs hnone) hp
    -- The attempt before the read is settled, so the limit is met at the others or not at all.
    have hpast : PastLimit decoder codec.config.maxSize (data.drop p)
        { r with source := rest, pending := r.pending.extend (b :: bs) } ↔
        PastLimit decoder codec.config.maxSize (data.drop p) r := by
      rw [PastLimit, PastLimit, hr.stands.length_extend, hs, atHand_append hq, atHand,
        List.exists_mem_cons_iff, or_iff_right hnow]
    rw [hread]
    refine ⟨fun h => hnext.givenUp (hpast.mpr h), fun h => ?_⟩
    refine (hnext.served fun h' => h (hpast.mp h')).after (hquiet.append hdata) ?_
    rw [hs, List.append_assoc]
    rfl

theorem attempt_settles (hd : Steady decoder) {fuel : Nat} (hr : At codec data p n r) (hf : r.pace < fuel) :
    Settles decoder codec data p n r (attempt decoder fuel r) := by
  induction fuel generalizing r with
  | zero => exact absurd hf (Nat.not_lt_zero _)
  | succ fuel ih =>
    have hstart : r.source = [] ++ r.source := rfl
    have hq := hr.stands
    rw [attempt_succ]
    by_cases hb : r.pending.isEmpty
    · rw [if_pos hb]
      rw [Pending.isEmpty_iff hr.start_le] at hb
      by_cases he : r.ended
      · rw [if_pos he]
        refine .of_served (fun h => absurd he (by rw [h]; exact Bool.false_ne_true)) ?_
        exact .returned hstart quiet_nil (oneShot_none (hr.unread_nil he) hb) hr
      · rw [if_neg he]
        refine retry_settles hr (Bool.not_eq_true _ ▸ he) (by omega) ?_ fun r' => ih
        rintro ⟨hmax, -⟩
        rw [← Pending.length_bytes, hb] at hmax
        exact Nat.not_lt_zero _ hmax
    · rw [if_neg hb]
      have hne : r.pending.bytes ≠ [] := fun h => hb ((Pending.isEmpty_iff hr.start_le).mpr h)
      rw [Pending.decode]
      -- What the bytes at hand decide, all of the data decide the same way. Only an item that runs past
      -- these bytes makes the reader read on.
      cases hx : decoder r.pending.bytes with
      | ok y =>
        obtain ⟨x, used⟩ := y
        refine .of_served (fun _ k hk => not_overlong hd hq hne ?_ (le_of_mem_atHand hk)) ?_
        · intro e he
          rw [hx] at he
          cases he
        · exact .returned hstart quiet_nil (oneShot_ok hd hq hne hx) (hr.moved (hd.used_le hx))
      | error e =>
        dsimp only
        rw [hq.locate]
        by_cases hi : !(Error.nested p (.stream n) e).isIncomplete || r.ended
        · rw [if_pos hi]
          have hfinal : e.isIncomplete = false ∨ r.ended := by
            rwa [Bool.or_eq_true, Bool.not_eq_true'] at hi
          have hshot : oneShot decoder data p n = (.error (.nested p (.stream n) e), p, n) := by
            rcases hfinal with hfinal | he
            · exact oneShot_error hd hq hne hx (.inl hfinal)
            · exact oneShot_error hd (hr.unread_nil he) hne hx (.inr rfl)
          refine .of_served (fun he k hk => not_overlong hd hq hne ?_ (le_of_mem_atHand hk)) ?_
          · intro e' he'
            rw [hx] at he'
            cases he'
            exact hfinal.resolve_right (by rw [he]; exact Bool.false_ne_true)
          · exact .refused hstart quiet_nil hshot hr
        · rw [if_neg hi]
          rw [Bool.or_eq_true, not_or, Bool.not_eq_true', Bool.not_eq_false, Bool.not_eq_true] at hi
          obtain ⟨hinc, he⟩ := hi
          rw [Pending.checkLimit, hq.locate, hr.codec_eq]
          by_cases hmax : codec.config.maxSize < r.pending.length
          · rw [if_pos hmax]
            have hover := overlong_length hq hx hinc hmax
            refine ⟨fun _ => .mk hover hr, fun h => absurd ⟨he, _, mem_atHand_self _ _, hover⟩ h⟩
          · rw [if_neg hmax]
            exact retry_settles hr he (by omega) (fun h => hmax h.1) fun r' => ih

theorem next_settles (hd : Steady decoder) (hr : At codec data p n r) :
    Settles decoder codec data p n r (next decoder r) := by
  have hp : r.pace < reads r.source + 2 := by
    rw [pace]
    split <;> omega
  have hnext : next decoder r = attempt decoder (reads r.source + 2) r := by
    rw [next]
    rfl
  rw [hnext]
  exact attempt_settles hd hr hp

theorem At.start {source : List ReadEvent} (hs : Chunked source) (codec : Codec) :
    At codec (delivered source) 0 0 { source, codec } :=
  ⟨rfl, rfl, rfl, Nat.zero_le _, Nat.le_refl _, rfl, hs, nofun⟩

theorem readValue_settles (s : Shape) (hr : At codec data p n r) :
    Settles (decodeValue codec.config s) codec data p n r (readValue s r) := by
  rw [← hr.codec_eq]
  exact next_settles (steady_decodeValue r.codec.config s) (hr.codec_eq ▸ hr)

theorem readValue_served (s : Shape) (hr : At codec data p n r) :
    Served (decodeValue codec.config s) codec data p n r (readValue s r) ∨
      GivenUp (decodeValue codec.config s) codec data p n (readValue s r) :=
  (readValue_settles s hr).cases

theorem at_of_readValue {s : Shape} (hr : At codec data p n r) :
    match readValue s r with
    | .ok (some v) r' => ∃ used, decodeValue codec.config s (data.drop p) = .ok (v, used) ∧
        At codec data (p + used) (n + 1) r'
    | .ok none r' => At codec data p n r'
    | .error _ r' => At codec data p n r' := by
  have hserved := readValue_served s hr
  generalize readValue s r = res at hserved
  rcases hserved with h | h
  · cases h with
    | failed ht hq hr' => exact hr'
    | refused ht hq ho hr' => exact hr'
    | @returned turn x p' n' r' ht hq ho hr' =>
      cases x with
      | none =>
        obtain ⟨rfl, rfl⟩ := oneShot_eq_none ho
        exact hr'
      | some v =>
        obtain ⟨used, hd, rfl, rfl⟩ := oneShot_eq_some ho
        exact ⟨used, hd, hr'⟩
  · cases h with
    | mk hk hr' => exact hr'

inductive Starts (decoder : ItemDecoder α) (data : Bytes) : Nat → Nat → Prop
  | first : Starts decoder data 0 0
  | next {p n p' n' : Nat} {x : Except Error (Option α)} : Starts decoder data p n →
      oneShot decoder data p n = (x, p', n') → Starts decoder data p' n'

/-- No bytes past the limit stand at the start of an item without holding all of it. -/
def WithinLimit (decoder : ItemDecoder α) (max : Nat) (data : Bytes) : Prop :=
  ∀ p n, Starts decoder data p n → ∀ k, ¬ Overlong decoder max (data.drop p) k

theorem WithinLimit.of_length {max : Nat} (h : data.length ≤ max) : WithinLimit decoder max data := by
  rintro p n - k ⟨hmax, hk, -⟩
  rw [List.length_drop] at hk
  omega

def shots (decoder : ItemDecoder α) (data : Bytes) : Nat → Nat → Nat → List (Except Error (Option α))
  | 0, _, _ => []
  | k + 1, p, n =>
    let (x, p, n) := oneShot decoder data p n
    x :: shots decoder data k p n

theorem shots_succ {p' n' : Nat} {x : Except Error (Option α)} (h : oneShot decoder data p n = (x, p', n'))
    (k : Nat) : shots decoder data (k + 1) p n = x :: shots decoder data k p' n' := by
  rw [shots, h]

def outcomes (call : EStateM Error Reader (Option α)) : Nat → Reader → List (Except Error (Option α))
  | 0, _ => []
  | k + 1, r =>
    match call r with
    | .ok x r => .ok x :: outcomes call k r
    | .error e r => .error e :: outcomes call k r

theorem outcomes_congr {call : EStateM Error Reader (Option α)} {r' : Reader} (h : call r = call r') (k : Nat) :
    outcomes call k r = outcomes call k r' := by
  cases k with
  | zero => rfl
  | succ k => rw [outcomes, outcomes, h]

theorem outcomes_eq_shots {call : EStateM Error Reader (Option α)}
    (hcall : ∀ {p n r}, Starts decoder data p n → At codec data p n r →
      Served decoder codec data p n r (call r))
    (hp : Starts decoder data p n) (hr : At codec data p n r) (hq : Quiet r.source) (k : Nat) :
    outcomes call k r = shots decoder data k p n := by
  induction k generalizing p n r with
  | zero => rfl
  | succ k ih =>
    have hserved := hcall hp hr
    rw [outcomes]
    generalize call r = res at hserved
    cases hserved with
    | failed ht _ _ =>
      rw [ht] at hq
      exact absurd (List.mem_append_right _ List.mem_cons_self) (hq _)
    | returned ht _ ho hr' =>
      rw [ht] at hq
      have hrest := ih (hp.next ho) hr' fun text h => hq text (List.mem_append_right _ h)
      rw [shots_succ ho, ← hrest]
    | refused ht _ ho hr' =>
      rw [ht] at hq
      have hrest := ih (hp.next ho) hr' fun text h => hq text (List.mem_append_right _ h)
      rw [shots_succ ho, ← hrest]

/-- The reader after calls for values of the given shapes, how far into the data the values reach that
these calls returned, and how many values that were. -/
def afterCalls (data : Bytes) : List Shape → Reader → Nat → Nat → Reader × Nat × Nat
  | [], r, p, n => (r, p, n)
  | s :: calls, r, p, n =>
    match readValue s r with
    | .ok (some _) r' =>
      match decodeValue r.codec.config s (data.drop p) with
      | .ok (_, used) => afterCalls data calls r' (p + used) (n + 1)
      | .error _ => afterCalls data calls r' p (n + 1)
    | .ok none r' => afterCalls data calls r' p n
    | .error _ r' => afterCalls data calls r' p n

theorem at_afterCalls {calls : List Shape} {r' : Reader} {p' n' : Nat} (hr : At codec data p n r)
    (h : afterCalls data calls r p n = (r', p', n')) : At codec data p' n' r' := by
  induction calls generalizing r p n with
  | nil =>
    cases h
    exact hr
  | cons s calls ih =>
    have hstep := at_of_readValue (s := s) hr
    rw [afterCalls] at h
    cases hv : readValue s r with
    | error e r₁ =>
      rw [hv] at h hstep
      exact ih hstep h
    | ok x r₁ =>
      rw [hv] at h hstep
      cases x with
      | none => exact ih hstep h
      | some v =>
        obtain ⟨used, hd, hr₁⟩ := hstep
        rw [hr.codec_eq] at h
        dsimp only at h
        rw [hd] at h
        exact ih hr₁ h

/-- After any calls the reader stands where the values returned so far end, with all bytes from there on
still to come; and the next call, unless what stands there exceeds the limit before it is whole, meets a
failing read or gives what one-shot decoding gives. -/
theorem readValue_eq_oneShot {source : List ReadEvent} (hs : Chunked source) (codec : Codec)
    (calls : List Shape) (s : Shape) {r : Reader} {p n : Nat}
    (hr : afterCalls (delivered source) calls { source, codec } 0 0 = (r, p, n)) :
    At codec (delivered source) p n r ∧
      ((∀ k, ¬ Overlong (decodeValue codec.config s) codec.config.maxSize ((delivered source).drop p) k) →
        Served (decodeValue codec.config s) codec (delivered source) p n r (readValue s r)) := by
  have hat := at_afterCalls (At.start hs codec) hr
  refine ⟨hat, fun hlimit => (readValue_served s hat).resolve_right fun h => ?_⟩
  obtain ⟨k, hk⟩ := h.overlong
  exact hlimit k hk

theorem readValue_eq_oneShot_split :
    let source : List ReadEvent :=
      [.data [1], .interrupted, .data [2, 1], .failure "broken", .data [0, 1]]
    let state := afterCalls (delivered source) [.seq .bool, .seq .bool] { source } 0 0
    state.2 = (4, 1) ∧
      Served (decodeValue {} .bool) {} (delivered source) 4 1 state.1 (readValue .bool state.1) := by
  intro source state
  have hs : Chunked source := by simp [source, Chunked, bufferSize]
  have hstate : state = (state.1, 4, 1) := by rfl
  refine ⟨rfl, (readValue_eq_oneShot hs {} _ .bool hstate).2 ?_⟩
  rintro k ⟨hmax, hk, -⟩
  have hmax : 2 ^ 24 < k := hmax
  have hk : k ≤ 1 := hk
  omega

end Reader

end ShapeCodec
