import ShapeCodec.Proofs.Changes
import ShapeCodec.Proofs.Progress

/-!
Reading comes to an end. A payload is used up in no more passes than it has bytes, and so is a run of encodings,
though nothing but the input bounds how many there are.
-/

namespace ShapeCodec

open Wire

namespace Wire

/-- Reading units from the `i`-th on with no bound on their number: `n` of them are read until no input is left
or until one fails. -/
inductive Runs {σ : Type} (read : Nat → σ → Bytes → Except Error (σ × Bytes)) :
    Nat → σ → Bytes → Nat → Except Error σ → Prop
  | done (i : Nat) (s : σ) : Runs read i s [] 0 (.ok s)
  | failed {i : Nat} {s : σ} {input : Bytes} {e : Error} : input ≠ [] → read i s input = .error e →
      Runs read i s input 0 (.error e)
  | next {i n : Nat} {s s' : σ} {input rest : Bytes} {r : Except Error σ} : input ≠ [] →
      read i s input = .ok (s', rest) → Runs read (i + 1) s' rest n r → Runs read i s input (n + 1) r

def Shrinks {σ : Type} (read : Nat → σ → Bytes → Except Error (σ × Bytes)) : Prop :=
  ∀ i s input s' rest, read i s input = .ok (s', rest) → ∃ used, input = used ++ rest ∧ 1 ≤ used.length

section Loops

variable {σ : Type} {read : Nat → σ → Bytes → Except Error (σ × Bytes)} {i m n : Nat} {s : σ} {input : Bytes}
  {r r' : Except Error σ}

theorem Runs.unique (h : Runs read i s input n r) (h' : Runs read i s input m r') : n = m ∧ r = r' := by
  induction h generalizing m with
  | done i s =>
    cases h' with
    | done => exact ⟨rfl, rfl⟩
    | failed hne => exact absurd rfl hne
    | next hne => exact absurd rfl hne
  | failed hne he =>
    cases h' with
    | done => exact absurd rfl hne
    | failed _ he' =>
      rw [he] at he'
      cases he'
      exact ⟨rfl, rfl⟩
    | next _ hr =>
      rw [he] at hr
      cases hr
  | next hne hr _ ih =>
    cases h' with
    | done => exact absurd rfl hne
    | failed _ he =>
      rw [hr] at he
      cases he
    | next _ hr' h' =>
      rw [hr] at hr'
      cases hr'
      obtain ⟨rfl, rfl⟩ := ih h'
      exact ⟨rfl, rfl⟩

theorem runs_eachUnit (hread : Shrinks read) {fuel : Nat} (hf : input.length ≤ fuel) (i : Nat) (s : σ) :
    ∃ n ≤ input.length, Runs read i s input n (eachUnit read fuel i s input) := by
  induction fuel generalizing i s input with
  | zero =>
    obtain rfl := List.eq_nil_of_length_eq_zero (Nat.le_zero.mp hf)
    exact ⟨0, Nat.le_refl _, .done i s⟩
  | succ fuel ih =>
    cases input with
    | nil => exact ⟨0, Nat.le_refl _, .done i s⟩
    | cons b input =>
      rw [eachUnit]
      cases hr : read i s (b :: input) with
      | error e => exact ⟨0, Nat.zero_le _, .failed (List.cons_ne_nil _ _) hr⟩
      | ok x =>
        obtain ⟨s', rest⟩ := x
        obtain ⟨used, hu, hpos⟩ := hread i s _ s' rest hr
        have hlen := congrArg List.length hu
        rw [List.length_append] at hlen
        obtain ⟨n, hn, h⟩ := ih (show rest.length ≤ fuel by omega) (i + 1) s'
        exact ⟨n + 1, by omega, .next (List.cons_ne_nil _ _) hr h⟩

/-- The passes over a payload each take a byte or more of it. Without a bound on their number there are no more
of them than bytes, and their outcome is that of the fold. -/
def Payload.Exhausts (p : Payload) (read : Nat → σ → Bytes → Except Error (σ × Bytes)) : Prop :=
  Shrinks read ∧ ∀ s, ∃ n ≤ p.bytes.length, ∀ m r, Runs read 0 s p.bytes m r ↔ m = n ∧ r = p.fold read s

theorem Payload.exhausts_of_shrinks (p : Payload) (hread : Shrinks read) : p.Exhausts read := by
  refine ⟨hread, fun s => ?_⟩
  obtain ⟨n, hn, h⟩ := runs_eachUnit hread (Nat.le_refl p.bytes.length) 0 s
  refine ⟨n, hn, fun m r => ⟨fun h' => h'.unique h, ?_⟩⟩
  rintro ⟨rfl, rfl⟩
  exact h

theorem Payload.size_fold_le (p : Payload) (size : σ → Nat) (hread : Shrinks read)
    (hsize : ∀ i s input s' rest, read i s input = .ok (s', rest) → size s' ≤ size s + 1) {s s' : σ}
    (h : p.fold read s = .ok s') : size s' ≤ size s + p.bytes.length := by
  refine fold_invariant (P := fun t rest => size t + rest.length ≤ size s + p.bytes.length)
    (fun i t input t' rest hle hr => ?_) (Nat.le_refl _) h
  obtain ⟨used, rfl, hu⟩ := hread i t input t' rest hr
  have ht := hsize i t _ t' rest hr
  rw [List.length_append] at hle ⊢
  omega

end Loops

theorem readLength_of_openPayload {of : Composite} {input rest : Bytes} {p : Payload}
    (h : openPayload of input = .ok (some p, rest)) :
    readLength (.content of) input = .ok (some p.bytes.length, p.bytes ++ rest) := by
  obtain ⟨r, -, h⟩ := Except.bind_eq_ok.mp h
  cases r with
  | some after => cases h
  | none =>
    obtain ⟨⟨n, after⟩, hr, h⟩ := Except.bind_eq_ok.mp h
    cases n with
    | none => cases h
    | some n =>
      obtain ⟨⟨bytes, tail⟩, ht, h⟩ := Except.bind_eq_ok.mp h
      cases h
      obtain ⟨rfl, rfl⟩ := take_eq_ok ht
      exact hr

end Wire

theorem used_of_decodeInto {s : Shape} {d : Depth} {input rest : Bytes} {dst v : Value}
    (h : decodeInto s d input dst = .ok rest v) : ∃ used, input = used ++ rest ∧ 1 ≤ used.length := by
  rcases uniform_decodeInto s d input with ⟨e, he⟩ | ⟨after, f, -, hok⟩
  · rw [he] at h
    cases h
  · rw [hok] at h
    cases h
    exact used_of_fresh (show fresh (decodeInto s d) input = .ok (f .nil, rest) by rw [fresh, hok])

section Readers

variable (d : Depth) (p : Payload)

theorem shrinks_readItem (elem : Shape) : Shrinks (readItem (decodeInto elem d) p) := by
  intro i items input items' rest h
  obtain ⟨v, hv, -⟩ := readItem_eq_ok h
  exact used_of_fresh hv

theorem shrinks_readPairBy {σ : Type} (put : Value → Value → σ → σ) (key val : Shape) :
    Shrinks (readPairBy put (decodeInto key d) (decodeInto val d) p) := by
  intro i s input s' rest h
  obtain ⟨k, mid, v, hk, hv, -⟩ := readPairBy_eq_ok h
  obtain ⟨front, rfl, hf⟩ := used_of_fresh hk
  obtain ⟨back, rfl, -⟩ := used_of_fresh hv
  refine ⟨front ++ back, (List.append_assoc _ _ _).symm, ?_⟩
  rw [List.length_append]
  omega

theorem shrinks_readField (known : List (String × Shape)) : Shrinks (readField (decodeField known d) p) := by
  intro i fields input fields' rest h
  obtain ⟨name, mid, update, v, hn, hu, hv, -⟩ := readField_eq_ok h
  rw [decodeField_eq, Option.map_eq_some_iff] at hu
  obtain ⟨t, -, rfl⟩ := hu
  obtain ⟨-, front, rfl, -⟩ := readStr_eq_ok hn
  obtain ⟨back, rfl, hb⟩ := used_of_decodeInto hv
  refine ⟨front ++ back, (List.append_assoc _ _ _).symm, ?_⟩
  rw [List.length_append]
  omega

theorem length_items_le {elem : Shape} {items : Array Value}
    (h : p.fold (readItem (decodeInto elem d) p) #[] = .ok items) : items.toList.length ≤ p.bytes.length := by
  have hle := p.size_fold_le Array.size (shrinks_readItem d p elem) (fun i items input items' rest hr => ?_) h
  · rwa [Array.size_empty, Nat.zero_add] at hle
  · obtain ⟨v, -, rfl⟩ := readItem_eq_ok hr
    rw [Array.size_push]

theorem length_pairs_le {key val : Shape} {pairs : List (Value × Value)}
    (h : p.fold (readPairBy put (decodeInto key d) (decodeInto val d) p) [] = .ok pairs) :
    pairs.length ≤ p.bytes.length := by
  have hle := p.size_fold_le List.length (shrinks_readPairBy d p put key val)
    (fun i pairs input pairs' rest hr => ?_) h
  · rwa [List.length_nil, Nat.zero_add] at hle
  · obtain ⟨k, mid, v, -, -, rfl⟩ := readPairBy_eq_ok hr
    exact length_put_le k v pairs

end Readers

def Shape.composite? : Shape → Option Composite
  | .seq _ => some .sequence
  | .map .. => some .map
  | .record _ => some .record
  | _ => none

def Composite.Fits (most : Nat) : Composite → Value → Prop
  | .sequence, v => ∃ items, v = .seq items ∧ items.length ≤ most
  | .map, v => ∃ pairs, v = .map pairs ∧ pairs.length ≤ most
  | .record, v => ∃ fields, v = .record fields

theorem payload_of_present {s : Shape} {d : Depth} {input rest : Bytes} {dst v w : Value} {of : Composite}
    (h : decodeInto s d input dst = .ok rest v) (hof : s.base.composite? = some of) (hw : v.referent? = some w) :
    ∃ p, openPayload of input = .ok (some p, rest) ∧ of.Fits p.bytes.length w := by
  induction s generalizing d dst v with
  | bool => cases hof
  | int kind => cases hof
  | str => cases hof
  | blob => cases hof
  | seq elem _ =>
    cases hof
    rw [decodeInto_seq, replace_eq_ok] at h
    obtain ⟨-, rfl⟩ | ⟨p, e, items, ho, hx, rfl⟩ := readComposite_eq_ok h
    · cases hw
    · cases hw
      exact ⟨p, ho, _, rfl, length_items_le e p hx⟩
  | map key val _ _ =>
    cases hof
    rw [decodeInto_map, replace_eq_ok] at h
    obtain ⟨_, -, h⟩ := Except.bind_eq_ok.mp h
    obtain ⟨-, rfl⟩ | ⟨p, e, pairs, ho, hx, rfl⟩ := readComposite_eq_ok h
    · cases hw
    · cases hw
      exact ⟨p, ho, _, rfl, length_pairs_le e p hx⟩
  | record known _ =>
    cases hof
    rw [decodeInto_record, replace_eq_ok] at h
    obtain ⟨-, rfl⟩ | ⟨p, e, fields, ho, -, rfl⟩ := readComposite_eq_ok h
    · cases hw
    · cases hw
      exact ⟨p, ho, _, rfl⟩
  | optional inner ih =>
    rw [decodeInto] at h
    split at h
    · cases h
    · cases h
      cases hw
    · split at h
      · cases h
      · obtain ⟨t, ht, rfl⟩ := throughLayer_eq_ok.mp h
        exact ih ht hof hw

theorem used_of_decodeValueInto {c : Config} {s : Shape} {data : Bytes} {dst dst' : Value} {used : Nat}
    (h : decodeValueInto c s data dst = .ok used dst') :
    ∃ front rest, data = front ++ rest ∧ front.length = used ∧ 1 ≤ used ∧
      decodeInto s (.upTo c.maxDepth) data dst = .ok rest dst' := by
  rw [decodeValueInto_eq] at h
  split at h
  · next rest v hd =>
    cases h
    obtain ⟨front, rfl, hf⟩ := used_of_decodeInto hd
    have hlen : (front ++ rest).length - rest.length = front.length := by
      rw [List.length_append, Nat.add_sub_cancel]
    exact ⟨front, rest, rfl, hlen.symm, hlen ▸ hf, hd⟩
  · cases h

section Runs

variable {c : Config} {s : Shape} {data : Bytes} {rs rs' : List (Except Error (Value × Nat))}

inductive DecodesAll (c : Config) (s : Shape) : Bytes → List (Except Error (Value × Nat)) → Prop
  | done : DecodesAll c s [] []
  | failed {data : Bytes} {e : Error} : data ≠ [] → decodeValue c s data = .error e → DecodesAll c s data [.error e]
  | next {data : Bytes} {v : Value} {used : Nat} {rs : List (Except Error (Value × Nat))} : data ≠ [] →
      decodeValue c s data = .ok (v, used) → DecodesAll c s (data.drop used) rs →
      DecodesAll c s data (.ok (v, used) :: rs)

theorem DecodesAll.unique (h : DecodesAll c s data rs) (h' : DecodesAll c s data rs') : rs = rs' := by
  induction h generalizing rs' with
  | done =>
    cases h' with
    | done => rfl
    | failed hne => exact absurd rfl hne
    | next hne => exact absurd rfl hne
  | failed hne he =>
    cases h' with
    | done => exact absurd rfl hne
    | failed _ he' =>
      rw [he] at he'
      cases he'
      rfl
    | next _ hv =>
      rw [he] at hv
      cases hv
  | next hne hv _ ih =>
    cases h' with
    | done => exact absurd rfl hne
    | failed _ he =>
      rw [hv] at he
      cases he
    | next _ hv' h' =>
      rw [hv] at hv'
      cases hv'
      rw [ih h']

theorem used_of_decodeValue {v : Value} {used : Nat} (h : decodeValue c s data = .ok (v, used)) :
    1 ≤ used ∧ used ≤ data.length := by
  rw [decodeValue] at h
  split at h
  · next hd =>
    cases h
    obtain ⟨front, rest, rfl, rfl, hpos, -⟩ := used_of_decodeValueInto hd
    exact ⟨hpos, by rw [List.length_append]; exact Nat.le_add_right _ _⟩
  · cases h

theorem decodesAll_decodeEach {fuel : Nat} (hf : data.length ≤ fuel) :
    DecodesAll c s data (decodeEach c s fuel data) ∧ (decodeEach c s fuel data).length ≤ data.length := by
  induction fuel generalizing data with
  | zero =>
    obtain rfl := List.eq_nil_of_length_eq_zero (Nat.le_zero.mp hf)
    exact ⟨.done, Nat.le_refl _⟩
  | succ fuel ih =>
    cases data with
    | nil => exact ⟨.done, Nat.le_refl _⟩
    | cons b data =>
      rw [decodeEach]
      cases hv : decodeValue c s (b :: data) with
      | error e => exact ⟨.failed (List.cons_ne_nil _ _) hv, Nat.succ_le_succ (Nat.zero_le _)⟩
      | ok r =>
        obtain ⟨v, used⟩ := r
        obtain ⟨hu, -⟩ := used_of_decodeValue hv
        have hlen : ((b :: data).drop used).length ≤ data.length := by
          rw [List.length_drop, List.length_cons]
          omega
        obtain ⟨hall, hle⟩ := ih (Nat.le_trans hlen (Nat.le_of_succ_le_succ hf))
        exact ⟨.next (List.cons_ne_nil _ _) hv hall, Nat.succ_le_succ (Nat.le_trans hle hlen)⟩

end Runs

/-- Decoding takes a byte or more and none past the end, of a composite that is present its header and its
payload. Each pass over a payload takes some of it, so that without a bound on the passes the reading ends as it
does with one; and so does decoding one value after another. -/
theorem decoding_progresses (c : Config) (s : Shape) (data : Bytes) (dst : Value) :
    (∀ used dst', decodeValueInto c s data dst = .ok used dst' → 1 ≤ used ∧ used ≤ data.length ∧
      ∀ of v, s.base.composite? = some of → dst'.referent? = some v →
        ∃ header payload rest, data = header ++ (payload ++ rest) ∧
          readLength (.content of) data = .ok (some payload.length, payload ++ rest) ∧
          used = header.length + payload.length ∧ of.Fits payload.length v) ∧
    (∀ v used, decodeValue c s data = .ok (v, used) → 1 ≤ used ∧ used ≤ data.length) ∧
    (∀ d p elem, Payload.Exhausts p (readItem (decodeInto elem d) p)) ∧
    (∀ d p key val, Payload.Exhausts p (readPair (decodeInto key d) (decodeInto val d) p)) ∧
    (∀ d p known, Payload.Exhausts p (readField (decodeField known d) p)) ∧
    (decodeAll c s data).length ≤ data.length ∧ ∀ rs, DecodesAll c s data rs ↔ rs = decodeAll c s data := by
  refine ⟨fun used dst' h => ?_, fun v used => used_of_decodeValue, fun d p elem => p.exhausts_of_shrinks (shrinks_readItem d p elem),
    fun d p key val => p.exhausts_of_shrinks (shrinks_readPairBy d p _ key val),
    fun d p known => p.exhausts_of_shrinks (shrinks_readField d p known), ?_⟩
  · obtain ⟨front, rest, rfl, rfl, hpos, hd⟩ := used_of_decodeValueInto h
    refine ⟨hpos, by rw [List.length_append]; exact Nat.le_add_right _ _, fun of v hof hv => ?_⟩
    obtain ⟨p, ho, hfits⟩ := payload_of_present hd hof hv
    obtain ⟨-, header, hsplit, -, -⟩ := openPayload_eq_ok_some ho
    obtain rfl := List.append_cancel_right hsplit
    exact ⟨header, p.bytes, rest, List.append_assoc _ _ _, readLength_of_openPayload ho, List.length_append, hfits⟩
  · obtain ⟨hall, hle⟩ := decodesAll_decodeEach (c := c) (s := s) (Nat.le_refl data.length)
    refine ⟨hle, fun rs => ⟨fun h => h.unique hall, ?_⟩⟩
    rintro rfl
    exact hall

theorem decoding_progresses_repeated_key :
    let s : Shape := .optional (.map .str .bool)
    let data : Bytes := [1, 8, 1, 1, 97, 1, 1, 1, 97, 0, 7]
    let v : Value := .map [(.str "a", .bool false)]
    decodeValueInto {} s data (.bool true) = .ok 10 (.ref v) ∧
      ∃ header payload rest, data = header ++ (payload ++ rest) ∧
        readLength (.content .map) data = .ok (some payload.length, payload ++ rest) ∧
        10 = header.length + payload.length ∧ Composite.map.Fits payload.length v := by
  intro s data v
  have h : decodeValueInto {} s data (.bool true) = .ok 10 (.ref v) := rfl
  exact ⟨h, ((decoding_progresses {} s data (.bool true)).1 10 (.ref v) h).2.2 .map v rfl rfl⟩

end ShapeCodec
