import ShapeCodec.Proofs.LimitedDecoding
import ShapeCodec.Proofs.Progress

/-!
Where a decoding fails. The places and offsets of a failure lead to a unit of the input, and to decode that
unit by itself fails as well, with the failure at the root.
-/

namespace ShapeCodec

open Wire

namespace Error

def path : Error → List Location
  | nested _ location cause => location :: cause.path
  | _ => []

theorem path_requote (limit : Nat) (e : Error) : (e.requote limit).path = e.path := by
  induction e with
  | nested offset location cause ih => exact congrArg (location :: ·) ih
  | _ => rfl

theorem root_of_path {e : Error} (h : e.path = []) : e.root = e := by
  cases e <;> first | rfl | cases h

theorem offset_of_path {e : Error} (h : e.path = []) : e.offset = 0 := by
  cases e <;> first | rfl | cases h

theorem path_of_ofUnit {e : Error} (h : e.ofUnit) : e.path = [] := by
  cases e <;> first | rfl | cases h

section Within

variable {e : Error} {of : Composite} {offset : Nat} {location : Location}

theorem path_within (h : e.isIncomplete → e.path = []) : (e.within of offset location).path = location :: e.path := by
  rw [within, path]
  split
  · next hinc =>
    rw [h hinc]
    rfl
  · rfl

theorem offset_within (h : e.isIncomplete → e.path = []) :
    (e.within of offset location).offset = offset + e.offset := by
  rw [within, Error.offset]
  split
  · next hinc =>
    rw [offset_of_path (h hinc)]
    rfl
  · rfl

theorem root_within : (e.within of offset location).root = if e.isIncomplete then .misaligned of e else e.root := by
  rw [within, root]
  split <;> rfl

theorem not_isIncomplete_within : ¬ (e.within of offset location).isIncomplete := by
  intro h
  rw [within, isIncomplete] at h
  split at h
  · cases h
  · next hne => exact hne h

end Within

end Error

def Location.composite? : Location → Option Composite
  | element _ => some .sequence
  | mapKey _ | mapValue _ => some .map
  | fieldName _ | field _ => some .record
  | stream _ => none

def around (path : List Location) : Option Composite :=
  path.getLast?.bind Location.composite?

namespace Shape

def part? : Location → Shape → Option Shape
  | .element _, .seq elem => some elem
  | .mapKey _, .map key _ => some key
  | .mapValue _, .map _ val => some val
  | .fieldName _, .record _ => some .str
  | .field name, .record known => known.lookup name
  | _, _ => none

def at? : List Location → Shape → Option Shape
  | [], s => some s
  | location :: path, s => (s.base.part? location).bind (at? path)

end Shape

def Error.settled (e : Error) : Option Composite → Error
  | some of => if e.isIncomplete then misaligned of e else e
  | none => e

/-- A unit of the shape is at the front of the input; it is the value, and the rest follows it. -/
def Reads (left : Nat) (s : Shape) (input : Bytes) (v : Value) (rest : Bytes) : Prop :=
  ∃ used, decodeValue { maxDepth := left } s input = .ok (v, used) ∧ rest = input.drop used

inductive Passes (part : Bytes → Bytes → Prop) : Nat → Bytes → Bytes → Prop
  | none (input : Bytes) : Passes part 0 input input
  | next {n : Nat} {input mid rest : Bytes} : part input mid → Passes part n mid rest →
      Passes part (n + 1) input rest

section Parts

variable (left : Nat)

def ReadsItem (elem : Shape) (input rest : Bytes) : Prop :=
  ∃ v, Reads left elem input v rest

def ReadsPair (key val : Shape) (input rest : Bytes) : Prop :=
  ∃ k mid v, Reads left key input k mid ∧ Reads left val mid v rest

def ReadsField (known : List (String × Shape)) (input rest : Bytes) : Prop :=
  ∃ name mid s v, Reads left .str input (.str name) mid ∧ known.lookup name = some s ∧ Reads left s mid v rest

/-- A unit inside a payload: the composite's shape and the place in it, the payload and what is left of it
where the unit starts, and the shape of the unit. -/
inductive PartAt : Shape → Location → Bytes → Bytes → Shape → Prop
  | element {elem : Shape} {i : Nat} {payload rest : Bytes} :
      Passes (ReadsItem left elem) i payload rest → PartAt (.seq elem) (.element i) payload rest elem
  | mapKey {key val : Shape} {i : Nat} {payload rest : Bytes} :
      Passes (ReadsPair left key val) i payload rest → PartAt (.map key val) (.mapKey i) payload rest key
  | mapValue {key val : Shape} {i : Nat} {payload mid rest : Bytes} {k : Value} :
      Passes (ReadsPair left key val) i payload mid → Reads left key mid k rest →
      PartAt (.map key val) (.mapValue i) payload rest val
  | fieldName {known : List (String × Shape)} {i : Nat} {payload rest : Bytes} :
      Passes (ReadsField left known) i payload rest → PartAt (.record known) (.fieldName i) payload rest .str
  | field {known : List (String × Shape)} {name : String} {s : Shape} {i : Nat} {payload mid rest : Bytes} :
      Passes (ReadsField left known) i payload mid → Reads left .str mid (.str name) rest →
      known.lookup name = some s → PartAt (.record known) (.field name) payload rest s

end Parts

/-- A unit inside data. -/
structure Site where
  shape : Shape
  left : Nat
  start : Nat
  stop : Nat

namespace Site

variable (data : Bytes)

def window (u : Site) : Bytes :=
  (data.take u.stop).drop u.start

/-- The unit is a composite under reference layers that are all present, and has another unit at a place of
its payload. -/
def Leads (u : Site) (location : Location) (v : Site) : Prop :=
  ∃ of p after rest, location.composite? = some of ∧ openPayload of (u.window data) = .ok (some p, after) ∧
    u.left = u.shape.layers + 1 + v.left ∧ PartAt v.left u.shape.base location p.bytes rest v.shape ∧
    v.start = u.start + p.position rest ∧ v.stop = u.start + p.header + p.bytes.length

inductive Reaches : Site → List Location → Site → Prop
  | here (u : Site) : Reaches u [] u
  | inside {u v w : Site} {location : Location} {path : List Location} : u.Leads data location v →
      Reaches v path w → Reaches u (location :: path) w

end Site

theorem reads_of_fresh {s : Shape} {limit left : Nat} {input rest : Bytes} {v : Value}
    (h : fresh (decodeInto s ⟨limit, left⟩) input = .ok (v, rest)) : Reads left s input v rest := by
  obtain ⟨used, rfl, -⟩ := used_of_fresh h
  have hd := (decodesWithin s ⟨limit, left⟩ (.upTo left) .nil _ (Nat.le_refl _)).of_ok h
  refine ⟨used.length, ?_, by simp⟩
  rw [decodeValue_eq, show fresh (decodeInto s (.upTo left)) (used ++ rest) = _ from hd, Except.ok_map,
    List.length_append, Nat.add_sub_cancel]

theorem decodeValue_error_of_fresh {s : Shape} {limit left : Nat} {input : Bytes} {e : Error}
    (h : fresh (decodeInto s ⟨limit, left⟩) input = .error e) :
    ∃ r, decodeValue { maxDepth := left } s input = .error r ∧ r.requote limit = e := by
  have hd := (decodesWithin s (.upTo left) ⟨limit, left⟩ .nil input (Nat.le_refl _)).eq_mapError rfl
  rw [decodeValue_eq]
  change fresh (decodeInto s ⟨limit, left⟩) input = (fresh (decodeInto s (.upTo left)) input).mapError _ at hd
  rw [h] at hd
  cases hr : fresh (decodeInto s (.upTo left)) input with
  | ok r =>
    rw [hr] at hd
    cases hd
  | error r =>
    rw [hr] at hd
    exact ⟨r, rfl, (Except.error.inj hd).symm⟩

theorem Passes.suffix {part : Bytes → Bytes → Prop} (hpart : ∀ input rest, part input rest → rest <:+ input)
    {n : Nat} {input rest : Bytes} (h : Passes part n input rest) : rest <:+ input := by
  induction h with
  | none input => exact List.suffix_rfl
  | next h _ ih => exact ih.trans (hpart _ _ h)

theorem exists_of_eachUnit_eq_error {σ : Type} {read : Nat → σ → Bytes → Except Error (σ × Bytes)}
    {part : Bytes → Bytes → Prop}
    (hread : ∀ i s input s' rest, read i s input = .ok (s', rest) → part input rest)
    {fuel i : Nat} {s : σ} {input : Bytes} {e : Error} (h : eachUnit read fuel i s input = .error e) :
    ∃ n s' rest, Passes part n input rest ∧ read (i + n) s' rest = .error e := by
  induction fuel generalizing i s input with
  | zero => cases input <;> cases h
  | succ fuel ih =>
    cases input with
    | nil => cases h
    | cons b input =>
      rcases Except.bind_eq_error.mp h with h | ⟨⟨s₁, mid⟩, hr, h⟩
      · exact ⟨0, s, b :: input, .none _, h⟩
      · obtain ⟨n, s', rest, hp, he⟩ := ih h
        refine ⟨n + 1, s', rest, .next (hread i s _ s₁ mid hr) hp, ?_⟩
        rwa [Nat.add_comm n 1, ← Nat.add_assoc]

theorem PartAt.suffix {left : Nat} {s t : Shape} {location : Location} {payload rest : Bytes}
    (h : PartAt left s location payload rest t) : rest <:+ payload := by
  have hreads {s : Shape} {input rest : Bytes} {v : Value} (h : Reads left s input v rest) : rest <:+ input := by
    obtain ⟨used, -, rfl⟩ := h
    exact List.drop_suffix used input
  have hitem {elem : Shape} (input rest : Bytes) (h : ReadsItem left elem input rest) : rest <:+ input := by
    obtain ⟨v, h⟩ := h
    exact hreads h
  have hpair {key val : Shape} (input rest : Bytes) (h : ReadsPair left key val input rest) : rest <:+ input := by
    obtain ⟨k, mid, v, hk, hv⟩ := h
    exact (hreads hv).trans (hreads hk)
  have hfield {known : List (String × Shape)} (input rest : Bytes) (h : ReadsField left known input rest) :
      rest <:+ input := by
    obtain ⟨name, mid, s, v, hn, -, hv⟩ := h
    exact (hreads hv).trans (hreads hn)
  cases h with
  | element h => exact h.suffix hitem
  | mapKey h => exact h.suffix hpair
  | mapValue h hk => exact (hreads hk).trans (h.suffix hpair)
  | fieldName h => exact h.suffix hfield
  | field h hn => exact (hreads hn).trans (h.suffix hfield)

theorem PartAt.shape_eq {left : Nat} {s t : Shape} {location : Location} {payload rest : Bytes}
    (h : PartAt left s location payload rest t) : s.part? location = some t := by
  cases h with
  | field _ _ hl => exact hl
  | _ => rfl

theorem Site.Reaches.shape_eq {data : Bytes} {u v : Site} {path : List Location} (h : Reaches data u path v) :
    u.shape.at? path = some v.shape := by
  induction h with
  | here u => rfl
  | inside hl _ ih =>
    obtain ⟨of, p, after, rest, -, -, -, hp, -⟩ := hl
    rw [Shape.at?, hp.shape_eq]
    exact ih

namespace Site

variable {data : Bytes} {limit : Nat}

/-- The failure is at a unit that its places lead to. Decoding that unit fails by itself, or it is the name
of a field that the record around it does not have. -/
def FailsWith (data : Bytes) (limit : Nat) (u : Site) (e : Error) : Prop :=
  (∃ v, Reaches data u e.path v ∧ v.start = u.start + e.offset ∧ v.start ≤ v.stop ∧ v.stop ≤ u.stop ∧
    ((∃ r, decodeValue { maxDepth := v.left } v.shape (v.window data) = .error r ∧ r.path = [] ∧
        e.root = (r.requote limit).settled (around e.path)) ∨
      ∃ w front i known name rest, e.path = front ++ [.fieldName i] ∧ Reaches data u front w ∧
        w.shape.base = .record known ∧ known.lookup name = none ∧
        Reads v.left .str (v.window data) (.str name) rest ∧ e.root = .malformed (.unknownField name))) ∧
  (e.isIncomplete → e.path = [])

theorem FailsWith.here {u : Site} (hw : u.start ≤ u.stop) {e : Error}
    (h : fresh (decodeInto u.shape ⟨limit, u.left⟩) (u.window data) = .error e) (hp : e.path = []) :
    u.FailsWith data limit e := by
  refine ⟨⟨u, ?_, ?_, hw, Nat.le_refl _, .inl ?_⟩, fun _ => hp⟩
  · rw [hp]
    exact .here u
  · rw [Error.offset_of_path hp, Nat.add_zero]
  · obtain ⟨r, hr, rfl⟩ := decodeValue_error_of_fresh h
    refine ⟨r, hr, by rwa [Error.path_requote] at hp, ?_⟩
    rw [hp]
    exact Error.root_of_path hp

theorem FailsWith.within {u v : Site} {location : Location} (hl : u.Leads data location v) {of : Composite}
    (hc : location.composite? = some of) {offset : Nat} (hs : v.start = u.start + offset) (hstop : v.stop ≤ u.stop)
    {e : Error} (h : v.FailsWith data limit e) : u.FailsWith data limit (e.within of offset location) := by
  obtain ⟨⟨w, hr, hstart, hw, hwv, hfail⟩, hi⟩ := h
  refine ⟨⟨w, ?_, ?_, hw, Nat.le_trans hwv hstop, ?_⟩, fun hinc => absurd hinc Error.not_isIncomplete_within⟩
  · rw [Error.path_within hi]
    exact .inside hl hr
  · rw [hstart, hs, Error.offset_within hi, Nat.add_assoc]
  · rw [Error.path_within hi, Error.root_within]
    rcases hfail with ⟨r, hd, hrp, he⟩ | ⟨x, front, i, known, name, rest, hp, hx, hb, hn, hread, he⟩
    · refine .inl ⟨r, hd, hrp, ?_⟩
      cases hp : e.path with
      | nil =>
        rw [hp, Error.root_of_path hp] at he
        have he : e = r.requote limit := he
        rw [Error.root_of_path hp, he, around, List.getLast?_singleton, Option.bind_some, hc]
        rfl
      | cons l path =>
        rw [if_neg (fun hinc => by rw [hi hinc] at hp; cases hp), he, hp]
        rfl
    · refine .inr ⟨x, location :: front, i, known, name, rest, by rw [hp, List.cons_append], .inside hl hx, hb, hn,
        hread, ?_⟩
      rw [if_neg (fun hinc => by rw [hi hinc] at hp; simp at hp), he]

theorem FailsWith.optional {inner : Shape} {left start stop : Nat} {e : Error} (hp : e.path ≠ [])
    (h : FailsWith data limit ⟨inner, left, start, stop⟩ e) :
    FailsWith data limit ⟨.optional inner, left + 1, start, stop⟩ e := by
  have hlead (l : Location) (v : Site) (hl : Leads data ⟨inner, left, start, stop⟩ l v) :
      Leads data ⟨.optional inner, left + 1, start, stop⟩ l v := by
    obtain ⟨of, p, after, rest, hc, ho, hleft, hpart⟩ := hl
    refine ⟨of, p, after, rest, hc, ho, ?_, hpart⟩
    rw [show left = _ from hleft, Shape.layers]
    dsimp only
    omega
  have hreach (path : List Location) (v : Site) (hne : path ≠ [])
      (hr : Reaches data ⟨inner, left, start, stop⟩ path v) :
      Reaches data ⟨.optional inner, left + 1, start, stop⟩ path v := by
    cases hr with
    | here => exact absurd rfl hne
    | inside hl hr => exact .inside (hlead _ _ hl) hr
  obtain ⟨⟨v, hr, hstart, hv, hstop, hfail⟩, hi⟩ := h
  refine ⟨⟨v, hreach _ _ hp hr, hstart, hv, hstop, ?_⟩, hi⟩
  rcases hfail with hfail | ⟨x, front, i, known, name, rest, hp, hx, hb, hn, hread, he⟩
  · exact .inl hfail
  · cases hx with
    | here => exact .inr ⟨_, [], i, known, name, rest, hp, .here _, hb, hn, hread, he⟩
    | inside hl hx =>
      exact .inr ⟨x, _, i, known, name, rest, hp, .inside (hlead _ _ hl) hx, hb, hn, hread, he⟩

def inside (u : Site) (p : Payload) (rest : Bytes) (shape : Shape) (left : Nat) : Site :=
  ⟨shape, left, u.start + p.position rest, u.start + p.header + p.bytes.length⟩

variable {u : Site}

theorem leads_inside {of : Composite} {p : Payload} {after rest : Bytes}
    (ho : openPayload of (u.window data) = .ok (some p, after)) {location : Location}
    (hc : location.composite? = some of) {left : Nat} (hleft : u.left = u.shape.layers + 1 + left) {shape : Shape}
    (hp : PartAt left u.shape.base location p.bytes rest shape) :
    u.Leads data location (u.inside p rest shape left) :=
  ⟨of, p, after, rest, hc, ho, hleft, hp, rfl, rfl⟩

variable (hu : u.start ≤ u.stop) (hlen : u.stop ≤ data.length)

include hu hlen

theorem window_inside {of : Composite} {p : Payload} {after rest : Bytes}
    (ho : openPayload of (u.window data) = .ok (some p, after)) (hr : rest <:+ p.bytes) (shape : Shape) (left : Nat) :
    (u.inside p rest shape left).window data = rest ∧ (u.inside p rest shape left).stop ≤ u.stop ∧
      (u.inside p rest shape left).start ≤ (u.inside p rest shape left).stop := by
  obtain ⟨-, header, hw, hh, -⟩ := openPayload_eq_ok_some ho
  obtain ⟨front, hf⟩ := hr
  have hsize : (u.window data).length = u.stop - u.start := by
    rw [window, List.length_drop, List.length_take_of_le hlen]
  have hpos : p.position rest = header.length + front.length := by
    rw [Payload.position, ← hf, List.length_append, Nat.add_sub_cancel, hh]
  have hbytes : p.bytes.length = front.length + rest.length := by rw [← hf, List.length_append]
  have hdata : data.drop u.start = header ++ front ++ (rest ++ (after ++ data.drop u.stop)) := by
    have hsplit := List.take_append_drop (u.stop - u.start) (data.drop u.start)
    rw [← List.drop_take, List.drop_drop, Nat.add_sub_cancel' hu] at hsplit
    change u.window data ++ _ = _ at hsplit
    rw [← hsplit, hw, ← hf]
    simp only [List.append_assoc]
  have hstart : (u.inside p rest shape left).start = u.start + (header ++ front).length := by
    rw [List.length_append]
    exact congrArg (u.start + ·) hpos
  have hstop : (u.inside p rest shape left).stop = (u.inside p rest shape left).start + rest.length := by
    rw [hstart, List.length_append]
    change u.start + p.header + p.bytes.length = _
    omega
  refine ⟨?_, ?_, by omega⟩
  · rw [window, List.drop_take, hstop, Nat.add_sub_cancel_left, hstart, ← List.drop_drop, hdata, List.drop_left,
      List.take_left]
  · rw [hw, ← hf] at hsize
    simp only [List.length_append] at hsize
    rw [hstop, hstart, List.length_append]
    omega

def FailsInside (s : Shape) : Prop :=
  ∀ (data : Bytes) (limit left start stop : Nat) (e : Error), start ≤ stop → stop ≤ data.length →
    fresh (decodeInto s ⟨limit, left⟩) (window data ⟨s, left, start, stop⟩) = .error e →
    FailsWith data limit ⟨s, left, start, stop⟩ e

theorem failsWith_of_part {of : Composite} {p : Payload} {after rest : Bytes}
    (ho : openPayload of (u.window data) = .ok (some p, after)) {location : Location}
    (hc : location.composite? = some of) {left : Nat} (hleft : u.left = u.shape.layers + 1 + left) {shape : Shape}
    (hp : PartAt left u.shape.base location p.bytes rest shape) (hin : FailsInside shape) {e : Error}
    (he : fresh (decodeInto shape ⟨limit, left⟩) rest = .error e) :
    u.FailsWith data limit (e.within of (p.position rest) location) := by
  obtain ⟨hw, hstop, hle⟩ := window_inside hu hlen ho hp.suffix shape left
  rw [← hw] at he
  have hv := hin data limit left _ _ e hle (Nat.le_trans hstop hlen) he
  exact FailsWith.within (leads_inside ho hc hleft hp) hc rfl hstop hv

end Site

section Shapes

open Site

theorem failsInside_of_failsPlainly {s : Shape} {read : Bytes → Except Error (Value × Bytes)}
    (hread : ∀ d input dst, decodeInto s d input dst = replace (read input) dst)
    (h : ∀ input, FailsPlainly (read input)) : FailsInside s := by
  intro data limit left start stop e hw _ he
  refine FailsWith.here hw he (Error.path_of_ofUnit ?_)
  rw [fresh_of_replace (hread _ _ .nil)] at he
  exact h _ e he

theorem readItem_eq_error {elem : Update} {p : Payload} {i : Nat} {items : Array Value} {input : Bytes} {e : Error}
    (h : readItem elem p i items input = .error e) :
    ∃ e', fresh elem input = .error e' ∧ e = e'.within .sequence (p.position input) (.element i) := by
  rw [readItem] at h
  cases hf : fresh elem input with
  | ok r =>
    rw [hf] at h
    cases h
  | error e' =>
    rw [hf] at h
    cases h
    exact ⟨e', rfl, rfl⟩

theorem error_in_payload {σ : Type} {of : Composite} {init : σ} {done : σ → Value}
    {read : Depth → Payload → Nat → σ → Bytes → Except Error (σ × Bytes)} {part : Nat → Bytes → Bytes → Prop}
    (hread : ∀ limit left p i x input x' rest, read ⟨limit, left⟩ p i x input = .ok (x', rest) →
      part left input rest) {limit left : Nat} {input : Bytes} {e : Error}
    (h : (do
      match ← openPayload of input with
      | (none, rest) => .ok (.nil, rest)
      | (some p, rest) =>
        let d ← Depth.enter ⟨limit, left⟩
        let x ← p.fold (read d p) init
        .ok (done x, rest)) = (.error e : Except Error (Value × Bytes))) :
    e.path = [] ∨ ∃ left' p after n x rest, left = left' + 1 ∧ openPayload of input = .ok (some p, after) ∧
      Passes (part left') n p.bytes rest ∧ read ⟨limit, left'⟩ p n x rest = .error e := by
  rcases Except.bind_eq_error.mp h with ho | ⟨⟨_ | p, after⟩, ho, h⟩
  · exact .inl (Error.path_of_ofUnit (failsPlainly_openPayload of input e ho))
  · cases h
  · cases left with
    | zero =>
      cases h
      exact .inl rfl
    | succ left =>
      rcases Except.bind_eq_error.mp h with h | ⟨d, hd, h⟩
      · cases h
      cases hd
      rcases Except.bind_eq_error.mp h with h | ⟨x, -, h⟩
      · obtain ⟨n, x, rest, hp, he⟩ := exists_of_eachUnit_eq_error (hread limit left p) h
        rw [Nat.zero_add] at he
        exact .inr ⟨left, p, after, n, x, rest, rfl, ho, hp, he⟩
      · cases h

theorem failsInside_seq {elem : Shape} (h : FailsInside elem) : FailsInside (.seq elem) := by
  intro data limit left start stop e hw hlen hfail
  have he := hfail
  rw [fresh_of_replace (decodeInto_seq _ _ .nil elem)] at he
  have hread (limit left : Nat) (p : Payload) (i : Nat) (items : Array Value) (input : Bytes) (items' : Array Value)
      (rest : Bytes) (hr : readItem (decodeInto elem ⟨limit, left⟩) p i items input = .ok (items', rest)) :
      ReadsItem left elem input rest := by
    obtain ⟨v, hv, -⟩ := readItem_eq_ok hr
    exact ⟨v, reads_of_fresh hv⟩
  rcases error_in_payload hread he with hp | ⟨left, p, after, n, items, rest, rfl, ho, hp, he⟩
  · exact FailsWith.here hw hfail hp
  · obtain ⟨e', he', rfl⟩ := readItem_eq_error he
    have hleft : left + 1 = (Shape.seq elem).layers + 1 + left := Nat.add_comm left 1
    exact failsWith_of_part hw hlen ho rfl hleft (.element hp) h he'

theorem readPairBy_eq_error {σ : Type} {put : Value → Value → σ → σ} {key val : Update} {p : Payload} {i : Nat} {s : σ}
    {input : Bytes} {e : Error} (h : readPairBy put key val p i s input = .error e) :
    (∃ e', fresh key input = .error e' ∧ e = e'.within .map (p.position input) (.mapKey i)) ∨
      ∃ k mid e', fresh key input = .ok (k, mid) ∧ fresh val mid = .error e' ∧
        e = e'.within .map (p.position mid) (.mapValue i) := by
  rw [readPairBy] at h
  cases hk : fresh key input with
  | error e' =>
    rw [hk] at h
    cases h
    exact .inl ⟨e', rfl, rfl⟩
  | ok r =>
    obtain ⟨k, mid⟩ := r
    rw [hk, Except.ok_mapError, Except.ok_bind] at h
    dsimp only at h
    cases hv : fresh val mid with
    | error e' =>
      rw [hv] at h
      cases h
      exact .inr ⟨k, mid, e', rfl, hv, rfl⟩
    | ok r =>
      rw [hv] at h
      cases h

theorem failsInside_map {key val : Shape} (hk : FailsInside key) (hv : FailsInside val) :
    FailsInside (.map key val) := by
  intro data limit left start stop e hw hlen hfail
  have he := hfail
  rw [fresh_of_replace (decodeInto_map _ _ .nil key val)] at he
  rcases Except.bind_eq_error.mp he with he | ⟨_, -, he⟩
  · exact FailsWith.here hw hfail (Error.path_of_ofUnit (failsPlainly_checkKey key e he))
  have hread (limit left : Nat) (p : Payload) (i : Nat) (pairs : List (Value × Value)) (input : Bytes)
      (pairs' : List (Value × Value)) (rest : Bytes)
      (hr : readPairBy put (decodeInto key ⟨limit, left⟩) (decodeInto val ⟨limit, left⟩) p i pairs input =
        .ok (pairs', rest)) : ReadsPair left key val input rest := by
    obtain ⟨k, mid, v, hk, hv, -⟩ := readPairBy_eq_ok hr
    exact ⟨k, mid, v, reads_of_fresh hk, reads_of_fresh hv⟩
  rcases error_in_payload hread he with hp | ⟨left, p, after, n, pairs, rest, rfl, ho, hp, he⟩
  · exact FailsWith.here hw hfail hp
  · have hleft : left + 1 = (Shape.map key val).layers + 1 + left := Nat.add_comm left 1
    rcases readPairBy_eq_error he with ⟨e', he', rfl⟩ | ⟨k, mid, e', hkey, he', rfl⟩
    · exact failsWith_of_part hw hlen ho rfl hleft (.mapKey hp) hk he'
    · exact failsWith_of_part hw hlen ho rfl hleft (.mapValue hp (reads_of_fresh hkey)) hv he'

theorem readField_eq_error {field : String → Option Update} {p : Payload} {i : Nat}
    {fields : List (String × Value)} {input : Bytes} {e : Error}
    (h : readField field p i fields input = .error e) :
    (∃ e', readStr input = .error e' ∧ e = e'.within .record (p.position input) (.fieldName i)) ∨
      ∃ name mid, readStr input = .ok (name, mid) ∧
        (field name = none ∧ e = .nested (p.position input) (.fieldName i) (.malformed (.unknownField name)) ∨
          ∃ update dst e', field name = some update ∧ readOver update dst mid = .error e' ∧
            e = e'.within .record (p.position mid) (.field name)) := by
  rw [readField_eq] at h
  cases hn : readStr input with
  | error e' =>
    rw [hn] at h
    cases h
    exact .inl ⟨e', rfl, rfl⟩
  | ok r =>
    obtain ⟨name, mid⟩ := r
    rw [hn, Except.ok_mapError, Except.ok_bind] at h
    dsimp only at h
    refine .inr ⟨name, mid, rfl, ?_⟩
    cases hf : field name with
    | none =>
      rw [hf] at h
      cases h
      exact .inl ⟨rfl, rfl⟩
    | some update =>
      rw [hf] at h
      dsimp only at h
      cases hu : readOver update ((fields.lookup name).getD .nil) mid with
      | error e' =>
        rw [hu] at h
        cases h
        exact .inr ⟨update, _, e', rfl, hu, rfl⟩
      | ok r =>
        rw [hu] at h
        cases h

theorem fresh_of_decodeInto {s : Shape} {d : Depth} {input : Bytes} (dst : Value) :
    (∀ e, readOver (decodeInto s d) dst input = .error e → fresh (decodeInto s d) input = .error e) ∧
      ∀ v rest, decodeInto s d input dst = .ok rest v → ∃ w, fresh (decodeInto s d) input = .ok (w, rest) := by
  rcases uniform_decodeInto s d input with ⟨x, hx⟩ | ⟨rest, f, -, hok⟩
  · refine ⟨fun e h => ?_, fun v rest h => ?_⟩
    · rw [readOver, hx] at h
      rw [fresh, hx, ← h]
    · rw [hx] at h
      cases h
  · refine ⟨fun e h => ?_, fun v rest' h => ?_⟩
    · rw [readOver, hok] at h
      cases h
    · rw [hok] at h
      cases h
      exact ⟨f .nil, by rw [fresh, hok]⟩

theorem fresh_str (d : Depth) (input : Bytes) :
    fresh (decodeInto .str d) input = (readStr input).map fun r => (.str r.1, r.2) :=
  fresh_of_replace (decodeInto_str d input .nil)

theorem reads_str {left : Nat} {input rest : Bytes} {name : String} (h : readStr input = .ok (name, rest)) :
    Reads left .str input (.str name) rest := by
  have hf : fresh (decodeInto .str ⟨left, left⟩) input = .ok (.str name, rest) := by
    rw [fresh_str, h]
    rfl
  exact reads_of_fresh hf

theorem failsInside_str : FailsInside .str :=
  failsInside_of_failsPlainly decodeInto_str fun input => (failsPlainly_readStr input).map _

theorem failsInside_record {known : List (String × Shape)} (h : ∀ f ∈ known, FailsInside f.2) :
    FailsInside (.record known) := by
  intro data limit left start stop e hw hlen hfail
  have he := hfail
  rw [fresh_of_replace (decodeInto_record _ _ .nil known)] at he
  have hread (limit left : Nat) (p : Payload) (i : Nat) (fields : List (String × Value)) (input : Bytes)
      (fields' : List (String × Value)) (rest : Bytes)
      (hr : readField (decodeField known ⟨limit, left⟩) p i fields input = .ok (fields', rest)) :
      ReadsField left known input rest := by
    obtain ⟨name, mid, update, v, hn, hu, hv, -⟩ := readField_eq_ok hr
    rw [decodeField_eq, Option.map_eq_some_iff] at hu
    obtain ⟨s, hs, rfl⟩ := hu
    obtain ⟨w, hw⟩ := (fresh_of_decodeInto _).2 v rest hv
    exact ⟨name, mid, s, w, reads_str hn, hs, reads_of_fresh hw⟩
  rcases error_in_payload hread he with hp | ⟨left, p, after, n, fields, rest, rfl, ho, hp, he⟩
  · exact FailsWith.here hw hfail hp
  · have hleft : left + 1 = (Shape.record known).layers + 1 + left := Nat.add_comm left 1
    rcases readField_eq_error he with ⟨e', hs, rfl⟩ | ⟨name, mid, hs, ⟨hf, rfl⟩ | ⟨update, dst, e', hf, he', rfl⟩⟩
    · have hstr : fresh (decodeInto .str ⟨limit, left⟩) rest = .error e' := by
        rw [fresh_str, hs]
        rfl
      exact failsWith_of_part hw hlen ho rfl hleft (.fieldName hp) failsInside_str hstr
    · rw [decodeField_eq, Option.map_eq_none_iff] at hf
      obtain ⟨hw', hstop, hle⟩ := window_inside hw hlen ho (PartAt.fieldName hp).suffix .str left
      have hl := leads_inside ho rfl hleft (.fieldName hp)
      rw [← hw'] at hs
      exact ⟨⟨_, .inside hl (.here _), rfl, hle, hstop,
        .inr ⟨_, [], n, known, name, mid, rfl, .here _, rfl, hf, reads_str hs, rfl⟩⟩, nofun⟩
    · rw [decodeField_eq, Option.map_eq_some_iff] at hf
      obtain ⟨s, hf, rfl⟩ := hf
      have herr := (fresh_of_decodeInto dst).1 e' he'
      exact failsWith_of_part hw hlen ho rfl hleft (.field hp (reads_str hs) hf) (h _ (mem_of_lookup hf)) herr

theorem failsInside_optional {inner : Shape} (h : FailsInside inner) : FailsInside (.optional inner) := by
  intro data limit left start stop e hw hlen hfail
  have he := hfail
  rw [fresh_decodeInto_optional] at he
  rcases Except.bind_eq_error.mp he with hn | ⟨r, -, he⟩
  · exact FailsWith.here hw hfail (Error.path_of_ofUnit (failsPlainly_readAbsentLayers _ _ e hn))
  cases r with
  | some rest => cases he
  | none =>
    cases left with
    | zero =>
      cases he
      exact FailsWith.here hw hfail rfl
    | succ left =>
      have hin : fresh (decodeInto inner ⟨limit, left⟩) (window data ⟨inner, left, start, stop⟩) = .error e := by
        rcases Except.bind_eq_error.mp he with he | ⟨d, hd, he⟩
        · cases he
        · cases hd
          exact Except.map_eq_error.mp he
      by_cases hp : e.path = []
      · exact FailsWith.here hw hfail hp
      · exact FailsWith.optional hp (h data limit left start stop e hw hlen hin)

theorem failsInside (s : Shape) : FailsInside s := by
  induction s with
  | bool => exact failsInside_of_failsPlainly decodeInto_bool fun input => (failsPlainly_readBool input).map _
  | int kind =>
    exact failsInside_of_failsPlainly (fun d input dst => decodeInto_int d input dst kind) (failsPlainly_readInteger kind)
  | str => exact failsInside_str
  | blob => exact failsInside_of_failsPlainly decodeInto_blob failsPlainly_readContent
  | seq elem ih => exact failsInside_seq ih
  | map key val ihk ihv => exact failsInside_map ihk ihv
  | record known ih => exact failsInside_record ih
  | optional inner ih => exact failsInside_optional ih

end Shapes

/-- A failure of decoding is at a unit that its places lead to, under reference layers, and its offset is where
this unit starts. Decoding the unit by itself, up to the end of the payload around it and within the levels that
are left, fails with the failure at the root, which says of a unit cut short inside a payload that the payload
ends too early; or else the unit is the name of a field that the record around it does not have. A failure that
more input might help is at no place inside. -/
theorem decodeValue_error_place {c : Config} {s : Shape} {data : Bytes} {e : Error}
    (h : decodeValue c s data = .error e) :
    (∃ u : Site, Site.Reaches data ⟨s, c.maxDepth, 0, data.length⟩ e.path u ∧ s.at? e.path = some u.shape ∧
      u.start = e.offset ∧ u.start ≤ u.stop ∧ u.stop ≤ data.length ∧
      ((∃ r, decodeValue { maxDepth := u.left } u.shape (u.window data) = .error r ∧ r.path = [] ∧
          e.root = (r.requote c.maxDepth).settled (around e.path)) ∨
        ∃ parent front i known name rest, e.path = front ++ [.fieldName i] ∧
          Site.Reaches data ⟨s, c.maxDepth, 0, data.length⟩ front parent ∧ parent.shape.base = .record known ∧
          known.lookup name = none ∧ Reads u.left .str (u.window data) (.str name) rest ∧
          e.root = .malformed (.unknownField name))) ∧
    (e.isIncomplete → e.path = [] ∧ e.offset = 0) := by
  have hall : Site.window data ⟨s, c.maxDepth, 0, data.length⟩ = data := List.take_length
  rw [decodeValue_eq] at h
  have hf := Except.map_eq_error.mp h
  obtain ⟨⟨u, hr, hstart, hle, hstop, hfail⟩, hi⟩ := failsInside s data c.maxDepth c.maxDepth 0 data.length e
    (Nat.zero_le _) (Nat.le_refl _) (by rw [hall]; exact hf)
  rw [Nat.zero_add] at hstart
  refine ⟨⟨u, hr, hr.shape_eq, hstart, hle, hstop, hfail⟩, fun hinc => ⟨hi hinc, Error.offset_of_path (hi hinc)⟩⟩

theorem decodeValue_error_place_text :
    let s : Shape := .record [("a", .optional (.map .bool (.seq .str)))]
    let data : Bytes := [1, 14, 1, 1, 97, 1, 9, 1, 1, 6, 1, 1, 120, 1, 5, 104, 255]
    let r : Error := .unexpectedEnd (.stringContent) 1 5
    let e : Error := .nested 5 (.field "a") (.nested 3 (.mapValue 0) (.nested 5 (.element 1)
      (.misaligned .sequence r)))
    decodeValue {} s data = .error e ∧ e.offset = 13 ∧
    ∃ u : Site, Site.Reaches data ⟨s, 64, 0, 17⟩ [.field "a", .mapValue 0, .element 1] u ∧ u.shape = .str ∧
      u.start = 13 ∧ u.stop ≤ 17 := by
  intro s data r e
  have h : decodeValue {} s data = .error e := rfl
  obtain ⟨⟨u, hr, hs, hstart, -, hstop, -⟩, -⟩ := decodeValue_error_place h
  have hstr : some Shape.str = some u.shape := hs
  exact ⟨h, rfl, u, hr, (Option.some.inj hstr).symm, hstart, hstop⟩

end ShapeCodec
