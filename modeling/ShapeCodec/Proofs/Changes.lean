import ShapeCodec.Proofs.Reading

/-!
What decoding does to a destination. The input alone says whether it fails and which change it makes;
and making the change a second time changes nothing.
-/

namespace ShapeCodec

open Wire

namespace Value

/-- Makes one change after another, each to the first field of its name, which is added if there is
none. -/
def changeFields : List (String × (Value → Value)) → List (String × Value) → List (String × Value)
  | [], fields => fields
  | (name, f) :: changes, fields =>
    changeFields changes (putField name (f ((fields.lookup name).getD .nil)) fields)

def changeAt (name : String) : List (String × (Value → Value)) → Value → Value
  | [], v => v
  | (n, f) :: changes, v => changeAt name changes (if n = name then f v else v)

section Fields

variable {changes : List (String × (Value → Value))} {fields : List (String × Value)}

theorem changeFields_append (before after : List (String × (Value → Value))) (fields : List (String × Value)) :
    changeFields (before ++ after) fields = changeFields after (changeFields before fields) := by
  induction before generalizing fields with
  | nil => rfl
  | cons c before ih => exact ih _

theorem changeAt_filter_ne (name n : String) (v : Value) :
    changeAt n (changes.filter (·.1 ≠ name)) v = if n = name then v else changeAt n changes v := by
  induction changes generalizing v with
  | nil => simp [changeAt]
  | cons c changes ih =>
    obtain ⟨m, f⟩ := c
    by_cases hm : m = name
    · subst hm
      rw [filter_ne_cons_self, ih, changeAt]
      split
      · rfl
      · next hn => rw [if_neg (Ne.symm hn)]
    · rw [filter_ne_cons_of_ne hm, changeAt, ih, changeAt]
      split
      · next hn => rw [if_neg (fun h => hm (h.trans hn))]
      · rfl

theorem changeFields_cons (changes : List (String × (Value → Value))) (name : String) (v : Value)
    (fields : List (String × Value)) : changeFields changes ((name, v) :: fields) =
      (name, changeAt name changes v) :: changeFields (changes.filter (·.1 ≠ name)) fields := by
  induction changes generalizing v fields with
  | nil => rfl
  | cons c changes ih =>
    obtain ⟨n, f⟩ := c
    rw [changeFields, lookup_cons_eq, putField, changeAt]
    by_cases hn : n = name
    · subst hn
      rw [if_pos rfl, if_pos rfl, if_pos rfl, ih, filter_ne_cons_self]
      rfl
    · rw [if_neg (Ne.symm hn), if_neg (Ne.symm hn), if_neg hn, ih, filter_ne_cons_of_ne hn]
      rfl

theorem changeFields_cons_nil (name : String) (f : Value → Value) (changes : List (String × (Value → Value))) :
    changeFields ((name, f) :: changes) [] = (name, changeAt name ((name, f) :: changes) .nil) ::
      changeFields (((name, f) :: changes).filter (·.1 ≠ name)) [] := by
  rw [changeFields, putField, changeFields_cons, changeAt, if_pos rfl, filter_ne_cons_self]
  rfl

def Settled (changes : List (String × (Value → Value))) : Prop :=
  ∀ name v, changeAt name changes (changeAt name changes v) = changeAt name changes v

theorem Settled.filter_ne (h : Settled changes) (name : String) : Settled (changes.filter (·.1 ≠ name)) := by
  intro n v
  simp only [changeAt_filter_ne]
  split
  · rfl
  · exact h n v

theorem Settled.idem_nil (h : Settled changes) :
    changeFields changes (changeFields changes []) = changeFields changes [] := by
  -- The first change adds a field, and the changes of its name are then done with.
  induction hl : changes.length using Nat.strongRecOn generalizing changes with
  | ind k ih =>
    cases changes with
    | nil => rfl
    | cons c changes =>
      obtain ⟨name, f⟩ := c
      have hshort : (((name, f) :: changes).filter (·.1 ≠ name)).length < k := by
        rw [filter_ne_cons_self, ← hl, List.length_cons]
        exact Nat.lt_succ_of_le (List.length_filter_le _ _)
      rw [changeFields_cons_nil, changeFields_cons, h, ih _ hshort (h.filter_ne name) rfl]

theorem Settled.idem (h : Settled changes) (fields : List (String × Value)) :
    changeFields changes (changeFields changes fields) = changeFields changes fields := by
  induction fields generalizing changes with
  | nil => exact h.idem_nil
  | cons field fields ih =>
    rw [changeFields_cons, changeFields_cons, h, ih (h.filter_ne field.1)]

end Fields

/-- What may be done to a destination, no more than so many levels deep: to keep it or to replace it, to
change the target of a reference layer, and to change the fields of a record. -/
inductive Change : Nat → (Value → Value) → Prop
  | keep (levels : Nat) : Change levels fun dst => dst
  | replace (levels : Nat) (v : Value) : Change levels fun _ => v
  | through {levels : Nat} {f : Value → Value} : Change levels f →
      Change (levels + 1) fun dst => .ref (f dst.target)
  | merge {levels : Nat} {changes : List (String × (Value → Value))} :
      (∀ c ∈ changes, Change levels c.2) →
      Change (levels + 1) fun dst => .record (changeFields changes dst.fields)

namespace Change

variable {levels : Nat} {f g : Value → Value}

theorem comp (hf : Change levels f) (hg : Change levels g) : Change levels fun dst => g (f dst) := by
  induction hg generalizing f with
  | keep levels => exact hf
  | replace levels v => exact .replace levels v
  | @through levels g hg ih =>
    cases hf with
    | keep => exact .through hg
    | replace _ v => exact .replace _ _
    | through hf => exact .through (ih hf)
    | merge hf => exact .replace _ (.ref (g .nil))
  | @merge levels after hafter =>
    cases hf with
    | keep => exact .merge hafter
    | replace _ v => exact .replace _ _
    | through hf => exact .replace _ (.record (changeFields after []))
    | @merge _ before hbefore =>
      have hboth := Change.merge (List.forall_mem_append.mpr ⟨hbefore, hafter⟩)
      simp only [changeFields_append] at hboth
      exact hboth

theorem changeAt {changes : List (String × (Value → Value))} (h : ∀ c ∈ changes, Change levels c.2)
    (name : String) : Change levels (Value.changeAt name changes) := by
  induction changes with
  | nil => exact .keep levels
  | cons c changes ih =>
    obtain ⟨hc, hrest⟩ := List.forall_mem_cons.mp h
    by_cases hn : c.1 = name
    · simpa only [Value.changeAt, if_pos hn] using hc.comp (ih hrest)
    · simpa only [Value.changeAt, if_neg hn] using ih hrest

theorem idem (h : Change levels f) (dst : Value) : f (f dst) = f dst := by
  -- A record may change one field many times over. Together these are one change, though no part of the
  -- change of the record, so the induction is on the levels.
  induction levels generalizing f dst with
  | zero => cases h <;> rfl
  | succ levels ih =>
    cases h with
    | keep => rfl
    | replace _ v => rfl
    | through hf => exact congrArg Value.ref (ih hf dst.target)
    | merge hc =>
      have hs : Settled _ := fun name v => ih (changeAt hc name) v
      exact congrArg Value.record (hs.idem dst.fields)

end Change

end Value

/-- Whatever the destination is, the step fails with one failure and leaves it, or has one rest and makes
one change. -/
def Uniform (levels : Nat) (step : EStateM Error Value Bytes) : Prop :=
  (∃ e, ∀ dst, step dst = .error e dst) ∨
    ∃ rest f, Value.Change levels f ∧ ∀ dst, step dst = .ok rest (f dst)

theorem uniform_of_replace {levels : Nat} {step : EStateM Error Value Bytes}
    {r : Except Error (Value × Bytes)} (h : ∀ dst, step dst = replace r dst) : Uniform levels step := by
  rcases r with e | ⟨v, rest⟩
  · exact .inl ⟨e, h⟩
  · exact .inr ⟨rest, _, .replace levels v, h⟩

theorem uniform_throughLayer {levels : Nat} {update : Update} {input : Bytes}
    (h : Uniform levels (update input)) : Uniform (levels + 1) (throughLayer update input) := by
  rcases h with ⟨e, he⟩ | ⟨rest, f, hf, hok⟩
  · refine .inl ⟨e, fun dst => ?_⟩
    cases dst <;> simp only [throughLayer, he]
  · refine .inr ⟨rest, _, .through hf, fun dst => ?_⟩
    cases dst <;> simp only [throughLayer, hok, Value.target]

section Records

variable {levels : Nat} {fieldUpdate : String → Option Update}

def UniformFields (levels : Nat) (step : List (String × Value) → Except Error (List (String × Value))) : Prop :=
  (∃ e, ∀ fields, step fields = .error e) ∨
    ∃ changes : List (String × (Value → Value)), (∀ c ∈ changes, Value.Change levels c.2) ∧
      ∀ fields, step fields = .ok (Value.changeFields changes fields)

theorem uniform_readField (h : ∀ name update, fieldUpdate name = some update → ∀ input, Uniform levels (update input))
    (p : Payload) (i : Nat) (input : Bytes) :
    (∃ e, ∀ fields, readField fieldUpdate p i fields input = .error e) ∨
      ∃ name f rest, Value.Change levels f ∧ ∀ fields, readField fieldUpdate p i fields input =
        .ok (Value.putField name (f ((fields.lookup name).getD .nil)) fields, rest) := by
  simp only [readField]
  cases readStr input with
  | error e => exact .inl ⟨_, fun _ => rfl⟩
  | ok r =>
    obtain ⟨name, rest⟩ := r
    simp only [Except.ok_mapError, Except.ok_bind]
    cases hu : fieldUpdate name with
    | none => exact .inl ⟨_, fun _ => rfl⟩
    | some update =>
      rcases h name update hu rest with ⟨e, he⟩ | ⟨after, f, hf, hok⟩
      · exact .inl ⟨e.within .record (p.position rest) (.field name), fun fields => by simp only [he]⟩
      · exact .inr ⟨name, f, after, hf, fun fields => by simp only [hok]⟩

theorem uniform_eachUnit (h : ∀ name update, fieldUpdate name = some update → ∀ input, Uniform levels (update input))
    (p : Payload) (fuel i : Nat) (input : Bytes) :
    UniformFields levels fun fields => eachUnit (readField fieldUpdate p) fuel i fields input := by
  induction fuel generalizing i input with
  | zero =>
    refine .inr ⟨[], nofun, fun fields => ?_⟩
    cases input <;> rfl
  | succ fuel ih =>
    cases input with
    | nil => exact .inr ⟨[], nofun, fun fields => rfl⟩
    | cons b input =>
      rcases uniform_readField h p i (b :: input) with ⟨e, he⟩ | ⟨name, f, rest, hf, hok⟩
      · exact .inl ⟨e, fun fields => by simp only [eachUnit, he, Except.error_bind]⟩
      · simp only [UniformFields, eachUnit, hok, Except.ok_bind]
        rcases ih (i + 1) rest with ⟨e, he⟩ | ⟨changes, hc, hok⟩
        · exact .inl ⟨e, fun fields => he _⟩
        · exact .inr ⟨(name, f) :: changes, List.forall_mem_cons.mpr ⟨hf, hc⟩, fun fields => hok _⟩

theorem uniform_readRecord {d : Depth} {field : Depth → String → Option Update}
    (h : ∀ e, d.enter = .ok e → ∀ name update, field e name = some update → ∀ input, Uniform e.left (update input))
    (input : Bytes) : Uniform d.left fun dst => replace (readRecord d field dst.fields input) dst := by
  simp only [readRecord]
  cases openPayload .record input with
  | error e => exact .inl ⟨e, fun _ => rfl⟩
  | ok r =>
    obtain ⟨_ | p, rest⟩ := r
    · exact .inr ⟨rest, _, .replace _ .nil, fun _ => rfl⟩
    · simp only [Except.ok_bind]
      cases he : d.enter with
      | error e => exact .inl ⟨e, fun _ => rfl⟩
      | ok e =>
        obtain ⟨-, hleft⟩ := Depth.enter_eq_ok_iff.mp he
        rw [hleft]
        simp only [Except.ok_bind, Payload.fold]
        rcases uniform_eachUnit (h e he) p p.bytes.length 0 p.bytes with ⟨x, hx⟩ | ⟨changes, hc, hok⟩
        · exact .inl ⟨x, fun dst => by simp only [hx]; rfl⟩
        · exact .inr ⟨rest, _, .merge hc, fun dst => by simp only [hok]; rfl⟩

end Records

theorem uniform_decodeInto (s : Shape) (d : Depth) (input : Bytes) : Uniform d.left (decodeInto s d input) := by
  induction s generalizing d input with
  | bool => exact uniform_of_replace (decodeInto_bool d input)
  | int kind => exact uniform_of_replace fun dst => decodeInto_int d input dst kind
  | str => exact uniform_of_replace (decodeInto_str d input)
  | blob => exact uniform_of_replace (decodeInto_blob d input)
  | seq elem _ => exact uniform_of_replace fun dst => decodeInto_seq d input dst elem
  | map key val _ _ => exact uniform_of_replace fun dst => decodeInto_map d input dst key val
  | record known ih =>
    rw [show decodeInto (.record known) d input = _ from funext fun dst => decodeInto_record d input dst known]
    refine uniform_readRecord (fun e _ name update hu input => ?_) input
    rw [decodeField_eq, Option.map_eq_some_iff] at hu
    obtain ⟨t, ht, rfl⟩ := hu
    exact ih _ (mem_of_lookup ht) e input
  | optional inner ih =>
    rw [decodeInto]
    cases readAbsentLayers (.optional inner) input with
    | error e => exact .inl ⟨e, fun _ => rfl⟩
    | ok r =>
      cases r with
      | some rest => exact .inr ⟨rest, _, .replace _ .nil, fun _ => rfl⟩
      | none =>
        cases he : d.enter with
        | error e => exact .inl ⟨e, fun _ => rfl⟩
        | ok e =>
          obtain ⟨-, hleft⟩ := Depth.enter_eq_ok_iff.mp he
          rw [hleft]
          exact uniform_throughLayer (ih e input)

/-- The input alone decides what decoding over a destination answers, and to decode it a second time leaves
the destination as the first time left it. -/
theorem decodeValueInto_over_any (c : Config) (s : Shape) (data : Bytes) (dst : Value) :
    (decodeValueInto c s data dst).answer = (decodeValue c s data).map Prod.snd ∧
    ∀ used dst', decodeValueInto c s data dst = .ok used dst' → decodeValueInto c s data dst' = .ok used dst' := by
  rw [decodeValue_eq, fresh]
  simp only [decodeValueInto_eq]
  rcases uniform_decodeInto s (.upTo c.maxDepth) data with ⟨e, he⟩ | ⟨rest, f, hf, hok⟩
  · simp only [he]
    exact ⟨rfl, nofun⟩
  · simp only [hok]
    refine ⟨rfl, fun used dst' h => ?_⟩
    cases h
    rw [hf.idem]

theorem decodeValueInto_over_any_reset :
    let s : Shape := .record [("a", .optional (.record [("x", .bool), ("y", .bool)])), ("b", .bool)]
    let data : Bytes := [1, 26, 1, 1, 97, 1, 4, 1, 1, 120, 1, 1, 1, 97, 64, 1, 1, 98, 1,
      1, 1, 97, 1, 4, 1, 1, 121, 0]
    let dst : Value := .record [("b", .bool false), ("a", .ref (.record [("y", .bool true), ("x", .nil)]))]
    let dst' : Value := .record [("b", .bool true), ("a", .ref (.record [("y", .bool false)]))]
    decodeValueInto {} s data dst = .ok 28 dst' ∧ decodeValueInto {} s data dst' = .ok 28 dst' := by
  intro s data dst dst'
  have h : decodeValueInto {} s data dst = .ok 28 dst' := rfl
  exact ⟨h, (decodeValueInto_over_any {} s data dst).2 28 dst' h⟩

end ShapeCodec
