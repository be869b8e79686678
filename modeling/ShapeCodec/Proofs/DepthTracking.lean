import ShapeCodec.Depth
import ShapeCodec.Proofs.Outcome

/-!
A count of the levels that are entered, taken back as each of them is left, against handing down how many
levels remain.
-/

namespace ShapeCodec

structure DepthTracker where
  depth : Nat
  max : Nat

namespace DepthTracker

variable {α β : Type}

def new (max : Nat) : DepthTracker :=
  ⟨0, max⟩

def enter : EStateM Error DepthTracker Unit := fun t =>
  if t.max < t.depth + 1 then .error (.depthExceeded t.max) t else .ok () { t with depth := t.depth + 1 }

def leave (t : DepthTracker) : DepthTracker :=
  { t with depth := t.depth - 1 }

def nested (step : EStateM Error DepthTracker α) : EStateM Error DepthTracker α := do
  enter
  fun t =>
    match step t with
    | .ok a t => .ok a t.leave
    | .error e t => .error e t.leave

def remaining (t : DepthTracker) : Depth :=
  ⟨t.max, t.max - t.depth⟩

def keep (x : Except Error α) : EStateM Error DepthTracker α := fun t =>
  match x with
  | .ok a => .ok a t
  | .error e => .error e t

/-- The step has the outcome that is told from the levels that remain, and leaves as many of them. -/
def Computes (step : EStateM Error DepthTracker α) (outcome : Depth → Except Error α) : Prop :=
  ∀ t : DepthTracker, t.depth ≤ t.max → step t = keep (outcome t.remaining) t

theorem computes_keep (x : Except Error α) : Computes (keep x) fun _ => x :=
  fun _ _ => rfl

variable {step : EStateM Error DepthTracker α} {outcome : Depth → Except Error α}

theorem Computes.bind {next : α → EStateM Error DepthTracker β} {outcomes : α → Depth → Except Error β}
    (h : Computes step outcome) (hn : ∀ a, Computes (next a) (outcomes a)) :
    Computes (step >>= next) fun d => outcome d >>= fun a => outcomes a d := by
  intro t ht
  change EStateM.bind step next t = _
  rw [EStateM.bind, h t ht]
  dsimp only
  cases outcome t.remaining with
  | error e => rfl
  | ok a => exact hn a t ht

/-- A level that is entered and left again is one that is handed down. -/
theorem Computes.nested (h : Computes step outcome) : Computes (nested step) fun d => d.enter >>= outcome := by
  rintro ⟨depth, max⟩ ht
  dsimp only at ht
  change EStateM.bind enter _ ⟨depth, max⟩ = keep (Depth.enter ⟨max, max - depth⟩ >>= outcome) ⟨depth, max⟩
  unfold EStateM.bind enter
  dsimp only
  by_cases hlt : max < depth + 1
  · have hleft : max - depth = 0 := by omega
    rw [if_pos hlt, hleft]
    rfl
  · have hleft : max - depth = max - (depth + 1) + 1 := by omega
    rw [if_neg hlt, hleft]
    dsimp only
    rw [h _ (Nat.not_lt.mp hlt)]
    change _ = keep (outcome ⟨max, max - (depth + 1)⟩) _
    rw [remaining]
    cases outcome ⟨max, max - (depth + 1)⟩ <;> rfl

theorem Computes.of_new (h : Computes step outcome) (max : Nat) :
    step (new max) = keep (outcome (.upTo max)) (new max) :=
  h (new max) (Nat.zero_le max)

end DepthTracker

end ShapeCodec
