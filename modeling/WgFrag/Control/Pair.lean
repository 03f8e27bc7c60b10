import WgFrag.Control.Follows

/-! Two engines and the channel between them. Every frame ever returned may be delivered at
any time, any number of times and in any order, or never. -/
namespace WgFrag.Control
open WgFrag.Lib WgFrag.Wire List

inductive Side where
  | left
  | right
  deriving DecidableEq, Repr

def Side.other : Side → Side
  | .left => .right
  | .right => .left

theorem Side.other_other (d : Side) : d.other.other = d := by
  cases d <;> rfl

/-- An engine with all the frames that were sent from its side, oldest first. -/
structure Endpoint where
  engine : Engine
  sent : List Bytes := []

structure Pair where
  left : Endpoint
  right : Endpoint

namespace Pair

def get (s : Pair) : Side → Endpoint
  | .left => s.left
  | .right => s.right

def set (s : Pair) : Side → Endpoint → Pair
  | .left, p => { s with left := p }
  | .right, p => { s with right := p }

theorem get_set (s : Pair) (d' d : Side) (p : Endpoint) :
    (s.set d' p).get d = if d' = d then p else s.get d := by
  cases d <;> cases d' <;> rfl

/-- What can happen next: a call of an owner, the delivery of the `n`-th frame that the other
side has sent, or the replacement of an engine by a fresh one. -/
inductive Input where
  | call (d : Side) (i : Engine.Call)
  | deliver (d : Side) (n : ℕ)
  | replace (d : Side) (config : EngineConfig)

end Pair

def Endpoint.run (P : Proto) (p : Endpoint) (i : Engine.Call) : Endpoint :=
  let r := Engine.call P i p.engine
  { engine := r.2
    sent := p.sent ++ match r.1 with
      | .ok out => out
      | .error _ => [] }

theorem Endpoint.run_sent {P : Proto} {p : Endpoint} {i : Engine.Call} {f : Bytes}
    (h : f ∈ (p.run P i).sent) :
    f ∈ p.sent ∨ ∃ out, (Engine.call P i p.engine).1 = .ok out ∧ f ∈ out := by
  rcases mem_append.mp h with hold | hn
  · exact .inl hold
  split at hn
  · rename_i out ho
    exact .inr ⟨out, ho, hn⟩
  · cases hn

namespace Pair
variable (P : Proto)
variable {s : Pair}

section
variable (s)

/-- The engine call that an input makes. Frames arrive by delivery only. -/
def callOf : Input → Option (Side × Engine.Call)
  | .call _ (.handleInbound _) => none
  | .call d i => some (d, i)
  | .deliver d n => (s.get d.other).sent[n]?.map fun frame => (d, .handleInbound frame)
  | .replace _ _ => none

def act : Option (Side × Engine.Call) → Pair
  | some (d, i) => s.set d ((s.get d).run P i)
  | none => s

def step : Input → Pair
  | .replace d config =>
    match Engine.new config with
    | .ok e => s.set d { s.get d with engine := e }
    | .error _ => s
  | .call d i => s.act P (s.callOf (.call d i))
  | .deliver d n => s.act P (s.callOf (.deliver d n))

def machine : Machine Pair Input := ⟨s, step P⟩

/-- Both engines as their constructor returns them, and nothing sent. -/
def New : Prop :=
  ∀ d, (∃ config, Engine.new config = .ok (s.get d).engine) ∧ (s.get d).sent = []

def Sound : Prop := ∀ d, (s.get d).engine.core.Sound

end

theorem New.sound (h : s.New) : s.Sound := fun d => by
  obtain ⟨⟨_, hn⟩, -⟩ := h d
  exact Engine.new_sound hn

private theorem act_get (s : Pair) (c : Option (Side × Engine.Call)) (d : Side) :
    (s.act P c).get d = s.get d ∨ ∃ i, c = some (d, i) ∧ (s.act P c).get d = (s.get d).run P i := by
  cases c with
  | none => exact .inl rfl
  | some c =>
    obtain ⟨d', i⟩ := c
    by_cases hd : d' = d
    · subst hd
      exact .inr ⟨i, rfl, by rw [act, get_set, if_pos rfl]⟩
    · exact .inl (by rw [act, get_set, if_neg hd])

theorem step_cases (s : Pair) (x : Input) (d : Side) :
    (step P s x).get d = s.get d ∨
    (∃ i, s.callOf x = some (d, i) ∧ (step P s x).get d = (s.get d).run P i) ∨
    (∃ config e, x = .replace d config ∧ Engine.new config = .ok e ∧
      (step P s x).get d = { s.get d with engine := e }) := by
  cases x with
  | replace d' config =>
    cases hn : Engine.new config with
    | error => exact .inl (by simp [step, hn])
    | ok e =>
      have hst : (step P s (.replace d' config)).get d =
          if d' = d then { s.get d' with engine := e } else s.get d := by
        simp only [step, hn]
        exact get_set _ _ _ _
      by_cases hd : d' = d
      · subst hd
        rw [if_pos rfl] at hst
        exact .inr (.inr ⟨config, e, rfl, hn, hst⟩)
      · rw [if_neg hd] at hst
        exact .inl hst
  | call d' i => exact (act_get P s (s.callOf (.call d' i)) d).imp_right .inl
  | deliver d' n => exact (act_get P s (s.callOf (.deliver d' n)) d).imp_right .inl

theorem step_sound (hs : s.Sound) (x : Input) : (step P s x).Sound := fun d => by
  obtain h | ⟨i, -, h⟩ | ⟨_, _, -, hn, h⟩ := step_cases P s x d
  · rw [h]
    exact hs d
  · rw [h]
    exact Engine.call_sound (hs d) i
  · rw [h]
    exact Engine.new_sound hn

theorem after_sound (hs : s.Sound) (xs : List Input) : ((machine P s).after xs).Sound :=
  (machine P s).invariant hs (fun _ x h => step_sound P h x) xs

/-! ### One side of a run -/

/-- The calls made on one side, newest first. -/
def calls (s : Pair) (d : Side) : List Input → List Engine.Call
  | [] => []
  | x :: xs =>
    match ((machine P s).after xs).callOf x with
    | some (d', i) => if d' = d then i :: calls s d xs else calls s d xs
    | none => calls s d xs

def Input.IsReplace : Input → Prop
  | .replace _ _ => True
  | _ => False

instance : DecidablePred Input.IsReplace
  | .replace _ _ => isTrue trivial
  | .call _ _ | .deliver _ _ => isFalse id

/-- An input that replaces nothing makes at most one call, on one side. -/
theorem after_cons (s : Pair) (d : Side) {x : Input} (xs : List Input) (hx : ¬ x.IsReplace) :
    (((machine P s).after (x :: xs)).get d = ((machine P s).after xs).get d ∧
      calls P s d (x :: xs) = calls P s d xs) ∨
    ∃ i, ((machine P s).after xs).callOf x = some (d, i) ∧
      ((machine P s).after (x :: xs)).get d = (((machine P s).after xs).get d).run P i ∧
      calls P s d (x :: xs) = i :: calls P s d xs := by
  have hst : (machine P s).after (x :: xs) =
      ((machine P s).after xs).act P (((machine P s).after xs).callOf x) := by
    cases x with
    | replace => exact absurd trivial hx
    | _ => rfl
  rw [hst, calls]
  cases hcall : ((machine P s).after xs).callOf x with
  | none => exact .inl ⟨rfl, rfl⟩
  | some c =>
    obtain ⟨d', i⟩ := c
    rw [act, get_set]
    by_cases hd : d' = d
    · subst hd
      exact .inr ⟨i, rfl, if_pos rfl, if_pos rfl⟩
    · exact .inl ⟨if_neg hd, if_neg hd⟩

/-- Without replacements each engine is a run of its own calls. -/
theorem after_engine (s : Pair) (d : Side) {xs : List Input} (hxs : ∀ x ∈ xs, ¬ x.IsReplace) :
    (((machine P s).after xs).get d).engine =
      (Engine.machine P (s.get d).engine).after (calls P s d xs) := by
  induction xs with
  | nil => rfl
  | cons x xs ih =>
    have ih := ih fun y hy => hxs y (mem_cons_of_mem x hy)
    obtain ⟨hg, hc⟩ | ⟨_, -, hg, hc⟩ := after_cons P s d xs (hxs x mem_cons_self)
    · rw [hg, hc]
      exact ih
    · rw [hg, hc, Machine.after, ← ih]
      rfl

/-- A frame that is handed to an engine was sent by the other side. -/
theorem callOf_sent {x : Input} {d : Side} {frame : Bytes}
    (h : s.callOf x = some (d, .handleInbound frame)) : frame ∈ (s.get d.other).sent := by
  cases x with
  | call _ i => cases i <;> cases h
  | deliver =>
    obtain ⟨_, hmem, hfr⟩ := Option.map_eq_some_iff.mp h
    cases hfr
    exact mem_of_getElem? hmem
  | replace => cases h

/-! ### A pair with small parameters, for runs that are evaluated -/

/-- A clock that advances by `tick` at every reading. -/
def sampleConfig (seed : ℕ) (tick : Duration := millisecond) : EngineConfig where
  state := {
    maxCarrierPayload := 1400
    minCarrierPayload := 613
    supportedFeatureBits := 0
    requiredFeatureBits := 0
    reassemblyLifetimeMs := 1000
    localPeerMTU := 1420
    stateSyncMinInterval := second
    clock := fun n => second + n * tick
    entropy := fun n => some (UInt64.ofNat (seed + n)) }

def sampleEngine (seed : ℕ) (tick : Duration := millisecond) : Engine where
  state := { config := (sampleConfig seed tick).state }
  codec := ⟨1400⟩
  base := 613
  canonicalizeCarrierPayload := none
  transportDatagramSize := none
  onConfirmedPayloadChange := false

theorem sampleEngine_new (seed : ℕ) (tick : Duration := millisecond) :
    Engine.new (sampleConfig seed tick) = .ok (sampleEngine seed tick) := by
  have hv : (sampleConfig seed tick).state.Valid := (by decide : (sampleConfig 0).state.Valid)
  have hsz : ¬ (sampleConfig seed tick).state.maxCarrierPayload.toNat < headerSize + 1 :=
    (by decide : ¬ (1400 : UInt32).toNat < headerSize + 1)
  simp only [Engine.new, State.new, if_pos hv, if_neg hsz]
  rfl

def sample : Pair := ⟨⟨sampleEngine 1, []⟩, ⟨sampleEngine 1000, []⟩⟩

theorem sample_new : sample.New := by
  intro d
  cases d
  · exact ⟨⟨_, sampleEngine_new 1⟩, rfl⟩
  · exact ⟨⟨_, sampleEngine_new 1000⟩, rfl⟩

/-- Every frame delivered once and in order, until both sides may send DATA. -/
@[irreducible] def handshake : List Input :=
  [.deliver .right 9, .deliver .left 9, .deliver .left 8, .deliver .right 8, .deliver .right 7,
    .deliver .left 7, .deliver .left 6, .deliver .right 6, .deliver .right 5, .deliver .left 5,
    .deliver .left 4, .deliver .right 4, .deliver .right 3, .deliver .left 3, .deliver .left 2,
    .deliver .right 2, .deliver .right 1, .deliver .left 1, .deliver .left 0, .deliver .right 0,
    .call .left .start]

end Pair
end WgFrag.Control
