import WgFrag.Control.Pair
import WgFrag.Wire.Protobuf

/-! How often two engines begin local exchanges when nothing outside makes them. -/
namespace WgFrag.Control
open WgFrag.Lib WgFrag.Wire

namespace Engine
variable {P : Proto} {e : Engine} {i : Call}

/-- The calls that are meant to begin an exchange: a start, an unknown session before it, an
accepted StateSyncRequired, and a ResetSequenceAck that reports a session collision. -/
def triggered (P : Proto) (e : Engine) : Call → Bool
  | .start => true
  | .reportUnknownDataSession _ => !e.started
  | .handleInbound frame =>
    match e.intake P frame with
    | (.ok (.handled m (.stateSyncRequired _)), t) =>
      (t.state.observeStateSyncRequired m).1 == .accepted
    | (.ok (.handled m (.resetSequenceAck _)), t) =>
      match t.requireResponse m .reset with
      | .ok o => (t.state.observeResetSequenceAck m o.messageID).1 == .sessionCollision
      | .error _ => false
    | _ => false
  | _ => false

/-- The call hands over a Hello that is accepted and replaces the remote epoch. -/
def rotated (P : Proto) (e : Engine) : Call → Bool
  | .handleInbound frame =>
    match e.intake P frame with
    | (.ok (.handled m (.capabilitiesHello _)), t) =>
      (t.state.observeCapabilitiesHello m).1.result == .accepted &&
        decide (t.state.gates.Changes m.controlEpoch)
    | _ => false
  | _ => false

/-- Without a trigger, only a Hello begins an exchange. -/
theorem begins_of_not_triggered {c : Core} (hb : e.Begins P c i) (ht : e.triggered P i = false) :
    ∃ frame m body t, i = .handleInbound frame ∧ e.intake P frame = (.ok (.handled m body), t) ∧
      m.body = some body ∧ t.Renews m ∧ c.remoteEpoch = m.controlEpoch := by
  cases i with
  | start => cases ht
  | reportUnknownDataSession =>
    have hb : e.started = false := hb
    simp [triggered, hb] at ht
  | handleInbound frame =>
    obtain ⟨m, body, t, had, hc⟩ := hb
    obtain ⟨_, _, hd, hr⟩ := intake_cases had
    obtain ⟨rfl, rfl⟩ := admission_handled (hr.resolve_left nofun).symm
    obtain ⟨-, -, -, hbd, -⟩ := decodeInbound_ok hd
    refine ⟨frame, m, body, t, rfl, had, hbd, hc.resolve_right ?_⟩
    rintro (⟨o, ho, hcoll⟩ | ⟨sync, hb, ha⟩)
    · obtain ⟨_, hb⟩ := State.observeResetSequenceAck_collision hcoll
      rw [hbd] at hb
      cases hb
      simp [triggered, had, ho, hcoll] at ht
    · rw [hbd] at hb
      cases hb
      simp [triggered, had, ha] at ht
  | _ => exact hb.elim

/-- An engine in one of two phases since it was `e₀`: it has begun nothing, or one exchange
and it knows a remote epoch. -/
def Phase (e₀ e : Engine) : Prop :=
  e.core.exchanges = e₀.core.exchanges ∨
    (e.core.localEpoch ≠ 0 ∧ e.core.remoteEpoch ≠ 0 ∧
      ∃ x, e.core.exchanges = x :: e₀.core.exchanges)

/-- Calls that are no triggers keep the phase, unless a second exchange follows a rotation of
the peer. -/
theorem call_phase {e0 : Engine} (hs : e.core.Sound) (ht : e.triggered P i = false)
    (hr : e.rotated P i = true → e.core.exchanges = e0.core.exchanges) (h : Phase e0 e) :
    Phase e0 (call P i e).2 := by
  obtain ⟨heq, hep⟩ | ⟨c, x, hbe, hne, hx, hl, hre⟩ := call_exchanges (P := P) hs i
  · obtain h | ⟨h1, h2, x, hx⟩ := h
    · exact .inl (heq.trans h)
    · exact .inr ⟨hep.trans_ne h1, call_remote hs i h2, x, heq.trans hx⟩
  · obtain ⟨frame, _, _, t, rfl, had, hbd, ⟨⟨_, ha⟩, hc⟩, hro⟩ :=
      begins_of_not_triggered hbe ht
    have hk : t.core = e.core := by
      have := intake_keeps (P := P) frame e
      rwa [had] at this
    have hf : e.core.exchanges = e0.core.exchanges := by
      refine h.elim id fun ⟨h1, h2, _⟩ => hr ?_
      obtain h0 | hch | ⟨-, h0⟩ := hc
      · exact absurd ((congrArg (fun c : Core => c.localEpoch) hk).symm.trans h0) h1
      · have hb := ha.1
        rw [hbd] at hb
        cases hb
        simp [rotated, had, ha.2, hch]
      · exact absurd ((congrArg (fun c : Core => c.remoteEpoch) hk).symm.trans h0) h2
    refine .inr ⟨hl.trans_ne hne, (hre.trans hro).trans_ne ha.admits.2.1, x, ?_⟩
    rw [hx, hf]

end Engine

namespace Pair
variable (P : Proto)

/-- An external trigger: one of the calls above, or the replacement of an engine. -/
def trigger (s : Pair) : Input → Bool
  | .replace _ _ => true
  | x =>
    match s.callOf x with
    | some (d, i) => (s.get d).engine.triggered P i
    | none => false

/-- A Hello that replaces the remote epoch reaches an engine that has already begun an
exchange since `s₀`. -/
def secondRotation (s₀ s : Pair) (x : Input) : Bool :=
  match s.callOf x with
  | some (d, i) => (s.get d).engine.rotated P i &&
      (s.get d).engine.state.exchanges != (s₀.get d).engine.state.exchanges
  | none => false

private theorem trigger_of_call {s : Pair} {x : Input} {d : Side} {i : Engine.Call}
    (h : s.callOf x = some (d, i)) : trigger P s x = (s.get d).engine.triggered P i := by
  cases x with
  | replace => cases h
  | _ => simp [trigger, h]

/-- Without a trigger each engine begins at most one exchange, as long as no engine that has
begun one is handed another epoch of its peer. -/
theorem exchanges_after_last_trigger {init : Pair} (hnew : init.New) (older recent : List Input)
    (hquiet : (machine P ((machine P init).after older)).Always (fun s x => trigger P s x = false ∧
        secondRotation P ((machine P init).after older) s x = false) recent) (d : Side) :
    (((machine P ((machine P init).after older)).after recent).get d).engine.state.exchanges.length ≤
      (((machine P init).after older).get d).engine.state.exchanges.length + 1 := by
  let s₀ := (machine P init).after older
  have hpha : ∀ d, Engine.Phase (s₀.get d).engine
      (((machine P s₀).after recent).get d).engine := by
    refine ((machine P s₀).always_invariant (I := fun s => s.Sound ∧
      ∀ d, Engine.Phase (s₀.get d).engine (s.get d).engine) ?_ ?_ hquiet).2
    · exact ⟨after_sound P hnew.sound older, fun _ => .inl rfl⟩
    rintro s x ⟨ht, hr⟩ ⟨hs, hp⟩
    refine ⟨step_sound P hs x, fun d => ?_⟩
    obtain h | ⟨_, hi, h⟩ | ⟨_, _, rfl, -⟩ := step_cases P s x d
    · exact h ▸ hp d
    · rw [trigger_of_call P hi] at ht
      simp only [secondRotation, hi, Bool.and_eq_false_imp, bne_eq_false_iff_eq] at hr
      change Engine.Phase _ ((step P s x).get d).engine
      rw [h]
      exact Engine.call_phase (hs d) ht hr (hp d)
    · cases ht
  obtain h | ⟨-, -, _, h⟩ := hpha d
  · exact Nat.le_succ_of_le (Nat.le_of_eq (congrArg List.length h))
  · exact Nat.le_of_eq (congrArg List.length h)

/-- A start of the left engine, then a report of its session by the right one, whose
StateSyncRequired makes the left engine begin its second exchange. -/
def lastTrigger : List Input :=
  [.deliver .left 2, .call .right (.reportUnknownDataSession 2), .deliver .left 1,
    .deliver .right 0, .call .left .start]

/-- The Hello of the new exchange and the reply to it reach the other side. -/
theorem exchanges_after_last_trigger_sample :
    ((machine Protobuf.proto ((machine Protobuf.proto sample).after lastTrigger)).Always
      (fun s x => trigger Protobuf.proto s x = false ∧
        secondRotation Protobuf.proto ((machine Protobuf.proto sample).after lastTrigger) s x = false)
      [.deliver .left 3, .deliver .right 2]) ∧
    (((machine Protobuf.proto ((machine Protobuf.proto sample).after lastTrigger)).after
      [.deliver .left 3, .deliver .right 2]).get .right).engine.state.exchanges.length ≤
      (((machine Protobuf.proto sample).after lastTrigger).get .right).engine.state.exchanges.length
        + 1 :=
  have hqt : (machine Protobuf.proto ((machine Protobuf.proto sample).after lastTrigger)).Always
      (fun s x => trigger Protobuf.proto s x = false ∧
        secondRotation Protobuf.proto ((machine Protobuf.proto sample).after lastTrigger) s x = false)
      [.deliver .left 3, .deliver .right 2] := by decide +kernel
  ⟨hqt, exchanges_after_last_trigger Protobuf.proto sample_new lastTrigger _ hqt .right⟩

/-- Each Hello of a new epoch makes its receiver begin an exchange, whose Hello is a new epoch
for the other side: with every frame delivered once and in order, the right engine begins two
exchanges after the last trigger. All epochs differ. -/
theorem exchanges_after_last_trigger_two :
    let s := (machine Protobuf.proto sample).after lastTrigger
    let recent : List Input := [.deliver .right 4, .deliver .left 4, .deliver .right 2]
    let t := (machine Protobuf.proto s).after recent
    sample.New ∧ (machine Protobuf.proto s).Always
        (fun s x => trigger Protobuf.proto s x = false) recent ∧
      ((t.left.engine.state.exchanges ++ t.right.engine.state.exchanges).map
        LocalExchange.controlEpoch).Nodup ∧
      t.right.engine.state.exchanges.length = s.right.engine.state.exchanges.length + 2 :=
  ⟨sample_new, by decide +kernel⟩

end Pair
end WgFrag.Control
