import WgFrag.Control.Gates

/-! What each call on a `State` does to the identifiers in use and to the tombstones of those
before them. -/
namespace WgFrag.Control
open WgFrag.Wire

/-! ### Identifiers and their tombstones -/

/-- The identifier in use, zero for none, and those retired before it. -/
structure Identifier (K : Type) where
  current : K
  retired : ExpirySet K

namespace Identifier
variable {K : Type} [DecidableEq K] [Zero K] {s t : Identifier K} {now L : Time} {x : K}

/-- What a call at `now` does to an identifier; `L` is how long it is retired when replaced. -/
inductive Step (now L : Time) (s : Identifier K) : Identifier K → Prop
  | keep : Step now L s s
  | prune : Step now L s ⟨s.current, s.retired.prune now⟩
  | adopt {new : K} : s.current = 0 → new ≠ 0 → (s.retired.prune now).contains new = false →
    Step now L s ⟨new, s.retired.prune now⟩
  | replace {new : K} {t : ExpirySet K} : s.current ≠ 0 → new ≠ s.current →
    (new = 0 ∨ (s.retired.prune now).contains new = false) →
    ((s.retired.prune now).contains s.current = true ∨ (s.retired.prune now).full = false) →
    (s.retired.prune now).retain s.current (now + L) = (true, t) → Step now L s ⟨new, t⟩

theorem Step.wf (h : Step now L s t) (hs : s.retired.Wf) : t.retired.Wf := by
  cases h with
  | keep => exact hs
  | prune | adopt => exact (hs.prune now).1
  | replace _ _ _ hrm hre =>
    obtain ⟨_, hr, hwf, -⟩ := (hs.prune now).1.retain hrm (now + L)
    rw [hre] at hr
    obtain ⟨-, rfl⟩ := Prod.mk.inj hr
    exact hwf

theorem Step.of_replaced {new : K} {t : ExpirySet K} (hne : new ≠ s.current)
    (hfr : new = 0 ∨ (s.retired.prune now).contains new = false)
    (hrm : (s.retired.prune now).Room s.current)
    (h : (s.retired.prune now).replaced s.current (now + L) = (true, t)) :
    Step now L s ⟨new, t⟩ := by
  unfold ExpirySet.replaced at h
  split at h
  · next hz =>
    have hn : new ≠ 0 := hz ▸ hne
    cases h
    exact .adopt hz hn (hfr.resolve_left hn)
  · next hc => exact .replace hc hne hfr (hrm hc) h

theorem Step.limit (h : Step now L s t) (hs : s.retired.Wf) :
    t.retired.limit = s.retired.limit := by
  have hp := (hs.prune now).2.limit
  cases h with
  | keep => rfl
  | prune | adopt => exact hp
  | replace _ _ _ hrm hrt =>
    obtain ⟨_, hr, -, hre⟩ := (hs.prune now).1.retain hrm (now + L)
    rw [hrt] at hr
    obtain ⟨-, rfl⟩ := Prod.mk.inj hr
    exact hre.limit.trans hp

theorem Step.kept (h : Step now L s t) (hs : s.retired.Wf) {u : Time} (hx : s.retired.Holds x u)
    (hu : now < u) : ∃ u', u ≤ u' ∧ t.retired.Holds x u' := by
  have hp := (hs.prune now).2.holds_iff.mpr ⟨hx, hu⟩
  cases h with
  | keep => exact ⟨u, le_rfl, hx⟩
  | prune | adopt => exact ⟨u, le_rfl, hp⟩
  | replace _ _ _ hrm hrt =>
    obtain ⟨_, hr, -, hre⟩ := (hs.prune now).1.retain hrm (now + L)
    rw [hrt] at hr
    obtain ⟨-, rfl⟩ := Prod.mk.inj hr
    exact hre.kept x u hp

/-- The identifier is retired until `w` at least. -/
structure Barred (s : Identifier K) (x : K) (w : Time) : Prop where
  unused : s.current ≠ x
  retired : ∃ u, w ≤ u ∧ s.retired.Holds x u

theorem Step.bars (h : Step now L s t) (hs : s.retired.Wf) (hx : s.current ≠ 0)
    (hl : t.current ≠ s.current) : t.Barred s.current (now + L) := by
  cases h with
  | keep | prune => exact absurd rfl hl
  | adopt hz => exact absurd hz hx
  | replace _ hne _ hrm hrt =>
    obtain ⟨_, hr, -, hre⟩ := (hs.prune now).1.retain hrm (now + L)
    rw [hrt] at hr
    obtain ⟨-, rfl⟩ := Prod.mk.inj hr
    exact ⟨hne, hre.added⟩

/-- A retired identifier comes back into use only after its deadline. -/
theorem Barred.step {w : Time} (hb : s.Barred x w) (hx : x ≠ 0) (hs : s.retired.Wf)
    (h : Step now L s t) : t.Barred x w ∨ w ≤ now := by
  obtain ⟨hun, u, hle, hu⟩ := hb
  rcases lt_or_ge now u with hl | hpast
  · refine .inl ⟨?_, ?_⟩
    · have hc : (s.retired.prune now).contains x = true :=
        (ExpirySet.contains_iff (hs.prune now).1.indexed).mpr
          ⟨u, (hs.prune now).2.holds_iff.mpr ⟨hu, hl⟩⟩
      have hfr : ∀ {new : K}, (s.retired.prune now).contains new = false → new ≠ x := by
        rintro _ hn rfl
        exact absurd (hc.symm.trans hn) (by decide)
      cases h with
      | keep | prune => exact hun
      | adopt _ _ hn => exact hfr hn
      | replace _ _ hn =>
        rcases hn with hz | hn
        · exact fun heq => hx (heq.symm.trans hz)
        · exact hfr hn
    · obtain ⟨u', hle', hu'⟩ := h.kept hs hu hl
      exact ⟨u', hle.trans hle', hu'⟩
  · exact .inr (hle.trans hpast)

end Identifier

/-! ### Calls -/

inductive StateCall where
  | beginLocalExchange
  | restartLocalExchange
  | localExchangeRetryReady
  | resetPathGates
  | isRemoteEpochRetired (epoch : UInt64)
  | observeCapabilitiesHello (control : Control)
  | observeCapabilitiesAck (control : Control) (expectedReplyTo : UInt64)
  | observeResetSequence (control : Control)
  | observeResetSequenceAck (control : Control) (expectedReplyTo : UInt64)
  | observePeerMTU (control : Control)
  | observePeerMTUAck (control : Control) (expectedReplyTo : UInt64)
  | observePong (control : Control) (expectedReplyTo : UInt64) (expectedSequence : UInt32)
  | observeBaseProbeAck (control : Control) (expectedReplyTo : UInt64)
  | checkInboundDataSession (dataSessionID : UInt16)
  | observeStateSyncRequired (control : Control)

/-- The calls that only write gates. -/
def StateCall.Quiet : StateCall → Bool
  | .beginLocalExchange | .restartLocalExchange | .isRemoteEpochRetired _
  | .observeCapabilitiesHello _ | .observeResetSequence _ => false
  | _ => true

namespace State
variable {s t : State}

def call (s : State) : StateCall → State
  | .beginLocalExchange => s.beginLocalExchange.2
  | .restartLocalExchange => s.restartLocalExchange.2
  | .localExchangeRetryReady => s.localExchangeRetryReady.2
  | .resetPathGates => s.resetPathGates
  | .isRemoteEpochRetired epoch => (s.isRemoteEpochRetired epoch).2
  | .observeCapabilitiesHello control => (s.observeCapabilitiesHello control).2
  | .observeCapabilitiesAck control reply => (s.observeCapabilitiesAck control reply).2
  | .observeResetSequence control => (s.observeResetSequence control).2
  | .observeResetSequenceAck control reply => (s.observeResetSequenceAck control reply).2
  | .observePeerMTU control => (s.observePeerMTU control).2
  | .observePeerMTUAck control reply => (s.observePeerMTUAck control reply).2
  | .observePong control reply sequence => (s.observePong control reply sequence).2
  | .observeBaseProbeAck control reply => (s.observeBaseProbeAck control reply).2
  | .checkInboundDataSession session => (s.checkInboundDataSession session).2
  | .observeStateSyncRequired control => (s.observeStateSyncRequired control).2

def runCalls (s : State) : List StateCall → State
  | [] => s
  | c :: calls => (s.call c).runCalls calls

def epochIdentifier (s : State) : Identifier UInt64 := ⟨s.remoteEpoch, s.retiredEpochs⟩

def remoteIdentifier (s : State) : Identifier UInt16 := ⟨s.remoteSessionID, s.retiredSessions⟩

def localIdentifier (s : State) : Identifier UInt16 := ⟨s.localSessionID, s.localRetiredSessions⟩

def lastRead (s : State) : Time := s.config.clock (s.clockReads - 1)

/-- What a call does to the identifiers and their tombstones. -/
structure Moves (s t : State) : Prop where
  config : t.config = s.config
  reads : s.clockReads ≤ t.clockReads
  known : t.remoteEpoch = 0 → s.remoteEpoch = 0
  epoch : Identifier.Step t.lastRead retiredEpochLifetime s.epochIdentifier t.epochIdentifier
  remote : Identifier.Step t.lastRead (lifetime s.config.reassemblyLifetimeMs) s.remoteIdentifier
    t.remoteIdentifier
  own : Identifier.Step t.lastRead s.localSessionLifetime s.localIdentifier t.localIdentifier

/-- The identifiers and their tombstones are not touched. -/
structure Untouched (s t : State) : Prop where
  config : t.config = s.config
  reads : s.clockReads ≤ t.clockReads
  epoch : t.epochIdentifier = s.epochIdentifier
  remote : t.remoteIdentifier = s.remoteIdentifier
  own : t.localIdentifier = s.localIdentifier

theorem Untouched.moves (h : Untouched s t) : Moves s t := by
  refine ⟨h.config, h.reads, fun hz => ?_, ?_, ?_, ?_⟩
  · have heq := congrArg Identifier.current h.epoch
    exact heq.symm.trans hz
  · rw [h.epoch]
    exact .keep
  · rw [h.remote]
    exact .keep
  · rw [h.own]
    exact .keep

theorem call_untouched {c : StateCall} (hc : c.Quiet = true) : Untouched s (s.call c) := by
  have heq : ∀ {t : State}, t.config = s.config → s.clockReads ≤ t.clockReads →
      t.epochIdentifier = s.epochIdentifier → t.remoteIdentifier = s.remoteIdentifier →
      t.localIdentifier = s.localIdentifier → Untouched s t :=
    fun h1 h2 h3 h4 h5 => ⟨h1, h2, h3, h4, h5⟩
  cases c with
  | beginLocalExchange | restartLocalExchange | isRemoteEpochRetired => cases hc
  | observeCapabilitiesHello | observeResetSequence => cases hc
  | localExchangeRetryReady =>
    unfold call localExchangeRetryReady
    split_ifs
    · exact heq rfl le_rfl rfl rfl rfl
    · exact heq rfl (Nat.le_succ _) rfl rfl rfl
  | resetPathGates => exact heq rfl le_rfl rfl rfl rfl
  | checkInboundDataSession =>
    unfold call checkInboundDataSession
    dsimp only
    split_ifs
    · exact heq rfl le_rfl rfl rfl rfl
    · exact heq rfl le_rfl rfl rfl rfl
    · exact heq rfl (Nat.le_succ _) rfl rfl rfl
    · exact heq rfl (Nat.le_succ _) rfl rfl rfl
  | _ =>
    simp only [call, observeCapabilitiesAck, observeResetSequenceAck, observePeerMTU,
      observePeerMTUAck, observePong, observeBaseProbeAck, observeStateSyncRequired]
    split
    · split_ifs <;> exact heq rfl le_rfl rfl rfl rfl
    · exact heq rfl le_rfl rfl rfl rfl

/-! ### Local exchanges -/

theorem BeginOutcome.moves {out : Except StateError LocalExchange × State}
    (h : BeginOutcome s out) (hwf : s.localRetiredSessions.Wf) : Moves s out.2 := by
  cases h with
  | backoff => exact ⟨rfl, Nat.le_succ _, id, .keep, .keep, .keep⟩
  | refused hr =>
    rw [hr hwf]
    exact ⟨rfl, Nat.le_succ _, id, .prune, .prune, .prune⟩
  | begun _ ho hfr hrm hr =>
    exact ⟨rfl, Nat.le_succ _, id, .prune, .prune, .of_replaced ho (.inr hfr) hrm hr⟩

/-- A refused restart, or one that begins an exchange at the second reading of the clock. -/
theorem restartLocalExchange_outcome (s : State) :
    (∃ err, s.restartLocalExchange.1 = .error err ∧ Untouched s s.restartLocalExchange.2) ∨
    (∃ err, s.restartLocalExchange.1 = .error err ∧
      s.now.2.beginLocalExchange = (.error err, s.restartLocalExchange.2)) ∨
    ∃ x t, s.restartLocalExchange.1 = .ok x ∧ s.now.2.beginLocalExchange = (.ok x, t) ∧
      Untouched t s.restartLocalExchange.2 ∧ s.restartLocalExchange.2.clockReads = t.clockReads := by
  unfold restartLocalExchange
  dsimp only
  split
  · exact .inl ⟨_, rfl, rfl, Nat.le_succ _, rfl, rfl, rfl⟩
  rcases hbe : s.now.2.beginLocalExchange with ⟨err | x, t⟩
  · exact .inr (.inl ⟨err, rfl, rfl⟩)
  obtain ⟨reads, hr⟩ := t.localExchangeBackoff_drew t.localExchangeRetryAttempt
  rcases hb : t.localExchangeBackoff t.localExchangeRetryAttempt with ⟨_, r⟩
  obtain rfl : r = t.drew reads := (congrArg Prod.snd hb).symm.trans hr
  refine .inr (.inr ⟨x, t, ?_⟩)
  dsimp only
  rw [hb]
  exact ⟨rfl, rfl, ⟨rfl, Nat.le_refl _, rfl, rfl, rfl⟩, rfl⟩

/-- The clock reading that comes first decides nothing. -/
theorem Moves.of_now (h : Moves s.now.2 t) : Moves s t :=
  ⟨h.config, Nat.le_trans (Nat.le_succ _) h.reads, h.known, h.epoch, h.remote, h.own⟩

theorem Moves.untouched {r : State} (h : Moves s t) (hu : Untouched t r)
    (hr : r.clockReads = t.clockReads) : Moves s r := by
  have hl : r.lastRead = t.lastRead := by
    unfold lastRead
    rw [hu.config, hr]
  refine ⟨hu.config.trans h.config, Nat.le_trans h.reads hu.reads, fun hz => h.known ?_, ?_, ?_, ?_⟩
  · have heq := congrArg Identifier.current hu.epoch
    exact heq.symm.trans hz
  · rw [hl, hu.epoch]
    exact h.epoch
  · rw [hl, hu.remote]
    exact h.remote
  · rw [hl, hu.own]
    exact h.own

theorem restartLocalExchange_moves (hwf : s.localRetiredSessions.Wf) :
    Moves s s.restartLocalExchange.2 := by
  have hb := s.now.2.beginLocalExchange_outcome.moves hwf
  rcases s.restartLocalExchange_outcome with ⟨-, -, hu⟩ | ⟨_, -, heq⟩ | ⟨_, _, -, heq, hu, hr⟩
  · exact hu.moves
  · rw [heq] at hb
    exact hb.of_now
  · rw [heq] at hb
    exact hb.of_now.untouched hu hr

theorem isRemoteEpochRetired_moves (epoch : UInt64) : Moves s (s.isRemoteEpochRetired epoch).2 := by
  unfold isRemoteEpochRetired
  split_ifs
  · exact ⟨rfl, le_rfl, id, .keep, .keep, .keep⟩
  · exact ⟨rfl, Nat.le_succ _, id, .prune, .keep, .keep⟩

/-! ### Remote epochs and sessions -/

theorem ResetOutcome.moves {m : Control} {out : ResetDecision × State} (h : ResetOutcome s m out)
    (hwf : s.retiredSessions.Wf) : Moves s out.2 := by
  cases h with
  | invalid => exact ⟨rfl, le_rfl, id, .keep, .keep, .keep⟩
  | collision => exact ⟨rfl, Nat.le_succ _, id, .prune, .prune, .prune⟩
  | accepted _ _ _ ho hfr hrm =>
    refine ⟨rfl, Nat.le_succ _, id, .prune, ?_, .prune⟩
    have hk := (hwf.prune s.nextRead).1.replaced hrm
      (s.nextRead + lifetime s.config.reassemblyLifetimeMs)
    exact .of_replaced ho (.inr hfr) hrm (Prod.ext hk rfl)

private theorem validRequest_epoch {m : Control} (h : validRequest m = true) :
    m.controlEpoch ≠ 0 := by
  unfold validRequest at h
  rw [Bool.and_eq_true, Bool.and_eq_true, decide_eq_true_iff] at h
  exact of_decide_eq_true h.2

theorem HelloOutcome.moves {m : Control} {out : CapabilityDecision × State}
    (h : HelloOutcome s m out) (hwf : s.retiredEpochs.Wf) (hwf' : s.retiredSessions.Wf)
    (hf : s.remoteEpoch = 0 → s.retiredEpochs.entries = []) : Moves s out.2 := by
  cases h with
  | invalid => exact ⟨rfl, le_rfl, id, .keep, .keep, .keep⟩
  | refused hre =>
    obtain ⟨rfl, rfl⟩ := hre hwf hwf'
    exact ⟨rfl, Nat.le_succ _, id, .prune, .prune, .prune⟩
  | accepted _ hr _ _ hc =>
    have hne := validRequest_epoch hr
    cases hc with
    | same hch =>
      refine ⟨rfl, Nat.le_succ _, fun hz => absurd hz hne, ?_, .prune, .prune⟩
      show Identifier.Step s.nextRead retiredEpochLifetime s.epochIdentifier
        ⟨m.controlEpoch, s.pruned.retiredEpochs⟩
      by_cases hz : s.remoteEpoch = 0
      · refine .adopt hz hne (Bool.of_not_eq_true fun hco => ?_)
        have hp := hwf.prune s.nextRead
        obtain ⟨u, hu⟩ := (ExpirySet.contains_iff hp.1.indexed).mp hco
        have hh : s.retiredEpochs.Holds m.controlEpoch u := (hp.2.holds_iff.mp hu).1
        unfold ExpirySet.Holds at hh
        rw [hf hz] at hh
        cases hh
      · have heq : s.remoteEpoch = m.controlEpoch := not_not.mp fun ho => hch ⟨hz, ho⟩
        rw [← heq]
        exact .prune
    | @rotated _ sessions hch hfr hsp hrm hre hs =>
      refine ⟨rfl, Nat.le_succ _, fun hz => absurd hz hne, ?_, ?_, .prune⟩
      · exact .replace hch.1 (Ne.symm hch.2) (.inr hfr) (.inr hsp) hre
      show Identifier.Step s.nextRead (lifetime s.config.reassemblyLifetimeMs) s.remoteIdentifier
        ⟨0, sessions⟩
      by_cases hz : s.remoteSessionID = 0
      · rw [hz] at hs
        obtain rfl : s.pruned.retiredSessions = sessions := congrArg Prod.snd hs
        rw [← hz]
        exact .prune
      · exact .of_replaced (Ne.symm hz) (.inl rfl) hrm hs

end State
end WgFrag.Control
