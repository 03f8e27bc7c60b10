import WgFrag.Control.State
import WgFrag.Control.Tombstones

/-! What the functions of the state do to the values that the DATA gate, the sessions and
the messages depend on. Clock, entropy and tombstones are left out of this view. -/
namespace WgFrag.Control
open WgFrag.Wire

structure Gates where
  config : StateConfig
  flags : Flags
  localEpoch : UInt64
  remoteEpoch : UInt64
  localSession : UInt16
  remoteSession : UInt16
  selected : UInt64
  remoteMax : UInt32
  peerMTU : UInt32
  pendingAck : Bool
  pendingFeatures : UInt64
  retryAt : Time
  pathResets : ℕ
  exchanges : List LocalExchange

def State.gates (s : State) : Gates where
  config := s.config
  flags := s.flags
  localEpoch := s.localEpoch
  remoteEpoch := s.remoteEpoch
  localSession := s.localSessionID
  remoteSession := s.remoteSessionID
  selected := s.remoteSelectedFeatures
  remoteMax := s.remoteMaxCarrierPayload
  peerMTU := s.remotePeerMTU
  pendingAck := s.pendingCapabilitiesAck
  pendingFeatures := s.pendingSelectedFeatures
  retryAt := s.localExchangeRetryAt
  pathResets := s.pathResets
  exchanges := s.exchanges

namespace Gates
variable (g : Gates)

/-- A new local exchange: everything it has to confirm is cleared. -/
def begin (x : LocalExchange) : Gates :=
  { g with
    localEpoch := x.controlEpoch, localSession := x.dataSessionID, flags := g.flags.clearLocal
    pendingAck := false, pendingFeatures := 0, pathResets := g.pathResets + 1
    exchanges := x :: g.exchanges }

def forget : Gates :=
  { g with
    flags := {}, remoteSession := 0, peerMTU := 0, selected := 0, remoteMax := 0
    pendingAck := false, pendingFeatures := 0, pathResets := g.pathResets + 1 }

/-- The remote epoch is known and another one. -/
def Changes (epoch : UInt64) : Prop := g.remoteEpoch ≠ 0 ∧ g.remoteEpoch ≠ epoch

instance (epoch : UInt64) : Decidable (g.Changes epoch) :=
  inferInstanceAs (Decidable (_ ∧ _))

def install (epoch : UInt64) (h : CapabilitiesHello) : Gates :=
  let selected := g.config.supportedFeatureBits &&& h.supportedFeatureBits
  { g with
    remoteEpoch := epoch, selected := selected, remoteMax := h.maxCarrierPayload
    flags := { g.flags with
      remoteCapabilities := true
      localCapabilities := g.pendingAck && g.pendingFeatures == selected } }

def hello (epoch : UInt64) (h : CapabilitiesHello) : Gates :=
  (if g.Changes epoch then g.forget else g).install epoch h

def sync : Gates :=
  { g with
    flags := g.flags.clearLocal, pendingAck := false, pendingFeatures := 0
    pathResets := g.pathResets + 1 }

def capabilitiesAck (features : UInt64) : Gates :=
  { g with
    pendingAck := true, pendingFeatures := features
    flags := { g.flags with
      localCapabilities := g.flags.remoteCapabilities && features == g.selected } }

def reset (session : UInt16) : Gates := { g with remoteSession := session }

def resetAck : Gates :=
  { g with flags := { g.flags with localResetAck := true }, retryAt := 0 }

def setPeerMTU (mtu : UInt32) : Gates :=
  { g with peerMTU := mtu, flags := { g.flags with remotePeerMTU := true } }

def peerMTUAck : Gates :=
  { g with flags := { g.flags with localPeerMTUAck := true } }

def pong : Gates := { g with flags := { g.flags with pingPong := true } }

def baseAck : Gates := { g with flags := { g.flags with baseProbe := true } }

/-- A new local exchange whose Hello waits for a deadline. -/
def restart (x : LocalExchange) (t : Time) : Gates :=
  { g.begin x with retryAt := t }

def resetPath : Gates :=
  { g with flags := g.flags.clearPath, pathResets := g.pathResets + 1 }

/-- What a response that is not accepted can still clear or record. -/
inductive Drop where
  | none
  | capabilities
  | features (selected : UInt64)
  | reset
  | peerMTU

def drop : Drop → Gates
  | .none => g
  | .capabilities => { g with flags := { g.flags with localCapabilities := false } }
  | .features f => g.capabilitiesAck f
  | .reset => { g with flags := { g.flags with localResetAck := false } }
  | .peerMTU => { g with flags := { g.flags with localPeerMTUAck := false } }

/-- The features of a refused acknowledgement are kept only when they disagree with the Hello. -/
def Drop.Enabled : Drop → Prop
  | .features f => g.flags.remoteCapabilities = true ∧ f ≠ g.selected
  | _ => True

/-- The epoch and session of an exchange that can begin. -/
structure Fresh (x : LocalExchange) : Prop where
  epoch_ne : x.controlEpoch ≠ 0
  epoch_new : x.controlEpoch ≠ g.localEpoch
  session_ne : x.dataSessionID ≠ 0

/-- A request of the peer under its current epoch. -/
structure RemoteRequest (m : Control) : Prop where
  replyTo : m.replyTo = 0
  epoch_ne : m.controlEpoch ≠ 0
  known : g.flags.remoteCapabilities = true
  epoch : m.controlEpoch = g.remoteEpoch

end Gates

namespace State
variable {s : State}

def nextRead (s : State) : Time := s.config.clock s.clockReads

/-- The state after the clock was read and the expired entries were pruned. -/
def pruned (s : State) : State := s.now.2.pruneRetired s.nextRead

/-- The state after more entropy was drawn. -/
def drew (s : State) (reads : ℕ) : State := { s with entropyReads := reads }

private theorem nextNonZero_succ (previous : UInt64) (session : Bool) (n : ℕ) :
    nextNonZero previous session (n + 1) s = (.error .entropy, s.drew (s.entropyReads + 1)) ∨
    nextNonZero previous session (n + 1) s =
      nextNonZero previous session n (s.drew (s.entropyReads + 1)) ∨
    ∃ value, nextNonZero previous session (n + 1) s =
        (.ok value, s.drew (s.entropyReads + 1)) ∧ (value ≠ 0 ∧ value ≠ previous) ∧
      (session = true → value.toNat < 65536 ∧
        s.localRetiredSessions.contains value.toUInt16 = false) := by
  have hdraw : s.uint64 = (s.config.entropy s.entropyReads, s.drew (s.entropyReads + 1)) := rfl
  rw [nextNonZero, hdraw]
  cases s.config.entropy s.entropyReads with
  | none => exact .inl rfl
  | some random =>
    dsimp only
    have hl : session = true →
        (if session then random &&& 0xffff else random).toNat < 65536 := by
      rintro rfl
      have hle : (random &&& 0xffff).toNat ≤ 65535 := by exact Nat.and_le_right
      exact Nat.lt_succ_of_le hle
    generalize (if session then random &&& 0xffff else random) = value at hl ⊢
    split_ifs with h1 h2
    · exact .inr (.inl rfl)
    · refine .inr (.inr ⟨value, rfl, h1, fun hs => ⟨hl hs, ?_⟩⟩)
      exact Bool.of_not_eq_true fun hc => h2 ⟨hs, hc⟩
    · exact .inr (.inl rfl)

theorem nextNonZero_spec (previous : UInt64) (session : Bool) (n : ℕ) :
    ∃ reads, (∃ err, nextNonZero previous session n s = (.error err, s.drew reads)) ∨
      ∃ value, nextNonZero previous session n s = (.ok value, s.drew reads) ∧
        (value ≠ 0 ∧ value ≠ previous) ∧ (session = true → value.toNat < 65536 ∧
          s.localRetiredSessions.contains value.toUInt16 = false) := by
  induction n generalizing s with
  | zero => exact ⟨s.entropyReads, .inl ⟨_, rfl⟩⟩
  | succ n ih =>
    rcases s.nextNonZero_succ previous session n with heq | heq | hok
    · exact ⟨_, .inl ⟨_, heq⟩⟩
    · rw [heq]
      exact ih
    · exact ⟨_, .inr hok⟩

private theorem drawn_session {current : UInt16} {value : UInt64} (hlt : value.toNat < 65536)
    (hne : value ≠ current.toUInt64) : value.toUInt16 ≠ current := by
  rintro rfl
  apply hne
  apply UInt64.toNat_inj.mp
  rw [UInt16.toNat_toUInt64, UInt64.toNat_toUInt16]
  omega

inductive BeginOutcome (s : State) : Except StateError LocalExchange × State → Prop
  | backoff : BeginOutcome s (.error .localExchangeBackoff, s.now.2)
  | refused {err : StateError} {reads : ℕ} {retired : ExpirySet UInt16} :
    (s.localRetiredSessions.Wf → retired = s.pruned.localRetiredSessions) →
    BeginOutcome s (.error err, { s.pruned.drew reads with localRetiredSessions := retired })
  | begun {x : LocalExchange} {reads : ℕ} {retired : ExpirySet UInt16} :
    s.gates.Fresh x → x.dataSessionID ≠ s.localSessionID →
    s.pruned.localRetiredSessions.contains x.dataSessionID = false →
    s.pruned.localRetiredSessions.Room s.localSessionID →
    s.pruned.localRetiredSessions.replaced s.localSessionID
      (s.nextRead + s.localSessionLifetime) = (true, retired) →
    BeginOutcome s (.ok x, ({ s.pruned.drew reads with
      localRetiredSessions := retired }).installLocal x.controlEpoch x.dataSessionID)

private theorem retainLocal_eq (current : UInt16) (expires : Time) :
    (if current ≠ 0 then s.retainLocal current expires else (true, s)) =
      ((s.localRetiredSessions.replaced current expires).1,
        { s with localRetiredSessions := (s.localRetiredSessions.replaced current expires).2 }) := by
  by_cases hk : current = 0
  · subst hk
    rfl
  · have hr : s.localRetiredSessions.replaced current expires =
        s.localRetiredSessions.retain current expires := if_neg hk
    rw [hr, if_pos hk, retainLocal, if_neg hk]

theorem beginLocalExchange_outcome (s : State) : BeginOutcome s s.beginLocalExchange := by
  have hn : s.now = (s.nextRead, s.now.2) := rfl
  have hp : s.now.2.pruneRetired s.nextRead = s.pruned := rfl
  unfold beginLocalExchange
  rw [hn]
  dsimp only
  split
  · exact .backoff
  rw [hp]
  split
  · exact @BeginOutcome.refused s _ s.entropyReads _ fun _ => rfl
  next hrm =>
  obtain ⟨reads, ⟨_, heq⟩ | ⟨epoch, heq, hep, -⟩⟩ :=
    s.pruned.nextNonZero_spec s.pruned.localEpoch false 16
  · rw [heq]
    exact @BeginOutcome.refused s _ reads _ fun _ => rfl
  rw [heq]
  dsimp only
  obtain ⟨draws, ⟨_, heq⟩ | ⟨session, heq, hne, hs⟩⟩ := (s.pruned.drew reads).nextNonZero_spec
    (s.pruned.drew reads).localSessionID.toUInt64 true 16
  · rw [heq]
    exact @BeginOutcome.refused s _ draws _ fun _ => rfl
  rw [heq]
  dsimp only
  rw [retainLocal_eq]
  obtain ⟨hlt, hfr⟩ := hs rfl
  have hrm := ExpirySet.Room.of_not hrm
  generalize hr : (ExpirySet.replaced _ _ _ : Bool × ExpirySet UInt16) = r
  obtain ⟨kept, retired⟩ := r
  cases kept with
  | true =>
    exact .begun ⟨hep.1, hep.2, drawn_session hlt hne.1⟩ (drawn_session hlt hne.2) hfr hrm hr
  | false =>
    refine @BeginOutcome.refused s _ draws _ fun hwf => ?_
    have hk := (hwf.prune s.nextRead).1.replaced hrm (s.nextRead + s.localSessionLifetime)
    cases hk.symm.trans (congrArg Prod.fst hr)

theorem beginLocalExchange_cases (s : State) :
    (∃ err, s.beginLocalExchange.1 = .error err ∧ s.beginLocalExchange.2.gates = s.gates) ∨
    (∃ x, s.beginLocalExchange.1 = .ok x ∧ s.gates.Fresh x ∧
      s.beginLocalExchange.2.gates = s.gates.begin x) := by
  have ho := s.beginLocalExchange_outcome
  generalize s.beginLocalExchange = out at ho
  cases ho with
  | backoff | refused => exact .inl ⟨_, rfl, rfl⟩
  | begun hx => exact .inr ⟨_, rfl, hx, rfl⟩

theorem localExchangeBackoff_drew (attempt : ℕ) :
    ∃ reads, (s.localExchangeBackoff attempt).2 = s.drew reads := by
  have hdraw : s.uint64 = (s.config.entropy s.entropyReads, s.drew (s.entropyReads + 1)) := rfl
  unfold localExchangeBackoff
  rw [hdraw]
  cases s.config.entropy s.entropyReads <;> exact ⟨_, rfl⟩

theorem restartLocalExchange_cases (s : State) :
    (∃ err, s.restartLocalExchange.1 = .error err ∧ s.restartLocalExchange.2.gates = s.gates) ∨
    (∃ x t, s.restartLocalExchange.1 = .ok x ∧ s.gates.Fresh x ∧
      s.restartLocalExchange.2.gates = s.gates.restart x t) := by
  unfold restartLocalExchange
  split
  rename_i now t1 h1
  have g1 : t1.gates = s.gates := congrArg (fun r => r.2.gates) h1.symm
  split_ifs
  · exact .inl ⟨_, rfl, g1⟩
  have hb := beginLocalExchange_cases t1
  split
  · rename_i err t2 h2
    rw [h2] at hb
    obtain ⟨_, _, hg⟩ | ⟨x, hx, _⟩ := hb
    · exact .inl ⟨_, rfl, hg.trans g1⟩
    · cases hx
  · rename_i exchange t2 h2
    rw [h2] at hb
    obtain ⟨_, he, _⟩ | ⟨x, hx, hf, hg⟩ := hb
    · cases he
    cases hx
    split
    rename_i backoff t3 h3
    obtain ⟨_, hdrew⟩ := t2.localExchangeBackoff_drew t2.localExchangeRetryAttempt
    have ht3 : t3 = t2.drew _ := (congrArg Prod.snd h3.symm).trans hdrew
    have g3 : t3.gates = t2.gates := by
      rw [ht3]
      rfl
    refine .inr ⟨exchange, now + backoff, rfl, g1 ▸ hf, ?_⟩
    rw [← g1, Gates.restart, ← hg, ← g3]
    rfl

theorem localExchangeRetryReady_gates : s.localExchangeRetryReady.2.gates = s.gates := by
  unfold localExchangeRetryReady
  split_ifs <;> rfl

theorem isRemoteEpochRetired_gates (epoch : UInt64) :
    (s.isRemoteEpochRetired epoch).2.gates = s.gates := by
  unfold isRemoteEpochRetired
  split_ifs <;> rfl

theorem checkInboundDataSession_gates (session : UInt16) :
    (s.checkInboundDataSession session).2.gates = s.gates := by
  unfold checkInboundDataSession
  split_ifs
  · rfl
  · rfl
  · dsimp only
    split_ifs <;> rfl

theorem installRemote_gates {t : State} (hc : t.config = s.config) (epoch : UInt64)
    (h : CapabilitiesHello) (hv : (validateCapabilities s.config h).result = .accepted) :
    (t.installRemote epoch h (validateCapabilities s.config h)).gates =
      t.gates.install epoch h := by
  have hs : (validateCapabilities s.config h).selectedFeatureBits =
      t.config.supportedFeatureBits &&& h.supportedFeatureBits := by
    unfold validateCapabilities at hv ⊢
    split_ifs at hv ⊢
    rw [hc]
  simp [installRemote, reconcileCapabilitiesAck, gates, Gates.install, hs]

/-- The state in which an accepted Hello with this epoch is recorded. -/
inductive Cleared (s : State) (epoch : UInt64) : State → Prop
  | same : ¬ s.gates.Changes epoch → Cleared s epoch s.pruned
  | rotated {epochs : ExpirySet UInt64} {sessions : ExpirySet UInt16} :
    s.gates.Changes epoch → s.pruned.retiredEpochs.contains epoch = false →
    s.pruned.retiredEpochs.full = false →
    s.pruned.retiredSessions.Room s.remoteSessionID →
    s.pruned.retiredEpochs.retain s.remoteEpoch (s.nextRead + retiredEpochLifetime) =
      (true, epochs) →
    s.pruned.retiredSessions.replaced s.remoteSessionID
      (s.nextRead + lifetime s.config.reassemblyLifetimeMs) = (true, sessions) →
    Cleared s epoch ({ s.pruned with
      retiredEpochs := epochs, retiredSessions := sessions }).forgetRemote

inductive HelloOutcome (s : State) (m : Control) : CapabilityDecision × State → Prop
  | invalid {out : CapabilityDecision} : out.result ≠ .accepted → HelloOutcome s m (out, s)
  | refused {epochs : ExpirySet UInt64} {sessions : ExpirySet UInt16} :
    (s.retiredEpochs.Wf → s.retiredSessions.Wf →
      epochs = s.pruned.retiredEpochs ∧ sessions = s.pruned.retiredSessions) →
    HelloOutcome s m ({ result := .invalidParameter },
      { s.pruned with retiredEpochs := epochs, retiredSessions := sessions })
  | accepted {h : CapabilitiesHello} {t : State} :
    m.body = some (.capabilitiesHello h) → validRequest m = true → m.getPadding = [] →
    (validateCapabilities s.config h).result = .accepted → Cleared s m.controlEpoch t →
    HelloOutcome s m ({ validateCapabilities s.config h with
        startReverseExchange := decide (s.localEpoch = 0 ∨ s.gates.Changes m.controlEpoch) },
      t.installRemote m.controlEpoch h (validateCapabilities s.config h))

theorem retainRetired_eq (current : UInt16) (expires : Time) :
    (if current ≠ 0 then s.retainRetired current expires else (true, s)) =
      ((s.retiredSessions.replaced current expires).1,
        { s with retiredSessions := (s.retiredSessions.replaced current expires).2 }) := by
  by_cases hk : current = 0
  · subst hk
    rfl
  · have hr : s.retiredSessions.replaced current expires =
        s.retiredSessions.retain current expires := if_neg hk
    rw [hr, if_pos hk, retainRetired, if_neg hk]

theorem clearRemoteEpoch_cases (hne : s.remoteEpoch ≠ 0) (now : Time) :
    ∃ epochs sessions,
      let epochs' := s.retiredEpochs.retain s.remoteEpoch (now + retiredEpochLifetime)
      let sessions' := s.retiredSessions.replaced s.remoteSessionID
        (now + lifetime s.config.reassemblyLifetimeMs)
      (s.clearRemoteEpoch now =
          (false, { s with retiredEpochs := epochs, retiredSessions := sessions }) ∧
        (epochs'.1 = false ∨ sessions'.1 = false)) ∨
      (s.clearRemoteEpoch now = (true, ({ s with
          retiredEpochs := epochs, retiredSessions := sessions }).forgetRemote) ∧
        epochs' = (true, epochs) ∧ sessions' = (true, sessions)) := by
  unfold clearRemoteEpoch
  rw [if_pos hne]
  dsimp only
  rw [retainRetired_eq]
  rcases s.retiredEpochs.retain s.remoteEpoch (now + retiredEpochLifetime) with ⟨_ | _, epochs⟩
  · exact ⟨epochs, s.retiredSessions, .inl ⟨rfl, .inl rfl⟩⟩
  dsimp only
  rcases s.retiredSessions.replaced s.remoteSessionID
    (now + lifetime s.config.reassemblyLifetimeMs) with ⟨_ | _, sessions⟩
  · exact ⟨epochs, sessions, .inl ⟨rfl, .inr rfl⟩⟩
  · exact ⟨epochs, sessions, .inr ⟨rfl, rfl, rfl⟩⟩

theorem observeCapabilitiesHello_outcome (s : State) (m : Control) :
    HelloOutcome s m (s.observeCapabilitiesHello m) := by
  have hn : s.now = (s.nextRead, s.now.2) := rfl
  have hp : s.now.2.pruneRetired s.nextRead = s.pruned := rfl
  unfold observeCapabilitiesHello
  split
  case h_2 => exact .invalid nofun
  rename_i h hb
  split
  case isFalse => exact .invalid nofun
  rename_i hr
  dsimp only
  split
  · next ha => exact .invalid ha
  rename_i ha
  rw [hn]
  dsimp only
  rw [hp]
  have hok := not_not.mp ha
  split_ifs with hch hba
  · exact .refused fun _ _ => ⟨rfl, rfl⟩
  · have hc : s.gates.Changes m.controlEpoch := hch
    rw [not_or, not_or] at hba
    obtain ⟨hfr, hsp, hs⟩ := hba
    have hsp := Bool.of_not_eq_true hsp
    have hrm := ExpirySet.Room.of_not hs
    obtain ⟨epochs, sessions, ⟨heq, hno⟩ | ⟨heq, he, hsess⟩⟩ :=
      s.pruned.clearRemoteEpoch_cases hch.1 s.nextRead
    · rw [heq]
      refine .refused fun hwf hwf' => ?_
      obtain ⟨_, hre, -⟩ := (hwf.prune s.nextRead).1.retain (k := s.remoteEpoch) (.inr hsp)
        (s.nextRead + retiredEpochLifetime)
      have hk := (hwf'.prune s.nextRead).1.replaced hrm
        (s.nextRead + lifetime s.config.reassemblyLifetimeMs)
      rcases hno with hno | hno
      · cases (congrArg Prod.fst hre).symm.trans hno
      · cases hk.symm.trans hno
    · rw [heq]
      have ho := HelloOutcome.accepted hb hr.1 hr.2 hok
        (.rotated hc (Bool.of_not_eq_true hfr) hsp hrm he hsess)
      simpa [hc] using ho
  · have hc : ¬ s.gates.Changes m.controlEpoch := hch
    have ho := HelloOutcome.accepted hb hr.1 hr.2 hok (.same hc)
    simp only [hc, or_false] at ho
    exact ho

/-- A Hello that is not accepted leaves the gates alone; an accepted one is `Gates.hello`. -/
theorem observeCapabilitiesHello_cases (s : State) (m : Control) :
    ((s.observeCapabilitiesHello m).1.result ≠ .accepted ∧
      (s.observeCapabilitiesHello m).2.gates = s.gates) ∨
    (∃ h, m.body = some (.capabilitiesHello h) ∧ validRequest m = true ∧ m.getPadding = [] ∧
      (validateCapabilities s.config h).result = .accepted ∧
      (s.observeCapabilitiesHello m).1 = { validateCapabilities s.config h with
        startReverseExchange := decide (s.localEpoch = 0 ∨ s.gates.Changes m.controlEpoch) } ∧
      (s.observeCapabilitiesHello m).2.gates = s.gates.hello m.controlEpoch h) := by
  have ho := s.observeCapabilitiesHello_outcome m
  generalize s.observeCapabilitiesHello m = out at ho
  cases ho with
  | invalid hno => exact .inl ⟨hno, rfl⟩
  | refused => exact .inl ⟨nofun, rfl⟩
  | @accepted h t hb hr hp hv hc =>
    refine .inr ⟨h, hb, hr, hp, hv, rfl, ?_⟩
    unfold Gates.hello
    cases hc with
    | same hch =>
      rw [if_neg hch]
      exact installRemote_gates rfl m.controlEpoch h hv
    | rotated hch =>
      rw [if_pos hch]
      exact installRemote_gates rfl m.controlEpoch h hv

theorem validateCapabilities_ceiling {config : StateConfig} {h : CapabilitiesHello}
    (hv : (validateCapabilities config h).result = .accepted) :
    config.minCarrierPayload ≤ h.maxCarrierPayload := by
  unfold validateCapabilities at hv
  split_ifs at hv with _ hr
  simp only [not_or] at hr
  exact UInt32.not_lt.mp hr.2.2.1

variable (s) (m : Control) (id : UInt64)

theorem observeCapabilitiesAck_cases : ((s.observeCapabilitiesAck m id).1 ≠ .accepted ∧
      ∃ d, d.Enabled s.gates ∧ (s.observeCapabilitiesAck m id).2.gates = s.gates.drop d) ∨
    (∃ ack, m.body = some (.capabilitiesAck ack) ∧ s.validResponse m id = true ∧
      ack.result = .accepted ∧ (s.observeCapabilitiesAck m id).1 = .accepted ∧
      (s.flags.remoteCapabilities = true → ack.selectedFeatureBits = s.remoteSelectedFeatures) ∧
      (s.observeCapabilitiesAck m id).2.gates =
        s.gates.capabilitiesAck ack.selectedFeatureBits) := by
  unfold observeCapabilitiesAck
  split
  case h_2 => exact .inl ⟨nofun, .none, trivial, rfl⟩
  rename_i ack hb
  by_cases hr : m.getPadding = [] ∧ s.validResponse m id = true
  case neg =>
    rw [if_neg hr]
    exact .inl ⟨nofun, .none, trivial, rfl⟩
  rw [if_pos hr]
  by_cases hre : ack.result = .accepted
  case neg =>
    rw [if_pos hre]
    exact .inl ⟨hre, .capabilities, trivial, rfl⟩
  rw [if_neg (not_not.mpr hre)]
  split
  · exact .inl ⟨nofun, .capabilities, trivial, rfl⟩
  extract_lets t
  have hg : t.gates = s.gates.capabilitiesAck ack.selectedFeatureBits := by
    simp [t, reconcileCapabilitiesAck, gates, Gates.capabilitiesAck]
  have hrc : t.flags.remoteCapabilities = s.flags.remoteCapabilities := rfl
  have hlc : t.flags.localCapabilities = (s.flags.remoteCapabilities &&
      ack.selectedFeatureBits == s.remoteSelectedFeatures) := by
    simp [t, reconcileCapabilitiesAck]
  rw [hrc, hlc]
  split_ifs with hba
  · refine .inl ⟨nofun, .features ack.selectedFeatureBits, ⟨hba.1, ?_⟩, hg⟩
    have h2 := hba.2
    rw [hba.1] at h2
    simpa [gates] using h2
  · refine .inr ⟨ack, hb, hr.2, hre, rfl, fun h => ?_, hg⟩
    rw [h] at hba
    simpa using hba

theorem validRemoteRequest_iff (h : s.validRemoteRequest m = true) : s.gates.RemoteRequest m := by
  simp only [validRemoteRequest, validRequest, Bool.and_eq_true, beq_iff_eq, decide_eq_true_eq] at h
  exact ⟨h.1.1.1.2, h.1.1.2, h.1.2, h.2⟩

theorem validateDataSessionID_accepted {d : UInt32} (h : validateDataSessionID d = .accepted) :
    d.toUInt16 ≠ 0 ∧ d.toUInt16.toUInt32 = d := by
  unfold validateDataSessionID at h
  split_ifs at h with hd
  obtain ⟨_, _⟩ : d.toNat ≠ 0 ∧ d.toNat ≤ 65535 := by
    rw [not_or] at hd
    refine ⟨fun h0 => hd.1 (UInt32.toNat.inj h0), ?_⟩
    simpa [UInt32.lt_iff_toNat_lt] using hd.2
  refine ⟨fun h0 => ?_, ?_⟩
  · have := congrArg UInt16.toNat h0
    simp at this
    omega
  · apply UInt32.toNat.inj
    simp
    omega

inductive ResetOutcome : ResetDecision × State → Prop
  | invalid : ResetOutcome ({ result := .invalidParameter }, s)
  | collision (session : UInt16) :
    ResetOutcome ({ result := .sessionCollision, dataSessionID := session }, s.pruned)
  | accepted {session : UInt16} :
    m.body = some (.resetSequence session.toUInt32) → s.gates.RemoteRequest m → session ≠ 0 →
    session ≠ s.remoteSessionID → s.pruned.retiredSessions.contains session = false →
    s.pruned.retiredSessions.Room s.remoteSessionID →
    ResetOutcome ({ result := .accepted, dataSessionID := session, sessionChanged := true },
      { s.pruned with
        retiredSessions := (s.pruned.retiredSessions.replaced s.remoteSessionID
          (s.nextRead + lifetime s.config.reassemblyLifetimeMs)).2
        remoteSessionID := session })

theorem observeResetSequence_outcome : ResetOutcome s m (s.observeResetSequence m) := by
  have hno : s.now = (s.nextRead, s.now.2) := rfl
  have hp : s.now.2.pruneRetired s.nextRead = s.pruned := rfl
  unfold observeResetSequence
  split
  case h_2 => exact .invalid
  rename_i d hb
  split
  case isFalse => exact .invalid
  rename_i hr
  obtain ⟨hne, heq⟩ := validateDataSessionID_accepted hr.2.2
  rw [hno]
  dsimp only
  rw [hp]
  split
  · exact .collision _
  rename_i hsm
  split
  · exact .collision _
  rename_i hre
  split
  · exact .collision _
  rename_i hfu
  have hn : d.toUInt16 ≠ s.remoteSessionID := fun hs => hsm ⟨hs ▸ hne, hs.symm⟩
  have ho := ResetOutcome.accepted (hb.trans (by rw [heq]))
    (validRemoteRequest_iff s m hr.1) hne hn (Bool.of_not_eq_true hre)
    (ExpirySet.Room.of_not hfu)
  have hse : (if s.pruned.remoteSessionID ≠ 0 then
      (s.pruned.retainRetired s.pruned.remoteSessionID
        (s.nextRead + lifetime s.pruned.config.reassemblyLifetimeMs)).2 else s.pruned) =
      { s.pruned with retiredSessions := (s.pruned.retiredSessions.replaced s.remoteSessionID
        (s.nextRead + lifetime s.config.reassemblyLifetimeMs)).2 } := by
    have h := congrArg Prod.snd (s.pruned.retainRetired_eq s.remoteSessionID
      (s.nextRead + lifetime s.config.reassemblyLifetimeMs))
    rwa [apply_ite Prod.snd] at h
  rw [hse]
  have hc : (s.pruned.remoteSessionID ≠ d.toUInt16) = True := eq_true hn.symm
  simpa only [hc, decide_true] using ho

theorem observeResetSequence_cases : ((s.observeResetSequence m).1.result ≠ .accepted ∧
      (s.observeResetSequence m).2.gates = s.gates) ∨
    (∃ session : UInt16, m.body = some (.resetSequence session.toUInt32) ∧
      s.gates.RemoteRequest m ∧ session ≠ 0 ∧ session ≠ s.remoteSessionID ∧
      (s.observeResetSequence m).1 =
        { result := .accepted, dataSessionID := session, sessionChanged := true } ∧
      (s.observeResetSequence m).2.gates = s.gates.reset session) := by
  have ho := s.observeResetSequence_outcome m
  generalize s.observeResetSequence m = out at ho
  cases ho with
  | invalid | collision => exact .inl ⟨nofun, rfl⟩
  | accepted hb hr hne hn => exact .inr ⟨_, hb, hr, hne, hn, rfl, rfl⟩

theorem observeResetSequenceAck_cases : ((s.observeResetSequenceAck m id).1 = .invalidParameter ∧
      (s.observeResetSequenceAck m id).2.gates = s.gates) ∨
    ((s.observeResetSequenceAck m id).1 ≠ .accepted ∧
      (s.observeResetSequenceAck m id).2.gates = s.gates.drop .reset) ∨
    (∃ ack, m.body = some (.resetSequenceAck ack) ∧ s.validResponse m id = true ∧
      ack.result = .accepted ∧ (s.observeResetSequenceAck m id).1 = .accepted ∧
      ack.dataSessionID = s.localSessionID.toUInt32 ∧
      (s.observeResetSequenceAck m id).2.gates = s.gates.resetAck) := by
  unfold observeResetSequenceAck
  split
  case h_2 => exact .inl ⟨rfl, rfl⟩
  rename_i ack hb
  by_cases hr : m.getPadding = [] ∧ s.validResponse m id = true
  case neg =>
    rw [if_neg hr]
    exact .inl ⟨rfl, rfl⟩
  split_ifs with hre hs
  · exact .inr (.inl ⟨hre, rfl⟩)
  · exact .inr (.inl ⟨nofun, rfl⟩)
  obtain ⟨hv, heq⟩ : validateDataSessionID ack.dataSessionID = .accepted ∧
      ack.dataSessionID.toUInt16 = s.localSessionID := by simpa [not_or] using hs
  refine .inr (.inr ⟨ack, hb, hr.2, not_not.mp hre, rfl, ?_, rfl⟩)
  rw [← heq]
  exact (validateDataSessionID_accepted hv).2.symm

/-- Only a ResetSequenceAck reports a collision. -/
theorem observeResetSequenceAck_collision {s : State} {m : Control} {id : UInt64}
    (h : (s.observeResetSequenceAck m id).1 = .sessionCollision) :
    ∃ ack, m.body = some (.resetSequenceAck ack) := by
  unfold observeResetSequenceAck at h
  split at h
  · rename_i ack hb
    exact ⟨ack, hb⟩
  · cases h

theorem observePeerMTU_cases :
    ((s.observePeerMTU m).1 ≠ .accepted ∧ (s.observePeerMTU m).2.gates = s.gates) ∨
    (∃ mtu, m.body = some (.peerMTU mtu) ∧ s.gates.RemoteRequest m ∧
      validatePeerMTUValue mtu = .accepted ∧ (s.observePeerMTU m).1 = .accepted ∧
      (s.observePeerMTU m).2.gates = s.gates.setPeerMTU mtu) := by
  unfold observePeerMTU
  split
  case h_2 => exact .inl ⟨nofun, rfl⟩
  rename_i mtu hb
  by_cases hr : s.validRemoteRequest m = true ∧ m.getPadding = []
  case neg =>
    rw [if_neg hr]
    exact .inl ⟨nofun, rfl⟩
  split_ifs with hv
  · exact .inl ⟨hv, rfl⟩
  · exact .inr ⟨mtu, hb, validRemoteRequest_iff s m hr.1, not_not.mp hv, rfl, rfl⟩

theorem observePeerMTUAck_cases :
    ((s.observePeerMTUAck m id).1 ≠ .accepted ∧ ((s.observePeerMTUAck m id).2.gates = s.gates ∨
        (s.observePeerMTUAck m id).2.gates = s.gates.drop .peerMTU)) ∨
    (∃ ack, m.body = some (.peerMTUAck ack) ∧ s.validResponse m id = true ∧
      ack.result = .accepted ∧ (s.observePeerMTUAck m id).1 = .accepted ∧
      ack.innerMTU = s.config.localPeerMTU ∧
      (s.observePeerMTUAck m id).2.gates = s.gates.peerMTUAck) := by
  unfold observePeerMTUAck
  split
  case h_2 => exact .inl ⟨nofun, .inl rfl⟩
  rename_i ack hb
  by_cases hr : m.getPadding = [] ∧ s.validResponse m id = true
  case neg =>
    rw [if_neg hr]
    exact .inl ⟨nofun, .inl rfl⟩
  split_ifs with hre hv
  · exact .inl ⟨hre, .inr rfl⟩
  · exact .inl ⟨nofun, .inr rfl⟩
  · refine .inr ⟨ack, hb, hr.2, not_not.mp hre, rfl, ?_, rfl⟩
    rw [not_or] at hv
    exact not_not.mp hv.2

theorem observePong_cases (expected : UInt32) : ((s.observePong m id expected).1 ≠ .accepted ∧
      (s.observePong m id expected).2.gates = s.gates) ∨
    (m.body = some (.pong expected) ∧ s.validResponse m id = true ∧
      (s.observePong m id expected).1 = .accepted ∧
      (s.observePong m id expected).2.gates = s.gates.pong) := by
  unfold observePong
  split
  case h_2 => exact .inl ⟨nofun, rfl⟩
  rename_i sequence hb
  split_ifs with hr
  · exact .inr ⟨hr.2.2 ▸ hb, hr.2.1, rfl, rfl⟩
  · exact .inl ⟨nofun, rfl⟩

theorem observeBaseProbeAck_cases :
    ((s.observeBaseProbeAck m id).1 ≠ .accepted ∧ (s.observeBaseProbeAck m id).2.gates = s.gates) ∨
    (m.body = some (.mtuProbeAck s.config.minCarrierPayload) ∧ s.validResponse m id = true ∧
      (s.observeBaseProbeAck m id).1 = .accepted ∧
      (s.observeBaseProbeAck m id).2.gates = s.gates.baseAck) := by
  unfold observeBaseProbeAck
  split
  case h_2 => exact .inl ⟨nofun, rfl⟩
  rename_i size hb
  split_ifs with hr
  · exact .inr ⟨hr.2.2 ▸ hb, hr.2.1, rfl, rfl⟩
  · exact .inl ⟨nofun, rfl⟩

theorem observeStateSyncRequired_cases : ((s.observeStateSyncRequired m).1 ≠ .accepted ∧
      (s.observeStateSyncRequired m).2.gates = s.gates) ∨
    ((∃ sync, m.body = some (.stateSyncRequired sync) ∧
        sync.observedDataSessionID = s.localSessionID.toUInt32) ∧
      s.gates.RemoteRequest m ∧ (s.observeStateSyncRequired m).1 = .accepted ∧
      (s.observeStateSyncRequired m).2.gates = s.gates.sync) := by
  unfold observeStateSyncRequired
  split
  case h_2 => exact .inl ⟨nofun, rfl⟩
  rename_i sync hb
  split_ifs with hre
  · obtain ⟨_, hr, _, hv, hs⟩ := hre
    refine .inr ⟨⟨sync, hb, ?_⟩, validRemoteRequest_iff s m hr, rfl, rfl⟩
    rw [← hs]
    exact (validateDataSessionID_accepted hv).2.symm
  · exact .inl ⟨nofun, rfl⟩

end State
end WgFrag.Control
