import WgFrag.Control.Core

/-! The invariant of the abstract engine. -/
namespace WgFrag.Control.Core
open WgFrag.Lib WgFrag.Wire

/-- What ties the gates of a core to each other, to the outstanding request and to the
carrier payload search. The last fields hold because a BASE probe follows a Pong: only an
exchange that could not begin leaves a BASE probe without one, and then no capability gate
opens before a new Hello has been sent. -/
structure Sound (c : Core) : Prop where
  config : c.config.Valid
  base : c.base = c.config.minCarrierPayload
  epoch : c.epoch = c.localEpoch
  peer : c.peerEpoch = c.remoteEpoch
  remote : c.flags.remoteCapabilities = true ↔ c.remoteEpoch ≠ 0
  ceiling : c.remoteEpoch ≠ 0 → c.config.minCarrierPayload ≤ c.remoteMax
  installed : c.localEpoch ≠ 0 →
    ⟨c.localEpoch, c.localSession⟩ ∈ c.exchanges ∧ c.localSession ≠ 0
  agreed : c.flags.localCapabilities = true →
    c.flags.remoteCapabilities = true ∧ c.pendingAck = true ∧ c.pendingFeatures = c.selected
  mtu : c.flags.remotePeerMTU = true →
    c.flags.remoteCapabilities = true ∧ validatePeerMTUValue c.peerMTU = .accepted
  search : ∀ p, c.pmtu = some p → p.Ok ∧ p.config.base = c.base
  searched : c.flags.baseProbe = true → c.pmtu.isSome
  recovering : c.baseError = true → c.flags.baseProbe = false
  settled : c.flags.localResetAck = true → c.retryAt = 0
  reached : c.flags.pingPong = true ∨ c.flags.baseProbe = true →
    c.flags.remoteCapabilities = true
  pinging : c.Awaits .ping → c.flags.remoteCapabilities = true ∧ c.flags.baseProbe = false
  probing : c.Awaits .baseProbe → c.flags.remoteCapabilities = true ∧ c.retryAt = 0 ∧
    (c.flags.pingPong = true ∨ (c.flags.localCapabilities = false ∧ c.pendingAck = false))
  probed : c.flags.baseProbe = true → c.retryAt = 0 ∧
    (c.flags.pingPong = true ∨ (c.flags.localCapabilities = false ∧ c.pendingAck = false ∧
      ∀ s, c.slot = some s → s.kind = .pmtuProbe))

namespace Sound
variable {c : Core} {P : Proto} {allow : Guard} {m : Control}

theorem not_awaits {kind : RequestKind} (h : c.slot = none) : ¬ c.Awaits kind := fun ⟨_, hk⟩ => by
  rw [h] at hk
  cases hk

theorem initial {config : StateConfig} (h : config.Valid) : (Core.initial config).Sound where
  config := h
  base := rfl
  epoch := rfl
  peer := rfl
  remote := ⟨of_closed, fun h => absurd rfl h⟩
  ceiling h := absurd rfl h
  installed h := absurd rfl h
  agreed := of_closed
  mtu := of_closed
  search _ h := absurd h.symm (Option.some_ne_none _)
  searched := of_closed
  recovering _ := rfl
  settled _ := rfl
  reached h := absurd h (by simp [Core.initial, State.gates])
  pinging h := absurd h (not_awaits rfl)
  probing h := absurd h (not_awaits rfl)
  probed := of_closed

theorem resetPath (hs : c.Sound) :
    ({ c with toGates := c.toGates.resetPath, slot := none } : Core).Sound :=
  { hs with
    searched := of_closed
    recovering := fun _ => rfl
    reached := fun h => absurd h (by simp [Gates.resetPath, Flags.clearPath])
    pinging := fun h => absurd h (not_awaits rfl)
    probing := fun h => absurd h (not_awaits rfl)
    probed := of_closed }

/-- A new exchange closes every gate that it has to open, and keeps no search. -/
theorem install (hs : c.Sound) {x : LocalExchange} (hx : c.Fresh x) (t : Time) (started : Bool) :
    ({ c with
      toGates := c.toGates.restart x t, epoch := x.controlEpoch, started := started
      slot := none, pmtu := none } : Core).Sound :=
  { hs with
    epoch := rfl
    installed := fun _ => ⟨List.mem_cons_self, hx.session_ne⟩
    agreed := of_closed
    search := fun _ h => absurd h.symm (Option.some_ne_none _)
    searched := of_closed
    recovering := fun _ => rfl
    settled := of_closed
    reached := fun h => absurd h (by simp [Gates.restart, Gates.begin, Flags.clearLocal])
    pinging := fun h => absurd h (not_awaits rfl)
    probing := fun h => absurd h (not_awaits rfl)
    probed := of_closed }

theorem send (hs : c.Sound) {kind : RequestKind} {body : Body} (hr : c.Request body kind)
    (frame : Bytes) : (c.next (.send kind frame)).Sound := by
  have hk : ∀ k, (c.next (.send kind frame)).Awaits k → kind = k := fun k ⟨_, h⟩ =>
    congrArg Slot.kind (Option.some.inj h)
  refine { hs with pinging := fun h => ?_, probing := fun h => ?_, probed := fun h => ?_ }
  · obtain rfl := hk _ h
    obtain ⟨-, hne, hp⟩ := hr
    refine ⟨hne.remote, Bool.eq_false_iff.mpr fun hba => ?_⟩
    obtain ⟨-, h | ⟨h, -⟩⟩ := hs.probed hba
    · exact absurd (h.symm.trans hp) nofun
    · exact absurd (h.symm.trans hne.loc) nofun
  · obtain rfl := hk _ h
    obtain ⟨-, hne, hre, hp⟩ := hr
    exact ⟨hne.remote, hs.settled hre, .inl hp⟩
  · obtain ⟨hrt, h | ⟨hl, hpe, -⟩⟩ := hs.probed h
    · exact ⟨hrt, .inl h⟩
    · refine ⟨hrt, .inr ⟨hl, hpe, ?_⟩⟩
      rintro _ ⟨⟩
      have hne : ¬ c.flags.Negotiated := fun hn => absurd (hl.symm.trans hn.loc) nofun
      cases kind with
      | capabilities => exact absurd hrt (hr.2.resolve_left fun hb => absurd (hb.symm.trans h) nofun)
      | reset | peerMTU => exact absurd hr.2 hne
      | ping | baseProbe => exact absurd hr.2.1 hne
      | pmtuProbe => rfl

theorem release (hs : c.Sound) : (c.next .release).Sound :=
  { hs with
    pinging := fun h => absurd h (not_awaits rfl)
    probing := fun h => absurd h (not_awaits rfl)
    probed := fun h => (hs.probed h).imp_right fun h => h.imp_right fun ⟨hl, hp, _⟩ =>
      ⟨hl, hp, fun _ h => absurd h.symm (Option.some_ne_none _)⟩ }

theorem terminal (hs : c.Sound) (d : Gates.Drop) : (c.next (.terminal d)).Sound := by
  have hr : (c.next (.terminal .none)).Sound :=
    { hs.resetPath with recovering := of_closed }
  cases d with
  | none => exact hr
  | capabilities =>
    exact { hr with
      agreed := of_closed
      probing := fun h => absurd h (not_awaits rfl)
      probed := of_closed }
  | features f =>
    refine { hr with
      agreed := fun h => ?_
      probing := fun h => absurd h (not_awaits rfl)
      probed := of_closed }
    have h : (c.flags.remoteCapabilities && f == c.selected) = true := h
    simp only [Bool.and_eq_true, beq_iff_eq] at h
    exact ⟨h.1, rfl, h.2⟩
  | reset => exact { hr with settled := of_closed }
  | peerMTU => exact { hr with }

theorem search_ok (hs : c.Sound) {p : Pmtu.State} (h : c.Search p) :
    p.Ok ∧ p.config.base = c.base := by
  unfold Search at h
  split at h
  · rename_i p0 hp
    obtain ⟨hok, hb⟩ := hs.search p0 hp
    exact ⟨h.ok hok, by rw [h.config, hb]⟩
  · exact h

theorem step {a : Act} {d : Core} (h : c.Step P allow a d) (hs : c.Sound) : d.Sound := by
  obtain ⟨hen, rfl⟩ := h
  cases a with
  | respond | replay | resend | sync => exact hs
  | remember => exact { hs with }
  | begin => exact hs.install hen.2 c.retryAt true
  | restart _ t =>
    have h := hs.install hen.2.1 t c.started
    rw [← hen.2.2] at h
    exact h
  | send _ frame =>
    obtain ⟨-, -, _, -, -, -, hr⟩ := hen
    exact hs.send hr frame
  | release => exact hs.release
  | resetPath => exact hs.resetPath
  | baseError => exact { hs.resetPath with recovering := fun _ => rfl }
  | terminal d => exact hs.terminal d
  | recover => exact { hs with }
  | dropReset => exact { hs with settled := of_closed }
  | search =>
    refine { hs with search := ?_, searched := fun _ => rfl }
    rintro _ ⟨⟩
    exact hs.search_ok hen
  | blackhole =>
    exact { hs.resetPath with
      search := fun _ h => absurd h.symm (Option.some_ne_none _)
      searched := of_closed }

private theorem awaits_unique {k k' : RequestKind} (h : c.Awaits k) (h' : c.Awaits k') :
    k = k' := by
  obtain ⟨_, h⟩ := h
  obtain ⟨_, h'⟩ := h'
  exact congrArg Slot.kind (Option.mem_unique h h')

private theorem hello_same (hs : c.Sound) {h : CapabilitiesHello} (hne : m.controlEpoch ≠ 0)
    (hv : (validateCapabilities c.config h).result = .accepted)
    (hch : ¬ c.Changes m.controlEpoch) : (c.accept m (.hello h)).Sound := by
  have heq : c.accept m (.hello h) =
      { c with toGates := c.toGates.install m.controlEpoch h, peerEpoch := m.controlEpoch } := by
    have hpr : ¬ (c.peerEpoch ≠ 0 ∧ c.peerEpoch ≠ m.controlEpoch) := by rwa [hs.peer]
    simp only [Core.accept, Gates.hello, if_neg hch, if_neg hpr]
  have hl : c.pendingAck = false →
      (c.pendingAck && c.pendingFeatures == (c.config.supportedFeatureBits &&& h.supportedFeatureBits)) =
        false := fun hp => by rw [hp, Bool.false_and]
  rw [heq]
  refine { hs with
    peer := rfl
    remote := ⟨fun _ => hne, fun _ => rfl⟩
    ceiling := fun _ => State.validateCapabilities_ceiling hv
    mtu := fun h => ⟨rfl, (hs.mtu h).2⟩
    reached := fun _ => rfl
    pinging := fun h => ⟨rfl, (hs.pinging h).2⟩
    agreed := fun h => ?_
    probing := fun h => ?_
    probed := fun h => ?_ }
  · obtain ⟨hp, hf⟩ := (Bool.and_eq_true _ _).mp h
    exact ⟨rfl, hp, beq_iff_eq.mp hf⟩
  · obtain ⟨-, hr, hpg⟩ := hs.probing h
    exact ⟨rfl, hr, hpg.imp_right fun hp => ⟨hl hp.2, hp.2⟩⟩
  · obtain ⟨hr, hpg⟩ := hs.probed h
    exact ⟨hr, hpg.imp_right fun hp => ⟨hl hp.2.1, hp.2⟩⟩

/-- An accepted Hello of another remote epoch forgets the previous one. -/
theorem hello_new (hs : c.Sound) {h : CapabilitiesHello} (hne : m.controlEpoch ≠ 0)
    (hv : (validateCapabilities c.config h).result = .accepted)
    (hch : c.Changes m.controlEpoch) : (c.accept m (.hello h)).Sound := by
  have heq : c.accept m (.hello h) = { c with
        toGates := c.toGates.forget.install m.controlEpoch h, peerEpoch := m.controlEpoch
        pmtu := none } := by
    have hp : c.peerEpoch ≠ 0 ∧ c.peerEpoch ≠ m.controlEpoch := by rwa [hs.peer]
    simp only [Core.accept, Gates.hello, if_pos hch, if_pos hp]
  rw [heq]
  exact { hs with
    peer := rfl
    remote := ⟨fun _ => hne, fun _ => rfl⟩
    ceiling := fun _ => State.validateCapabilities_ceiling hv
    agreed := of_closed
    mtu := of_closed
    search := fun _ h => absurd h.symm (Option.some_ne_none _)
    searched := of_closed
    recovering := fun _ => rfl
    settled := of_closed
    reached := fun _ => rfl
    pinging := fun _ => ⟨rfl, rfl⟩
    probing := fun h => ⟨rfl, (hs.probing h).2.1, .inr ⟨rfl, rfl⟩⟩
    probed := of_closed }

theorem capabilitiesAck (hs : c.Sound) (hw : c.Awaits .capabilities) (ack : CapabilitiesAck) :
    (c.accept m (.capabilitiesAck ack)).Sound := by
  refine { hs with agreed := fun h => ?_, probing := fun h => ?_, probed := fun h => ?_ }
  · have h : (c.flags.remoteCapabilities && ack.selectedFeatureBits == c.selected) = true := h
    simp only [Bool.and_eq_true, beq_iff_eq] at h
    exact ⟨h.1, rfl, h.2⟩
  · exact absurd (awaits_unique hw h) nofun
  · obtain ⟨hr, h | ⟨-, -, h⟩⟩ := hs.probed h
    · exact ⟨hr, .inl h⟩
    · obtain ⟨_, hsl⟩ := hw
      exact absurd (h _ hsl) nofun

theorem accept {a : Accepted} (hs : c.Sound) (h : c.Admits m a) : (c.accept m a).Sound := by
  cases a with
  | hello =>
    obtain ⟨-, hne, hv⟩ := h
    by_cases hch : c.Changes m.controlEpoch
    · exact hs.hello_new hne hv hch
    · exact hs.hello_same hne hv hch
  | capabilitiesAck ack => exact hs.capabilitiesAck h.2.1 ack
  | resetSequence => exact { hs with }
  | resetSequenceAck =>
    exact { hs with
      settled := fun _ => rfl
      probing := fun h => ⟨(hs.probing h).1, rfl, (hs.probing h).2.2⟩
      probed := fun h => ⟨rfl, (hs.probed h).2⟩ }
  | peerMTU mtu => exact { hs with mtu := fun _ => ⟨h.2.1.known, h.2.2⟩ }
  | peerMTUAck => exact { hs with }
  | pong =>
    exact { hs with
      reached := fun _ => (hs.pinging h.2.1).1
      probing := fun h => ⟨(hs.probing h).1, (hs.probing h).2.1, .inl rfl⟩
      probed := fun h => ⟨(hs.probed h).1, .inl rfl⟩ }
  | baseProbeAck =>
    obtain ⟨-, hw, -, hp⟩ := h
    obtain ⟨hr, hre, hpg⟩ := hs.probing hw
    refine { hs with
      search := ?_
      searched := fun _ => rfl
      recovering := of_closed
      reached := fun _ => hr
      pinging := fun h => absurd h (not_awaits rfl)
      probing := fun h => absurd h (not_awaits rfl)
      probed := fun _ => ⟨hre, hpg.imp_right fun ⟨hl, hp⟩ =>
        ⟨hl, hp, fun _ h => absurd h.symm (Option.some_ne_none _)⟩⟩ }
    rintro _ ⟨⟩
    exact hs.search_ok hp
  | stateSync sync =>
    exact { hs with
      agreed := of_closed
      searched := of_closed
      recovering := fun _ => rfl
      settled := of_closed
      reached := fun h => absurd h (by simp [Core.accept, Gates.sync, Flags.clearLocal])
      pinging := fun h => ⟨(hs.pinging h).1, rfl⟩
      probing := fun h => ⟨(hs.probing h).1, (hs.probing h).2.1, .inr ⟨rfl, rfl⟩⟩
      probed := of_closed }

end Sound

end WgFrag.Control.Core
