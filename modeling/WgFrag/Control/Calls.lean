import WgFrag.Control.Handlers
import WgFrag.Control.Sound

/-! Every engine call refines the abstract engine: at most one accepted message, then
elementary steps. The invariant holds in every state that calls reach. -/
namespace WgFrag.Control.Engine
open WgFrag.Lib WgFrag.Wire List
variable {P : Proto} {e t : Engine} {m : Control}
variable {body : Body} {reply frame : Bytes}

theorem new_sound {config : EngineConfig} (h : Engine.new config = .ok e) : e.core.Sound := by
  obtain ⟨hv, hc⟩ := new_core h
  rw [hc]
  exact .initial hv

theorem Accepts.admits {a : Accepted} (h : t.Accepts m a) : t.core.Admits m a := by
  have hep : ∀ id, t.state.validResponse m id = true → m.controlEpoch = t.core.localEpoch := by
    intro id hv
    simp only [State.validResponse, Bool.and_eq_true, beq_iff_eq] at hv
    exact hv.2
  cases a with
  | hello =>
    obtain ⟨hb, ha⟩ := h
    obtain ⟨hr, -⟩ | ⟨_, hb', hre, -, hv, -, -⟩ := t.state.observeCapabilitiesHello_cases m
    · exact absurd ha hr
    rw [hb] at hb'
    cases hb'
    simp only [validRequest, Bool.and_eq_true, decide_eq_true_eq] at hre
    exact ⟨hb, hre.2, hv⟩
  | capabilitiesAck =>
    obtain ⟨hb, o, han, ha⟩ := h
    obtain ⟨hr, -⟩ | ⟨ack', hb', hresp, hrs, -⟩ :=
      t.state.observeCapabilitiesAck_cases m o.messageID
    · exact absurd ha hr
    · rw [hb] at hb'
      cases hb'
      exact ⟨hb, awaits_of_answers han, hep _ hresp, hrs⟩
  | resetSequence session =>
    obtain ⟨hb, ha⟩ := h
    obtain ⟨hr, -⟩ | ⟨session', hb', hre, hne, -⟩ := t.state.observeResetSequence_cases m
    · exact absurd ha hr
    rw [hb] at hb'
    have heq : session.toUInt32 = session'.toUInt32 := by
      injection hb' with h
      injection h
    obtain rfl : session = session' := by simpa using congrArg UInt32.toUInt16 heq
    exact ⟨hb, hre, hne⟩
  | resetSequenceAck =>
    obtain ⟨hb, o, han, ha⟩ := h
    obtain ⟨hr, -⟩ | ⟨hr, -⟩ | ⟨_, hb', hresp, hrs, -, hs, -⟩ :=
      t.state.observeResetSequenceAck_cases m o.messageID
    · rw [hr] at ha
      cases ha
    · exact absurd ha hr
    · rw [hb] at hb'
      cases hb'
      exact ⟨hb, awaits_of_answers han, hep _ hresp, hrs, hs⟩
  | peerMTU =>
    obtain ⟨hb, ha⟩ := h
    obtain ⟨hr, -⟩ | ⟨_, hb', hre, hva, -⟩ := t.state.observePeerMTU_cases m
    · exact absurd ha hr
    · rw [hb] at hb'
      cases hb'
      exact ⟨hb, hre, hva⟩
  | peerMTUAck =>
    obtain ⟨hb, o, han, ha⟩ := h
    obtain ⟨hr, -⟩ | ⟨_, hb', hresp, hrs, -, hm, -⟩ :=
      t.state.observePeerMTUAck_cases m o.messageID
    · exact absurd ha hr
    · rw [hb] at hb'
      cases hb'
      exact ⟨hb, awaits_of_answers han, hep _ hresp, hrs, hm⟩
  | pong =>
    obtain ⟨hb, o, han, ha⟩ := h
    obtain ⟨hr, -⟩ | ⟨-, hresp, -⟩ := t.state.observePong_cases m o.messageID o.ping
    · exact absurd ha hr
    · exact ⟨hb, awaits_of_answers han, hep _ hresp⟩
  | baseProbeAck =>
    obtain ⟨hp, o, han, ha⟩ := h
    obtain ⟨hr, -⟩ | ⟨hb, hresp, -⟩ := t.state.observeBaseProbeAck_cases m o.messageID
    · exact absurd ha hr
    · exact ⟨hb, awaits_of_answers han, hep _ hresp, hp⟩
  | stateSync =>
    obtain ⟨hb, ha⟩ := h
    obtain ⟨hr, -⟩ | ⟨-, hre, -⟩ := t.state.observeStateSyncRequired_cases m
    · exact absurd ha hr
    · exact ⟨hb, hre⟩

theorem search_possible (hs : t.core.Sound) (hw : t.core.Awaits .baseProbe) :
    t.state.negotiatedCarrierPayload ≠ 0 ∧ t.searchConfig.Valid := by
  have hrc : t.state.flags.remoteCapabilities = true := (hs.probing hw).1
  have hmax : t.state.config.minCarrierPayload ≤ t.state.remoteMaxCarrierPayload :=
    hs.ceiling (hs.remote.mp hrc)
  have hmin : Limits.defaultCarrierPayload ≤ t.state.config.minCarrierPayload.toNat := hs.config.1
  have hpos : ∀ x, t.state.config.minCarrierPayload ≤ x → x ≠ 0 := by
    rintro _ hx rfl
    exact absurd (Nat.le_trans hmin hx) (by decide)
  have hceil : t.state.config.minCarrierPayload ≤ t.state.negotiatedCarrierPayload := by
    rw [State.negotiatedCarrierPayload, if_neg (by simp [hpos _ hmax, hrc])]
    exact Std.le_min_iff.mpr ⟨hs.config.2.1, hmax⟩
  have hb : t.base = t.state.config.minCarrierPayload := hs.base
  refine ⟨hpos _ hceil, ?_, ?_, ?_⟩
  · rwa [← hb] at hmin
  · rwa [← hb] at hceil
  · exact (by decide : Pmtu.minimumProbeTimeout ≤ probeTimeout ∧ 0 < refreshInterval ∧
      0 < confirmationInterval)

/-- Admission only looks up and prunes retired epochs. -/
theorem intake_view {κ : Type} {view : Engine → κ} (h : ∀ (e : Engine) epoch,
      view { e with state := (e.state.isRemoteEpochRetired epoch).2 } = view e) (frame : Bytes) :
    Eff.Keeps view (intake P frame) := by
  refine .bind .get fun e => .bind (fun _ => rfl) fun r => ?_
  refine .bind ?_ fun retired => ?_
  · cases r.2 with
    | capabilitiesHello => exact fun e => h e _
    | _ => exact .pure _
  · split
    · exact .pure _
    · exact .bind .get fun _ => .pure _

theorem intake_keeps (frame : Bytes) : Eff.Keeps core (intake P frame) :=
  intake_view (fun e epoch => core_withState (e.state.isRemoteEpochRetired_gates epoch)) frame

private theorem lookupResetReplay_mem {key : ResetReplayKey}
    (h : e.lookupResetReplay key = some reply) :
    ∃ entry, some entry ∈ e.resetReplay ∧ entry.frame = reply := by
  obtain ⟨entry, hmem, he⟩ := exists_of_findSome?_eq_some h
  split at he
  · rename_i entry
    split_ifs at he
    exact ⟨entry, hmem, Option.some.inj he⟩
  · cases he

theorem decodeInbound_ok (h : e.decodeInbound P frame = .ok (m, body)) :
    ∃ payload, e.codec.parse frame = .ok payload ∧ P.unmarshal payload = some m ∧
      m.body = some body ∧ m.messageID ≠ 0 ∧ m.controlEpoch ≠ 0 := by
  unfold decodeInbound at h
  split at h
  · cases h
  split at h
  · cases h
  split at h
  · cases h
  rename_i payload hp _ message hm _ _ hb
  split_ifs at h with hid
  cases h
  exact ⟨payload, hp, hm, hb, not_or.mp hid⟩

theorem admission_replayed {message : Control} (h : t.admission message body = .replayed reply) :
    ∃ entry, some entry ∈ t.resetReplay ∧ entry.frame = reply := by
  unfold admission resetReplayFor at h
  split_ifs at h
  split at h
  · rename_i reply' hr
    cases h
    split at hr
    · split_ifs at hr
      exact lookupResetReplay_mem hr
    · cases hr
  · cases h

theorem admission_handled {message : Control} {body' : Body}
    (h : t.admission message body = .handled m body') : m = message ∧ body' = body := by
  unfold admission at h
  split_ifs at h
  split at h
  · cases h
  · cases h
    exact ⟨rfl, rfl⟩

theorem intake_cases {r : Admission} (h : e.intake P frame = (.ok r, t)) :
    ∃ message body, e.decodeInbound P frame = .ok (message, body) ∧
      (r = .ignored ∨ r = t.admission message body) := by
  obtain ⟨_, _, hg, h⟩ := Eff.bind_ok h
  cases hg
  obtain ⟨⟨message, body⟩, _, hd, h⟩ := Eff.bind_ok h
  obtain ⟨_, _, -, h⟩ := Eff.bind_ok h
  refine ⟨message, body, congrArg Prod.fst hd, ?_⟩
  split at h
  · cases h
    exact .inl rfl
  · cases h
    exact .inr rfl

/-- When a call begins a local exchange, with the core at that moment. -/
def Begins (P : Proto) (e : Engine) (c : Core) : Call → Prop
  | .start | .reportUnknownDataSession _ => e.started = false
  | .handleInbound frame => ∃ m body t, e.intake P frame = (.ok (.handled m body), t) ∧
      ((t.Renews m ∧ c.remoteEpoch = m.controlEpoch) ∨ t.Collides m ∨
        ∃ sync, t.Accepts m (.stateSync sync))
  | _ => False

/-- A call begins at most one exchange, and clears a terminal error only when it accepts the
first Hello of a remote epoch. -/
def guard (P : Proto) (e : Engine) (call : Call) : Core.Guard where
  begin c := e.Begins P c call ∧ c.exchanges = e.core.exchanges
  recover c := ∃ m h, e.Took P call m (.hello h) ∧
    (e.core.remoteEpoch = 0 ∨ e.core.Changes m.controlEpoch) ∧ c = e.core.accept m (.hello h)

theorem dispatch_handles {allow : Core.Guard} (hs : t.core.Sound) (hid : m.messageID ≠ 0)
    (hb : m.body = some body)
    (ha : ∀ c : Core, c.exchanges = t.core.exchanges →
      (t.Renews m ∧ c.remoteEpoch = m.controlEpoch) ∨ t.Collides m ∨
        (∃ sync, t.Accepts m (.stateSync sync)) → allow.begin c)
    (hr : ∀ h, t.Accepts m (.hello h) →
      t.state.remoteEpoch = 0 ∨ t.state.gates.Changes m.controlEpoch →
        allow.recover (t.core.accept m (.hello h))) (size : UInt32) :
    Handles P allow t m (dispatch P m size body) fun acts out u =>
      Emits acts out u ∧ ((resetReplayKeyFor m).isSome → ∀ f ∈ out, u.core.Replied P f) := by
  have hp : ∀ {x : EngineM (List Bytes)}, resetReplayKeyFor m = none →
      Handles P allow t m x Emits → Handles P allow t m x fun acts out u =>
        Emits acts out u ∧ ((resetReplayKeyFor m).isSome → ∀ f ∈ out, u.core.Replied P f) :=
    fun hn h => h.mono fun _ _ _ he => ⟨he, fun hk => by simp [hn] at hk⟩
  cases body with
  | capabilitiesHello h =>
    exact hp (by simp [resetReplayKeyFor, hb])
      (handleCapabilitiesHello_handles hid hs.peer (fun h c hc hr => ha c hc (.inl ⟨h, hr⟩)) hr)
  | capabilitiesAck ack =>
    exact hp (by simp [resetReplayKeyFor, hb]) (handleCapabilitiesAck_handles ack)
  | resetSequence session =>
    exact (handleReset_handles hid session hb).mono fun _ _ _ h => ⟨h.1, fun _ => h.2⟩
  | resetSequenceAck ack =>
    exact hp (by simp [resetReplayKeyFor, hb])
      (handleResetAck_handles ack fun h c hc => ha c hc (.inr (.inl h)))
  | peerMTU mtu => exact hp (by simp [resetReplayKeyFor, hb]) (handlePeerMTU_handles hid mtu)
  | peerMTUAck ack => exact hp (by simp [resetReplayKeyFor, hb]) (handlePeerMTUAck_handles ack)
  | ping sequence => exact hp (by simp [resetReplayKeyFor, hb]) (handlePing_handles hid sequence)
  | pong => exact hp (by simp [resetReplayKeyFor, hb]) handlePong_handles
  | mtuProbe => exact hp (by simp [resetReplayKeyFor, hb]) (handleMtuProbe_handles hid size)
  | mtuProbeAck size =>
    exact hp (by simp [resetReplayKeyFor, hb])
      (handleMtuProbeAck_handles size fun hw _ => search_possible hs hw)
  | stateSyncRequired sync =>
    exact hp (by simp [resetReplayKeyFor, hb])
      (handleStateSyncRequired_handles fun sync h c hc => ha c hc (.inr (.inr ⟨sync, h⟩)))

/-- A stored entry is an old one or holds the new reply. -/
theorem storeResetReplay_mem {key : ResetReplayKey} {entry : ResetReplayEntry}
    (h : some entry ∈ (storeResetReplay e key reply).resetReplay) :
    some entry ∈ e.resetReplay ∨ entry.frame = reply := by
  unfold storeResetReplay at h
  split_ifs at h
  · exact .inl h
  have hs : ∀ i, some entry ∈ e.resetReplay.set i (some ⟨key, reply⟩) →
      some entry ∈ e.resetReplay ∨ entry.frame = reply := fun i hi =>
    (mem_or_eq_of_mem_set hi).imp_right fun heq => by
      cases heq
      rfl
  split at h <;> exact hs _ h

theorem storeResetReplay_core (e : Engine) (key : ResetReplayKey) (reply : Bytes) :
    (storeResetReplay e key reply).core =
      e.core.next (.remember (storeResetReplay e key reply).resetReplay) := by
  unfold storeResetReplay
  split_ifs
  · rfl
  · split <;> rfl

theorem rememberReset_gates (out : List Bytes) :
    (t.rememberReset m out).core.toGates = t.core.toGates := by
  unfold rememberReset
  split
  · rw [storeResetReplay_core]
    rfl
  · rfl

private theorem rememberReset_moves {allow : Core.Guard} {out : List Bytes}
    (h : (resetReplayKeyFor m).isSome → ∀ f ∈ out, t.core.Replied P f) :
    ∃ acts, Chain (Core.Step P allow) t.core acts (t.rememberReset m out).core := by
  unfold rememberReset
  split
  · rename_i key reply rest hkey
    refine ⟨[.remember (t.storeResetReplay key reply).resetReplay],
      .single ⟨?_, storeResetReplay_core t key reply⟩⟩
    intro entry hmem
    refine (storeResetReplay_mem hmem).imp_right fun heq => ?_
    rw [heq]
    exact h (by simp [hkey]) _ mem_cons_self
  · exact ⟨[], .nil _⟩

/-- The core with which the elementary steps of a call start. -/
def Opens (P : Proto) (e : Engine) (call : Call) (c : Core) : Prop :=
  c = e.core ∨ ∃ m a, e.Took P call m a ∧ e.core.Admits m a ∧ c = e.core.accept m a

/-- The result of a call is at most one accepted message followed by elementary steps, and
every frame returned was emitted by one of them. -/
def Refines (P : Proto) (e : Engine) (i : Call)
    (r : Except EngineError (List Bytes) × Engine) : Prop :=
  ∃ c acts, e.Opens P i c ∧ Chain (Core.Step P (e.guard P i)) c acts r.2.core ∧
    ∀ out, r.1 = .ok out → Emits acts out r.2

theorem handled_refines (hs : e.core.Sound)
    (had : e.intake P frame = (.ok (.handled m body), t)) (hk : t.core = e.core)
    (hid : m.messageID ≠ 0) (hb : m.body = some body) (size : UInt32) :
    e.Refines P (.handleInbound frame) (handleMessage P m size body t) := by
  have ht : ∀ a, t.Accepts m a → e.Took P (.handleInbound frame) m a := fun a ha =>
    ⟨frame, rfl, body, t, had, ha⟩
  have hr : ∀ h, t.Accepts m (.hello h) →
      t.state.remoteEpoch = 0 ∨ t.state.gates.Changes m.controlEpoch →
      (e.guard P (.handleInbound frame)).recover (t.core.accept m (.hello h)) := by
    intro h hac hca
    have hg : t.state.gates = e.state.gates := congrArg Core.toGates hk
    refine ⟨m, h, ht _ hac, ?_, by rw [hk]⟩
    exact hca.imp (congrArg Gates.remoteEpoch hg).symm.trans fun h => by rwa [hg] at h
  obtain ⟨c, acts, hc, hch, hou⟩ := dispatch_handles (P := P) (hk ▸ hs) hid hb
    (fun c hc hca => (⟨⟨m, body, t, had, hca⟩, hc.trans (by rw [hk])⟩ :
      (e.guard P (.handleInbound frame)).begin c)) hr size
  have ho : e.Opens P (.handleInbound frame) c := by
    rw [hk] at hc
    refine hc.imp_right ?_
    rintro ⟨a, hac, rfl⟩
    exact ⟨m, a, ht a hac, hk ▸ hac.admits, rfl⟩
  rw [handleMessage, Eff.bind_apply]
  cases hd : dispatch P m size body t with
  | mk r u =>
    rw [hd] at hch hou
    cases r with
    | error => exact ⟨c, acts, ho, hch, fun out h => by cases h⟩
    | ok out =>
      obtain ⟨he, hre⟩ := hou out rfl
      obtain ⟨acts', hch'⟩ : ∃ acts', Chain (Core.Step P (e.guard P (.handleInbound frame)))
          u.core acts' (u.rememberReset m out).core := rememberReset_moves hre
      refine ⟨c, acts ++ acts', ho, hch.append hch', fun out' h => ?_⟩
      cases h
      intro f hf
      rw [emitted_append]
      exact mem_append_left _ (he f hf)

theorem handleInbound_refines (hs : e.core.Sound) (frame : Bytes) :
    e.Refines P (.handleInbound frame) (handleInbound P frame e) := by
  have hk : (e.intake P frame).2.core = e.core := intake_keeps frame e
  unfold handleInbound
  rw [Eff.bind_apply]
  cases ha : e.intake P frame with
  | mk r t =>
    rw [ha] at hk
    cases r with
    | error => exact ⟨e.core, [], .inl rfl, hk ▸ .nil _, fun out h => by cases h⟩
    | ok r =>
      obtain ⟨_, _, hd, hr⟩ := intake_cases ha
      cases r with
      | ignored =>
        refine ⟨e.core, [], .inl rfl, hk ▸ .nil _, fun out h => ?_⟩
        cases h
        exact .nil
      | replayed reply =>
        obtain ⟨entry, hmem, hfr⟩ := admission_replayed (hr.resolve_left Admission.noConfusion).symm
        have hst : Core.Step P (e.guard P (.handleInbound frame)) e.core (.replay reply) t.core :=
          ⟨⟨entry, congrArg Core.replay hk ▸ hmem, hfr⟩, hk⟩
        refine ⟨e.core, [.replay reply], .inl rfl, .single hst, fun out h => ?_⟩
        cases h
        simp [Emits, Act.frames]
      | handled =>
        obtain ⟨rfl, rfl⟩ := admission_handled (hr.resolve_left Admission.noConfusion).symm
        obtain ⟨-, -, -, hb, hid, -⟩ := decodeInbound_ok hd
        exact handled_refines hs ha hk hid hb _

theorem call_refines (hs : e.core.Sound) (i : Call) : e.Refines P i (call P i e) := by
  have hqt : ∀ {x : EngineM (List Bytes)}, call P i = x →
      Eff.Moves core (Core.Step P (e.guard P i)) x e Emits → e.Refines P i (call P i e) := by
    rintro _ rfl ⟨acts, hch, ho⟩
    exact ⟨e.core, acts, .inl rfl, hch, ho⟩
  cases i with
  | start => exact hqt rfl (start_moves fun h => ⟨h, rfl⟩)
  | tick now => exact hqt rfl (tick_moves hs.recovering now)
  | handleInbound frame => exact handleInbound_refines hs frame
  | reportUnknownDataSession session =>
    have ha : e.started = false → (e.guard P (.reportUnknownDataSession session)).begin e.core :=
      fun h => ⟨h, rfl⟩
    exact hqt rfl (reportUnknownDataSession_moves ha session)
  | reportProbeFailure now => exact hqt rfl (reportProbeFailure_moves now)
  | reportSendFailure now size => exact hqt rfl (reportSendFailure_moves now size)
  | reportBlackhole now => exact hqt rfl (reportBlackhole_moves now)
  | resetRetry => exact hqt rfl resetRetry_moves

theorem Opens.sound {i : Call} {c : Core} (hs : e.core.Sound) (h : e.Opens P i c) : c.Sound := by
  obtain rfl | ⟨_, _, -, ha, rfl⟩ := h
  · exact hs
  · exact hs.accept ha

theorem call_sound (hs : e.core.Sound) (i : Call) : (call P i e).2.core.Sound := by
  obtain ⟨_, _, ho, hch, -⟩ := call_refines (P := P) hs i
  exact hch.invariant (fun _ _ _ hst hc => hc.step hst) (ho.sound hs)

end WgFrag.Control.Engine
