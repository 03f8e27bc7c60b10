import WgFrag.Control.Pair
import WgFrag.Wire.Protobuf

/-! The history behind an open DATA gate: which messages an engine has accepted, and since
when. -/
namespace WgFrag.Control.Engine
open WgFrag.Lib WgFrag.Wire
variable {P : Proto} {e : Engine} {i : Call} {m : Control}

def SameRemote (e s : Engine) : Prop := s.core.remoteEpoch = e.core.remoteEpoch

def SameLocal (e s : Engine) : Prop := s.core.localEpoch = e.core.localEpoch

/-- Neither epoch has changed and the path gates have not been cleared. -/
structure SamePath (e s : Engine) : Prop where
  localEpoch : s.core.localEpoch = e.core.localEpoch
  remoteEpoch : s.core.remoteEpoch = e.core.remoteEpoch
  pathResets : s.core.pathResets = e.core.pathResets

theorem SamePath.trans {e s t : Engine} (h : SamePath e s) (h' : SamePath s t) : SamePath e t :=
  ⟨h'.localEpoch.trans h.localEpoch, h'.remoteEpoch.trans h.remoteEpoch,
    h'.pathResets.trans h.pathResets⟩

theorem SamePath.symm {e s : Engine} (h : SamePath e s) : SamePath s e :=
  ⟨h.localEpoch.symm, h.remoteEpoch.symm, h.pathResets.symm⟩

/-- A response that answers the outstanding request of the given kind is accepted. -/
def Confirmed (P : Proto) (e : Engine) (i : Call) (kind : RequestKind) (o : OutstandingRequest)
    (m : Control) (a : Accepted) : Prop :=
  e.Took P i m a ∧ e.Answers m kind o

/-- A valid Hello under which the features `x` are selected is accepted. -/
def TookHello (P : Proto) (config : StateConfig) (x : UInt64) (e : Engine) (i : Call) : Prop :=
  ∃ m h, e.Took P i m (.hello h) ∧ (validateCapabilities config h).result = .accepted ∧
    config.supportedFeatureBits &&& h.supportedFeatureBits = x

/-- The inner MTU `x` of the peer is in range and accepted. -/
def TookPeerMTU (P : Proto) (x : UInt32) (e : Engine) (i : Call) : Prop :=
  ∃ m, e.Took P i m (.peerMTU x) ∧ Limits.ValidInnerMTU x.toNat

def TookCapabilitiesAck (P : Proto) (x : UInt64) (e : Engine) (i : Call) : Prop :=
  ∃ o m ack, e.Confirmed P i .capabilities o m (.capabilitiesAck ack) ∧ ack.result = .accepted ∧
    ack.selectedFeatureBits = x

def TookResetAck (P : Proto) (x : UInt16) (e : Engine) (i : Call) : Prop :=
  ∃ o m ack, e.Confirmed P i .reset o m (.resetSequenceAck ack) ∧ ack.result = .accepted ∧
    ack.dataSessionID = x.toUInt32

def TookPeerMTUAck (P : Proto) (x : UInt32) (e : Engine) (i : Call) : Prop :=
  ∃ o m ack, e.Confirmed P i .peerMTU o m (.peerMTUAck ack) ∧ ack.result = .accepted ∧
    ack.innerMTU = x

/-- A Pong with the sequence of the outstanding Ping is accepted. -/
def TookPong (P : Proto) (e : Engine) (i : Call) : Prop :=
  ∃ o m, e.Confirmed P i .ping o m (.pong o.ping)

/-- The acknowledgement of a BASE probe of `x` bytes is accepted. -/
def TookBaseAck (P : Proto) (x : UInt32) (e : Engine) (i : Call) : Prop :=
  ∃ o m p, e.Confirmed P i .baseProbe o m (.baseProbeAck p) ∧ m.body = some (.mtuProbeAck x)

theorem Took.answers {kind : RequestKind} {a : Accepted} {Q : OutstandingRequest → Prop}
    (h : e.Took P i m a) (ha : ∀ t : Engine, t.Accepts m a → ∃ o, t.Answers m kind o ∧ Q o) :
    ∃ o, e.Confirmed P i kind o m a ∧ Q o := by
  have ht := h
  obtain ⟨frame, rfl, _, t, had, hac⟩ := h
  obtain ⟨o, han, hQ⟩ := ha t hac
  have hv : Eff.Keeps (fun e : Engine => (e.outstanding, e.localEpoch)) (intake P frame) :=
    intake_view (fun _ _ => rfl) frame
  have hk := hv e
  rw [had] at hk
  obtain ⟨ho, hep⟩ := Prod.mk.inj hk
  exact ⟨o, ⟨ht, ho.symm.trans han.outstanding, han.kind, han.messageID,
    han.epoch.trans hep⟩, hQ⟩

theorem Accepts.pong_sequence {t : Engine} {sequence : UInt32} (h : t.Accepts m (.pong sequence)) :
    ∃ o, t.Answers m .ping o ∧ sequence = o.ping := by
  obtain ⟨hb, o, han, ha⟩ := h
  refine ⟨o, han, ?_⟩
  obtain ⟨hr, -⟩ | ⟨hb', -⟩ := t.state.observePong_cases m o.messageID o.ping
  · exact absurd ha hr
  · rw [hb] at hb'
    cases hb'
    rfl

private theorem validatePeerMTUValue_accepted {x : UInt32}
    (h : validatePeerMTUValue x = .accepted) :
    Limits.ValidInnerMTU x.toNat := by
  unfold validatePeerMTUValue at h
  split_ifs at h with hx
  rw [not_or] at hx
  exact ⟨Nat.le_of_not_lt hx.1, Nat.le_of_not_lt hx.2⟩

/-! ### What opens each gate -/

section
variable {e' : Engine} (he : e' = (call P i e).2) (hs : e.core.Sound)
include he hs

theorem hello_opens {config : StateConfig} (hc : e.core.config = config)
    (h : e'.core.remoteEpoch ≠ 0) :
    TookHello P config e'.core.selected e i ∨
      (e.core.remoteEpoch ≠ 0 ∧ SameRemote e e' ∧ e'.core.selected = e.core.selected) := by
  subst hc
  obtain ⟨_, ho, hf, -⟩ := call_follows (P := P) hs i
  rw [← he] at hf
  rw [SameRemote, hf.selected, hf.remoteEpoch]
  rw [hf.remoteEpoch] at h
  obtain rfl | ⟨m, a, ht, ha, rfl⟩ := ho
  · exact .inr ⟨h, rfl, rfl⟩
  cases a with
  | hello hello =>
    refine .inl ⟨m, hello, ht, ha.2.2, ?_⟩
    simp only [Core.accept, Gates.hello]
    split <;> rfl
  | _ => exact .inr ⟨h, rfl, rfl⟩

theorem peerMTU_opens (h : e'.core.flags.remotePeerMTU = true) :
    TookPeerMTU P e'.core.peerMTU e i ∨ (e.core.flags.remotePeerMTU = true ∧ SameRemote e e' ∧
        e'.core.peerMTU = e.core.peerMTU) := by
  obtain ⟨_, hop, hf, -⟩ := call_follows (P := P) hs i
  rw [← he] at hf
  rw [hf.remotePeerMTU] at h
  rw [SameRemote, hf.remoteEpoch, hf.peerMTU]
  obtain rfl | ⟨m, a, ht, ha, rfl⟩ := hop
  · exact .inr ⟨h, rfl, rfl⟩
  cases a with
  | hello =>
    obtain ⟨ho, heq, hch⟩ := Core.hello_open (F := Flags.remotePeerMTU) rfl (fun _ _ => rfl) h
    exact .inr ⟨ho, hs.same_epoch (hs.mtu ho).1 hch, (congrArg Gates.peerMTU heq).trans rfl⟩
  | peerMTU => exact .inl ⟨m, ht, validatePeerMTUValue_accepted ha.2.2⟩
  | _ => exact .inr ⟨h, rfl, rfl⟩

theorem resetAck_opens (h : e'.core.flags.localResetAck = true) :
    TookResetAck P e'.core.localSession e i ∨ (e.core.flags.localResetAck = true ∧ SameLocal e e' ∧
        e'.core.localSession = e.core.localSession) := by
  obtain ⟨_, hop, hf, -⟩ := call_follows (P := P) hs i
  rw [← he] at hf
  obtain ⟨h, hep, hse⟩ := hf.resetAck h
  rw [SameLocal, hep, hse]
  obtain rfl | ⟨m, a, ht, ha, rfl⟩ := hop
  · exact .inr ⟨h, rfl, rfl⟩
  cases a with
  | hello =>
    obtain ⟨ho, heq, -⟩ := Core.hello_open (F := Flags.localResetAck) rfl (fun _ _ => rfl) h
    rw [heq]
    exact .inr ⟨ho, rfl, rfl⟩
  | stateSync => exact of_closed h
  | resetSequenceAck ack =>
    obtain ⟨o, hconf, -⟩ := ht.answers fun t ⟨_, o, han, _⟩ => ⟨o, han, trivial⟩
    exact .inl ⟨o, m, ack, hconf, ha.2.2.2⟩
  | _ => exact .inr ⟨h, rfl, rfl⟩

theorem peerMTUAck_opens {config : StateConfig} (hc : e.core.config = config)
    (h : e'.core.flags.localPeerMTUAck = true) :
    TookPeerMTUAck P config.localPeerMTU e i ∨
      (e.core.flags.localPeerMTUAck = true ∧ SameLocal e e') := by
  subst hc
  obtain ⟨_, hop, hf, -⟩ := call_follows (P := P) hs i
  rw [← he] at hf
  obtain ⟨h, hep⟩ := hf.peerMTUAck h
  rw [SameLocal, hep]
  obtain rfl | ⟨m, a, ht, ha, rfl⟩ := hop
  · exact .inr ⟨h, rfl⟩
  cases a with
  | hello =>
    obtain ⟨ho, heq, -⟩ := Core.hello_open (F := Flags.localPeerMTUAck) rfl (fun _ _ => rfl) h
    rw [heq]
    exact .inr ⟨ho, rfl⟩
  | stateSync => exact of_closed h
  | peerMTUAck ack =>
    obtain ⟨o, hconf, -⟩ := ht.answers fun t ⟨_, o, han, _⟩ => ⟨o, han, trivial⟩
    exact .inl ⟨o, m, ack, hconf, ha.2.2.2⟩
  | _ => exact .inr ⟨h, rfl⟩

theorem pong_opens (h : e'.core.flags.pingPong = true) :
    TookPong P e i ∨ (e.core.flags.pingPong = true ∧ SamePath e e') := by
  obtain ⟨_, hop, hf, -⟩ := call_follows (P := P) hs i
  rw [← he] at hf
  obtain ⟨h, hep, hp⟩ := hf.pong h
  obtain rfl | ⟨m, a, ht, _, rfl⟩ := hop
  · exact .inr ⟨h, hep, hf.remoteEpoch, hp⟩
  cases a with
  | hello =>
    obtain ⟨ho, heq, hch⟩ := Core.hello_open (F := Flags.pingPong) rfl (fun _ _ => rfl) h
    have hr := hs.same_epoch (hs.reached (.inl ho)) hch
    rw [heq] at hep hp
    exact .inr ⟨ho, hep, hf.remoteEpoch.trans hr, hp⟩
  | stateSync => exact of_closed h
  | pong =>
    obtain ⟨o, hconf, rfl⟩ := ht.answers fun _ => Accepts.pong_sequence
    exact .inl ⟨o, m, hconf⟩
  | _ => exact .inr ⟨h, hep, hf.remoteEpoch, hp⟩

/-- The BASE gate opens after the Pong: a Pong is not awaited while it is open. -/
theorem baseAck_opens (h : e'.core.flags.baseProbe = true) (hp : e'.core.flags.pingPong = true) :
    (e.core.flags.pingPong = true ∧ SamePath e e') ∧
      (TookBaseAck P e.core.config.minCarrierPayload e i ∨ e.core.flags.baseProbe = true) := by
  obtain ⟨_, hop, hf, -⟩ := call_follows (P := P) hs i
  rw [← he] at hf
  obtain ⟨h, hep, hpa⟩ := hf.baseAck h
  obtain ⟨hp, -, -⟩ := hf.pong hp
  obtain rfl | ⟨m, a, ht, ha, rfl⟩ := hop
  · exact ⟨⟨hp, hep, hf.remoteEpoch, hpa⟩, .inr h⟩
  cases a with
  | hello =>
    obtain ⟨ho, heq, hch⟩ := Core.hello_open (F := Flags.baseProbe) rfl (fun _ _ => rfl) h
    obtain ⟨hpg, -⟩ := Core.hello_open (F := Flags.pingPong) rfl (fun _ _ => rfl) hp
    have hr := hs.same_epoch (hs.reached (.inl hpg)) hch
    rw [heq] at hep hpa
    exact ⟨⟨hpg, hep, hf.remoteEpoch.trans hr, hpa⟩, .inr ho⟩
  | stateSync => exact of_closed h
  | pong => exact absurd (h.symm.trans (hs.pinging ha.2.1).2) nofun
  | baseProbeAck p =>
    obtain ⟨o, hconf, -⟩ := ht.answers fun t ⟨_, o, han, _⟩ => ⟨o, han, trivial⟩
    exact ⟨⟨hp, hep, hf.remoteEpoch, hpa⟩, .inl ⟨o, m, p, hconf, ha.1⟩⟩
  | _ => exact ⟨⟨hp, hep, hf.remoteEpoch, hpa⟩, .inr h⟩

/-- An acknowledgement is kept with the features it selects. One that was refused is kept
only together with a terminal error, which a Hello of another epoch clears. -/
theorem capabilitiesAck_opens (h : e'.core.pendingAck = true)
    (ht : ¬ (e'.core.terminal = true ∧ e'.core.remoteEpoch ≠ 0)) :
    TookCapabilitiesAck P e'.core.pendingFeatures e i ∨
      ((e.core.pendingAck = true ∧ ¬ (e.core.terminal = true ∧ e.core.remoteEpoch ≠ 0)) ∧
        SameLocal e e' ∧ e'.core.pendingFeatures = e.core.pendingFeatures) := by
  obtain ⟨b, ho, hf, hterm⟩ := call_follows (P := P) hs i
  rw [← he] at hf hterm
  obtain ⟨h, hfe, hep⟩ := (hf.pendingAck h).resolve_right ht
  rw [SameLocal, hfe, hep]
  -- the error of an unaccepted acknowledgement would still be there
  have hcl : b.terminal = e.core.terminal → b.remoteEpoch = e.core.remoteEpoch →
      ¬ (e.core.terminal = true ∧ e.core.remoteEpoch ≠ 0) := by
    rintro htb hrb ⟨h1, h2⟩
    refine ht ⟨hterm ?_ (htb.trans h1), hf.remoteEpoch.trans_ne (hrb.trans_ne h2)⟩
    rintro ⟨m, hello, htk, hc, rfl⟩
    have hne : m.controlEpoch = e.core.remoteEpoch := hrb
    exact (hc.resolve_left h2).2 hne.symm
  obtain rfl | ⟨m, a, htk, ha, rfl⟩ := ho
  · exact .inr ⟨⟨h, hcl rfl rfl⟩, rfl, rfl⟩
  cases a with
  | hello hello =>
    by_cases hch : e.core.Changes m.controlEpoch
    · rw [Core.accept_hello_new hello hch] at h
      exact of_closed h
    have hn : ¬ (e.core.terminal = true ∧ e.core.remoteEpoch ≠ 0) := fun hb =>
      hcl rfl (hs.same_epoch (hs.remote.mpr hb.2) hch) hb
    rw [Core.accept_hello_same hello hch] at h ⊢
    exact .inr ⟨⟨h, hn⟩, rfl, rfl⟩
  | stateSync => exact of_closed h
  | capabilitiesAck ack =>
    obtain ⟨o, hconf, -⟩ := htk.answers fun t ⟨_, o, han, _⟩ => ⟨o, han, trivial⟩
    exact .inl ⟨o, m, ack, hconf, ha.2.2.2, rfl⟩
  | _ => exact .inr ⟨⟨h, hcl rfl rfl⟩, rfl, rfl⟩

end

/-! ### Runs -/

section
variable {config : EngineConfig} {e₀ : Engine} (hnew : Engine.new config = .ok e₀)
variable {calls : List Call}
include hnew

theorem new_flag {F : Flags → Bool} (hF : F {} = false) : ¬ F e₀.core.flags = true := by
  have hf : e₀.core.flags = {} := congrArg (fun c => c.flags) (new_core hnew).2
  rw [hf, hF]
  exact Bool.false_ne_true

/-- Of a gate that opens only at `E`, closes when `g` changes and carries a datum `f`, the
datum is that of an event since `g` last changed. -/
theorem gate_since {α β : Type} {G : Engine → Prop} {f : Engine → α} {g : Engine → β}
    {E : α → Engine → Call → Prop} (hi : ¬ G e₀)
    (hop : ∀ e i, e.core.Sound → e.core.config = config.state → G (call P i e).2 →
      E (f (call P i e).2) e i ∨ (G e ∧ g (call P i e).2 = g e ∧ f (call P i e).2 = f e))
    (h : G ((machine P e₀).after calls)) :
    (machine P e₀).Since (fun s => g s = g ((machine P e₀).after calls))
      (fun older => E (f ((machine P e₀).after calls)) ((machine P e₀).after older)) calls := by
  generalize hx : f ((machine P e₀).after calls) = x
  refine Machine.since_of_gate (G := fun s => G s ∧ f s = x) (K := fun e s => g s = g e)
    (fun _ => rfl) (fun h => hi h.1) ?_ ⟨h, hx⟩
  rintro older i ⟨hG, rfl⟩
  obtain ⟨hs, hc⟩ := run_sound (P := P) hnew older
  refine (hop _ i hs hc hG).imp_right ?_
  exact fun ⟨ho, hg, hf⟩ => ⟨⟨ho, hf.symm⟩, fun _ ht => ht.trans hg.symm⟩

private theorem pong_since (h : ((machine P e₀).after calls).core.flags.pingPong = true) :
    (machine P e₀).Since (SamePath ((machine P e₀).after calls))
      (fun older => TookPong P ((machine P e₀).after older)) calls := by
  refine Machine.since_of_gate (G := fun s : Engine => s.core.flags.pingPong = true)
    (fun _ => ⟨rfl, rfl, rfl⟩) (new_flag hnew rfl) ?_ h
  intro older i hG
  refine (pong_opens (P := P) (i := i) rfl (run_sound hnew older).1 hG).imp_right ?_
  exact fun ⟨ho, her⟩ => ⟨ho, fun _ ht => her.symm.trans ht⟩

/-- The Pong comes first, the acknowledgement of the BASE probe after it. -/
theorem baseAck_since (h : ((machine P e₀).after calls).core.flags.baseProbe = true)
    (hp : ((machine P e₀).after calls).core.flags.pingPong = true) :
    (machine P e₀).Since (SamePath ((machine P e₀).after calls)) (fun older i =>
        TookBaseAck P config.state.minCarrierPayload ((machine P e₀).after older) i ∧
        (machine P e₀).Since (SamePath ((machine P e₀).after calls))
          (fun older => TookPong P ((machine P e₀).after older)) older) calls := by
  have hsi : (machine P e₀).Since (SamePath ((machine P e₀).after calls))
      (fun older i =>
        TookBaseAck P config.state.minCarrierPayload ((machine P e₀).after older) i ∧
        ((machine P e₀).after older).core.flags.pingPong = true ∧
        SamePath ((machine P e₀).after older) ((machine P e₀).after (i :: older))) calls := by
    refine Machine.since_of_gate
      (G := fun s : Engine => s.core.flags.baseProbe = true ∧ s.core.flags.pingPong = true)
      (fun _ => ⟨rfl, rfl, rfl⟩) (fun h => new_flag hnew rfl h.1) ?_ ⟨h, hp⟩
    rintro older i ⟨hG, hP⟩
    obtain ⟨hs, hc⟩ := run_sound (P := P) hnew older
    obtain ⟨⟨hpg, her⟩, h | h⟩ := baseAck_opens (P := P) (i := i) rfl hs hG hP
    · exact .inl ⟨hc ▸ h, hpg, her⟩
    · exact .inr ⟨⟨h, hpg⟩, fun _ ht => her.symm.trans ht⟩
  refine hsi.imp fun older i her ⟨ha, hpg, hpa⟩ => ⟨ha, ?_⟩
  exact (pong_since hnew hpg).era fun s hs => her.trans (hpa.symm.trans hs)

/-- Whenever DATA may be sent: a valid Hello and a PeerMTU in range were accepted under the
current remote epoch; an acknowledgement of the same features, of the current session and of
the local MTU since the current local epoch was chosen; and since the path gates were last
cleared or an epoch changed, a Pong and after it the acknowledgement of a probe of BASE
bytes. Each response answered the request that was outstanding. In the BASE or terminal
error state DATA is not sent, and the confirmed payload is at least BASE. -/
theorem dataSendAllowed_history (calls : List Call) :
    let M := machine P e₀
    let e := M.after calls
    (e.baseError = true ∨ e.terminalError = true → e.dataSendAllowed = false) ∧
    (e.dataSendAllowed = true → M.Since (SameRemote e)
        (fun older => TookHello P config.state e.state.remoteSelectedFeatures (M.after older))
        calls ∧
      M.Since (SameRemote e)
        (fun older => TookPeerMTU P e.state.remotePeerMTU (M.after older)) calls ∧
      M.Since (SameLocal e)
        (fun older => TookCapabilitiesAck P e.state.remoteSelectedFeatures (M.after older))
        calls ∧
      M.Since (SameLocal e)
        (fun older => TookResetAck P e.state.localSessionID (M.after older)) calls ∧
      M.Since (SameLocal e)
        (fun older => TookPeerMTUAck P config.state.localPeerMTU (M.after older)) calls ∧
      M.Since (SamePath e)
        (fun older i => TookBaseAck P config.state.minCarrierPayload (M.after older) i ∧
          M.Since (SamePath e) (fun older => TookPong P (M.after older)) older) calls ∧
      config.state.minCarrierPayload ≤ e.confirmedCarrierPayload) := by
  intro M e
  obtain ⟨hs, hc⟩ := run_sound (P := P) hnew calls
  refine ⟨fun herr => ?_, fun halo => ?_⟩
  · rcases herr with hbase | hterm
    · have hcl : e.state.flags.baseProbe = false := hs.recovering hbase
      simp [dataSendAllowed, State.dataSendAllowed, Flags.all, hcl]
    · simp [dataSendAllowed, hterm]
  · simp only [dataSendAllowed, State.dataSendAllowed, Flags.all, Bool.and_eq_true,
      Bool.not_eq_true'] at halo
    obtain ⟨hterm, ⟨⟨⟨⟨⟨hloc, hrem⟩, hres⟩, hmtA⟩, hmtu⟩, hping⟩, hbase⟩ := halo
    obtain ⟨-, hpen, hfea⟩ := hs.agreed hloc
    obtain ⟨p, hpmtu⟩ := Option.isSome_iff_exists.mp (hs.searched hbase)
    obtain ⟨hok, hpba⟩ := hs.search p hpmtu
    have hack : e.core.pendingAck = true ∧ ¬ (e.core.terminal = true ∧ e.core.remoteEpoch ≠ 0) :=
      ⟨hpen, fun hbad => absurd (hterm.symm.trans hbad.1) nofun⟩
    have hcl : e₀.core.pendingAck = false := congrArg (fun c => c.pendingAck) (new_core hnew).2
    have hsel := gate_since (E := TookCapabilitiesAck P) (f := fun s => s.core.pendingFeatures)
      (g := fun s => s.core.localEpoch) hnew (fun h => absurd (h.1.symm.trans hcl) nofun)
      (fun _ _ hs _ h => capabilitiesAck_opens rfl hs h.1 h.2) hack
    rw [hfea] at hsel
    refine ⟨gate_since (E := TookHello P config.state) (G := fun s => s.core.remoteEpoch ≠ 0)
        (f := fun s => s.core.selected) (g := fun s => s.core.remoteEpoch) hnew
        (fun h => h (congrArg (fun c => c.remoteEpoch) (new_core hnew).2))
        (fun _ _ hs hc => hello_opens rfl hs hc) (hs.remote.mp hrem),
      gate_since (E := TookPeerMTU P) (G := fun s => s.core.flags.remotePeerMTU = true)
        (f := fun s => s.core.peerMTU)
        (g := fun s => s.core.remoteEpoch) hnew (new_flag hnew rfl)
        (fun _ _ hs _ => peerMTU_opens rfl hs) hmtu, hsel,
      gate_since (E := TookResetAck P) (G := fun s => s.core.flags.localResetAck = true)
        (f := fun s => s.core.localSession)
        (g := fun s => s.core.localEpoch) hnew (new_flag hnew rfl)
        (fun _ _ hs _ => resetAck_opens rfl hs) hres,
      gate_since (E := TookPeerMTUAck P) (G := fun s => s.core.flags.localPeerMTUAck = true)
        (f := fun _ => config.state.localPeerMTU)
        (g := fun s => s.core.localEpoch) hnew (new_flag hnew rfl)
        (fun _ _ hs hc h => (peerMTUAck_opens rfl hs hc h).imp_right fun h => ⟨h.1, h.2, rfl⟩)
        hmtA,
      baseAck_since hnew hbase hping, ?_⟩
    have hpmtu : e.pmtu = some p := hpmtu
    have hmin : p.config.base = config.state.minCarrierPayload := by rw [hpba, hs.base, hc]
    rw [confirmedCarrierPayload, hpmtu, ← hmin]
    exact hok.confirmed

end

/-- The calls on the left engine of the sample pair during the handshake. -/
@[irreducible] def sampleCalls : List Call := Pair.calls Protobuf.proto Pair.sample .left Pair.handshake

/-- At the end of the handshake DATA may be sent. -/
theorem dataSendAllowed_history_sample :
    ((machine Protobuf.proto (Pair.sampleEngine 1)).after sampleCalls).dataSendAllowed = true ∧
    (machine Protobuf.proto (Pair.sampleEngine 1)).Since
      (SameRemote ((machine Protobuf.proto (Pair.sampleEngine 1)).after sampleCalls))
      (fun older => TookPeerMTU Protobuf.proto
        ((machine Protobuf.proto (Pair.sampleEngine 1)).after sampleCalls).state.remotePeerMTU
        ((machine Protobuf.proto (Pair.sampleEngine 1)).after older)) sampleCalls := by
  have halo : ((machine Protobuf.proto (Pair.sampleEngine 1)).after
      sampleCalls).dataSendAllowed = true := by decide +kernel
  obtain ⟨-, h⟩ :=
    dataSendAllowed_history (P := Protobuf.proto) (Pair.sampleEngine_new 1) sampleCalls
  exact ⟨halo, (h halo).2.1⟩

end WgFrag.Control.Engine
