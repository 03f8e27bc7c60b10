import WgFrag.Control.Refine

/-! Every inbound frame is at most one accepted message, followed by elementary steps. -/
namespace WgFrag.Control.Engine
open WgFrag.Lib WgFrag.Wire List
variable {P : Proto} {allow : Core.Guard} {t : Engine} {m : Control}
variable {o : OutstandingRequest} {body : Body} {message : Control}

/-- From `t`, `x` accepts at most the message `m` and then moves along elementary steps. -/
def Handles (P : Proto) (allow : Core.Guard) (t : Engine) (m : Control)
    (x : EngineM (List Bytes)) (post : List Act → List Bytes → Engine → Prop) : Prop :=
  ∃ c acts, (c = t.core ∨ ∃ a, t.Accepts m a ∧ c = t.core.accept m a) ∧
    Chain (Core.Step P allow) c acts (x t).2.core ∧
    ∀ out, (x t).1 = .ok out → post acts out (x t).2

namespace Handles
variable {x y : EngineM (List Bytes)} {post post' : List Act → List Bytes → Engine → Prop}

theorem mono (h : Handles P allow t m x post)
    (hp : ∀ acts out u, post acts out u → post' acts out u) :
    Handles P allow t m x post' := by
  obtain ⟨c, acts, hc, hch, hou⟩ := h
  exact ⟨c, acts, hc, hch, fun out ho => hp _ _ _ (hou out ho)⟩

theorem of_moves (h : Walks P allow x t post) :
    Handles P allow t m x post := by
  obtain ⟨acts, hch, ho⟩ := h
  exact ⟨t.core, acts, .inl rfl, hch, ho⟩

theorem of_accept {u : Engine} {a : Accepted} (ha : t.Accepts m a) (hx : x t = y u)
    (hc : u.core = t.core.accept m a) (h : Walks P allow y u post) :
    Handles P allow t m x post := by
  obtain ⟨acts, hch, _⟩ := h
  rw [hc] at hch
  refine ⟨_, acts, .inr ⟨a, ha, rfl⟩, ?_, ?_⟩ <;> rw [hx] <;> assumption

end Handles

theorem onState_bind {α β : Type} (g : State → α × State) (f : α → EngineM β) (e : Engine) :
    (onState g >>= f) e = f (g e.state).1 { e with state := (g e.state).2 } := rfl

theorem core_withState {s : State} (h : s.gates = t.state.gates) :
    ({ t with state := s } : Engine).core = t.core := by
  simp [core, h]

/-- Refuse a response: the terminal error comes with what the state has cleared. -/
theorem terminal_moves {s : State} {d : Gates.Drop} (hd : d.Enabled t.core.toGates)
    (h : s.gates = t.state.gates.drop d) (reason : Reason) {x : EngineM (List Bytes)}
    (hx : x t = ((do enterTerminalError reason; pure []) : EngineM (List Bytes))
      { t with state := s }) :
    Walks P allow x t Emits := by
  refine .one (a := .terminal d) ⟨hd, ?_⟩ fun out ho => ?_
  · have hg : t.core.toGates.drop d = s.gates := h.symm
    rw [hx, Core.next, hg]
    rfl
  · rw [hx] at ho
    cases ho
    exact .nil

theorem requireResponse_ok {kind : RequestKind}
    (h : t.requireResponse m kind = .ok o) : t.Answers m kind o := by
  unfold requireResponse at h
  split at h
  · cases h
  split at h
  · cases h
  rename_i o' ho
  split at h
  · cases h
  rename_i hne
  cases h
  simp only [not_or, not_not] at hne
  exact ⟨ho, hne.1, hne.2.1, hne.2.2⟩

theorem awaits_of_answers {kind : RequestKind} (h : t.Answers m kind o) : t.core.Awaits kind :=
  ⟨o.frame, by simp [core, h.outstanding, OutstandingRequest.slot, h.kind]⟩

theorem Handles.of_check {α : Type} {r : Except EngineError α} {f : α → EngineM (List Bytes)}
    {post : List Act → List Bytes → Engine → Prop}
    (h : ∀ a, r = .ok a → Handles P allow t m (f a) post) :
    Handles P allow t m (liftExcept r >>= f) post := by
  cases r with
  | error => exact .of_moves (.stay rfl fun out ho => by cases ho)
  | ok a => exact h a rfl

theorem release_then_progress :
    Walks P allow (clearOutstanding >>= fun _ => progress P) t Emits :=
  then_emits release_moves fun _ _ _ _ => moves_of_progress progress_moves

theorem handleCapabilitiesAck_handles (ack : CapabilitiesAck) :
    Handles P allow t m (handleCapabilitiesAck P m ack) Emits := by
  refine Handles.of_check (t := t) (r := t.requireResponse m .capabilities) fun o ho => ?_
  have ha := requireResponse_ok ho
  split
  · exact .of_moves (terminal_moves (s := t.state) (d := .none) trivial rfl _ rfl)
  obtain ⟨hr, _, hd, hg⟩ | ⟨ack', hb', _, _, hre, -, hg⟩ :=
    t.state.observeCapabilitiesAck_cases m o.messageID
  · refine .of_moves (terminal_moves hd hg (capabilitiesAckReason
      (t.state.observeCapabilitiesAck m o.messageID).1) ?_)
    rw [onState_bind, if_pos hr]
  · refine .of_accept (a := .capabilitiesAck ack') ⟨hb', o, ha, hre⟩
      (u := { t with state := (t.state.observeCapabilitiesAck m o.messageID).2 })
      (y := clearOutstanding >>= fun _ => progress P) ?_ ?_ ?_
    · rw [onState_bind, if_neg (not_not.mpr hre)]
    · simp [core, Core.accept, hg]
    · exact release_then_progress

theorem handlePeerMTUAck_handles (ack : PeerMTUAck) :
    Handles P allow t m (handlePeerMTUAck P m ack) Emits := by
  refine Handles.of_check (t := t) (r := t.requireResponse m .peerMTU) fun o ho => ?_
  have ha := requireResponse_ok ho
  split
  · exact .of_moves (terminal_moves (s := t.state) (d := .none) trivial rfl _ rfl)
  obtain ⟨hr, hg⟩ | ⟨ack', hb', _, _, hre, -, hg⟩ :=
    t.state.observePeerMTUAck_cases m o.messageID
  · obtain ⟨d, hd, hg⟩ : ∃ d, Gates.Drop.Enabled t.core.toGates d ∧
        (t.state.observePeerMTUAck m o.messageID).2.gates = t.state.gates.drop d :=
      hg.elim (fun h => ⟨.none, trivial, h⟩) fun h => ⟨.peerMTU, trivial, h⟩
    refine .of_moves (terminal_moves hd hg (peerMTUReason
      (t.state.observePeerMTUAck m o.messageID).1) ?_)
    rw [onState_bind, if_pos hr]
  · refine .of_accept (a := .peerMTUAck ack') ⟨hb', o, ha, hre⟩
      (u := { t with state := (t.state.observePeerMTUAck m o.messageID).2 })
      (y := clearOutstanding >>= fun _ => progress P) ?_ ?_ ?_
    · rw [onState_bind, if_neg (not_not.mpr hre)]
    · simp [core, Core.accept, hg]
    · exact release_then_progress

/-- The peer refuses the session of our outstanding ResetSequence. -/
def Collides (e : Engine) (m : Control) : Prop :=
  ∃ o, e.requireResponse m .reset = .ok o ∧
    (e.state.observeResetSequenceAck m o.messageID).1 = .sessionCollision

theorem handleResetAck_handles (ack : ResetSequenceAck)
    (ha : t.Collides m → ∀ c : Core, c.exchanges = t.core.exchanges → allow.begin c) :
    Handles P allow t m (handleResetAck P m ack) Emits := by
  refine Handles.of_check (t := t) (r := t.requireResponse m .reset) fun o ho => ?_
  have han := requireResponse_ok ho
  split
  · exact .of_moves (terminal_moves (s := t.state) (d := .none) trivial rfl _ rfl)
  obtain ⟨hr, hg⟩ | ⟨hr, hg⟩ | ⟨ack', hb', _, _, hre, -, hg⟩ :=
    t.state.observeResetSequenceAck_cases m o.messageID
  · refine .of_moves (terminal_moves (d := .none) trivial hg (resetSequenceReason
      (t.state.observeResetSequenceAck m o.messageID).1) ?_)
    rw [onState_bind, if_neg (by simp [hr]), if_pos (by simp [hr])]
  · by_cases hcoll : (t.state.observeResetSequenceAck m o.messageID).1 = .sessionCollision
    · have hal := ha ⟨o, ho, hcoll⟩
      have hm : ∀ u : Engine, u.core.exchanges = t.core.exchanges →
          Walks P allow
            (clearOutstanding >>= fun _ => restartAfterResetCollision) u Emits := fun u hu =>
        then_emits release_moves fun _ _ v hv =>
          restartAfterResetCollision_moves (hal _ (hv ▸ hu)) (by rw [hv]; rfl)
      obtain ⟨acts, hch, hou⟩ := hm
        { t with state := (t.state.observeResetSequenceAck m o.messageID).2 }
        ((congrArg Gates.exchanges hg).trans rfl)
      refine ⟨t.core, .dropReset :: acts, .inl rfl, .cons ⟨trivial, rfl⟩ ?_, ?_⟩
      · rw [onState_bind, if_pos hcoll]
        have hc : ({ t with state := (t.state.observeResetSequenceAck m o.messageID).2 } :
            Engine).core = t.core.next .dropReset := by simp [core, Core.next, hg]
        rw [hc] at hch
        exact hch
      · rw [onState_bind, if_pos hcoll]
        exact fun out h => hou out h
    · refine .of_moves (terminal_moves (d := .reset) trivial hg (resetSequenceReason
        (t.state.observeResetSequenceAck m o.messageID).1) ?_)
      rw [onState_bind, if_neg hcoll, if_pos hr]
  · refine .of_accept (a := .resetSequenceAck ack') ⟨hb', o, han, hre⟩
      (u := { t with state := (t.state.observeResetSequenceAck m o.messageID).2 })
      (y := (modify fun e => { e with
        pmtuHint := e.validatedPMTUHint (ack.lastReceivedCarrierPayload.getD 0) }) >>= fun _ =>
          clearOutstanding >>= fun _ => progress P) ?_ ?_ ?_
    · rw [onState_bind, if_neg (by simp [hre]), if_neg (not_not.mpr hre)]
    · simp [core, Core.accept, hg]
    · refine .bind_keeps (fun _ => rfl) fun _ u _ _ => ?_
      exact release_then_progress

/-- Every frame of the result carries a reply. -/
def Replies (P : Proto) (acts : List Act) (out : List Bytes) (u : Engine) : Prop :=
  Emits acts out u ∧ ∀ f ∈ out, u.core.Replied P f

private theorem respond_moves (hid : message.replyTo ≠ 0) (hb : message.body = some body)
    (hr : t.core.Reply message.controlEpoch body) :
    Walks P allow (do return [← sendResponse P message]) t (Replies P) :=
  (sendResponse_moves hid hb hr).bind fun acts f u ⟨hf, hu, hre⟩ => .pure (by
    simpa [Replies, Emits, hu] using ⟨hf, hre⟩)

private theorem respond_emits (hid : message.replyTo ≠ 0) (hb : message.body = some body)
    (hr : t.core.Reply message.controlEpoch body) :
    Walks P allow (do return [← sendResponse P message]) t Emits :=
  (respond_moves hid hb hr).mono fun _ _ _ h => h.1

theorem respond_then_moves {x : EngineM (List Bytes)} (hid : message.replyTo ≠ 0)
    (hb : message.body = some body) (hr : t.core.Reply message.controlEpoch body)
    (hx : ∀ u : Engine, u.core = t.core → Walks P allow x u Emits) :
    Walks P allow (do
        let response ← sendResponse P message
        let rest ← x
        return response :: rest) t Emits :=
  (sendResponse_moves hid hb hr).bind fun acts f u ⟨hf, hu, _⟩ =>
    (hx u hu).bind fun acts' rest v hre => .pure fun g hg => by
      simp only [emitted_append, mem_append]
      rcases mem_cons.mp hg with rfl | hg
      · exact .inl hf
      · exact .inr (.inl (hre g hg))

theorem handlePing_handles (hid : m.messageID ≠ 0) (sequence : UInt32) :
    Handles P allow t m (handlePing P m sequence) Emits := by
  refine Handles.of_check (t := t) (r := t.requireRemoteRequest m) fun _ _ => ?_
  exact .of_moves (respond_emits hid rfl trivial)

theorem handleMtuProbe_handles (hid : m.messageID ≠ 0) (size : UInt32) :
    Handles P allow t m (handleMtuProbe P m size) Emits := by
  refine Handles.of_check (t := t) (r := t.requireRemoteRequest m) fun _ _ => .of_moves ?_
  refine .bind_keeps (fun e => ?_) fun _ u _ _ => respond_emits hid rfl trivial
  show core (if e.validPMTUHint size = true then _ else e) = core e
  split <;> rfl

theorem handleReset_handles (hid : m.messageID ≠ 0) (session : UInt32)
    (hb : m.body = some (.resetSequence session)) :
    Handles P allow t m (handleReset P m session) (Replies P) := by
  refine Handles.of_check (t := t) (r := t.requireRemoteRequest m) fun _ _ => ?_
  obtain ⟨hr, hg⟩ | ⟨sid, hb', hre, hne, -, hde, hg⟩ := t.state.observeResetSequence_cases m
  · refine .of_moves ?_
    refine .bind_stay (core_withState hg) fun decision u hu hdu => .get_bind ?_
    have hd : decision.result ≠ .accepted := by
      cases hdu
      exact hr
    exact respond_moves hid rfl fun h => absurd h hd
  · refine .of_accept (a := .resetSequence sid) ⟨hb', by rw [hde]⟩
      (u := { t with state := (t.state.observeResetSequence m).2 })
      (y := resetReply P m session .accepted) ?_ ?_ ?_
    · rw [onState_bind, hde]
    · simp [core, Core.accept, hg]
    · refine .get_bind (respond_moves hid rfl fun _ => ?_)
      have hs : session = sid.toUInt32 := by
        rw [hb] at hb'
        cases hb'
        rfl
      refine ⟨?_, ?_, ?_⟩
      · exact hre.epoch.trans (congrArg Gates.remoteEpoch hg).symm
      · rw [show sid = _ from (congrArg Gates.remoteSession hg).symm] at hs
        exact hs
      · exact fun h => hne ((congrArg Gates.remoteSession hg).symm.trans h)

private theorem sendResponse_keeps (message : Control) : Eff.Keeps core (sendResponse P message) :=
  .bind .get fun _ => .bind (liftExcept_keeps _) fun _ => .bind (fun _ => rfl) fun _ =>
    .bind .get fun _ => liftExcept_keeps _

private theorem resetReply_keeps (message : Control) (session : UInt32) (result : ResultCode) :
    Eff.Keeps core (resetReply P message session result) :=
  .bind .get fun _ => .bind (sendResponse_keeps _) fun _ => .pure _

/-- An accepted ResetSequence installs its session, whether or not the reply can be sent. -/
theorem handleReset_session {sid : UInt16} (h : t.Accepts m (.resetSequence sid))
    (hp : t.remoteEpoch = t.state.remoteEpoch) (session : UInt32) :
    (handleReset P m session t).2.core.remoteSession = sid := by
  obtain ⟨hb, ha⟩ := h
  obtain ⟨hr, -⟩ | ⟨sid', hb', hre, -, -, -, hg⟩ := t.state.observeResetSequence_cases m
  · exact absurd ha hr
  have hbd : Body.resetSequence sid.toUInt32 = .resetSequence sid'.toUInt32 :=
    Option.mem_unique hb hb'
  have heq : sid = sid' := UInt16.toUInt32_inj.mp (Body.resetSequence.inj hbd)
  have hc : t.requireRemoteRequest m = .ok () := by
    have hep : m.controlEpoch = t.remoteEpoch := hre.epoch.trans hp.symm
    simp [requireRemoteRequest, hre.replyTo, ← hep, hre.epoch_ne]
  have hrun : handleReset P m session t = resetReply P m session
      (t.state.observeResetSequence m).1.result
      { t with state := (t.state.observeResetSequence m).2 } := by
    simp only [handleReset, Eff.bind_apply, Eff.get_apply, liftExcept, hc]
    rfl
  rw [hrun, resetReply_keeps, heq]
  exact congrArg Gates.remoteSession hg

theorem handlePeerMTU_handles (hid : m.messageID ≠ 0) (mtu : UInt32) :
    Handles P allow t m (handlePeerMTU P m mtu) Emits := by
  refine Handles.of_check (t := t) (r := t.requireRemoteRequest m) fun _ _ => ?_
  obtain ⟨_, hg⟩ | ⟨mtu', hb', _, _, hr, hg⟩ := t.state.observePeerMTU_cases m
  · refine .of_moves (.bind_stay (core_withState hg) fun result u _ _ => ?_)
    exact respond_then_moves hid rfl trivial fun _ _ => moves_of_progress progress_moves
  refine .of_accept (a := .peerMTU mtu') ⟨hb', hr⟩ (y := do
      let response ← sendResponse P (buildControl m.messageID m.controlEpoch
        (.peerMTUAck ⟨mtu, (t.state.observePeerMTU m).1⟩))
      let progressed ← progress P
      return response :: progressed) rfl ?_ ?_
  · simp [core, Core.accept, hg]
  · exact respond_then_moves hid rfl trivial fun _ _ => moves_of_progress progress_moves

private theorem observeRTT_moves (o : OutstandingRequest) :
    Walks P allow (observeRTT o) t
      fun _ _ u => u.baseError = t.baseError := by
  unfold observeRTT
  split
  case isFalse => exact .pure rfl
  refine .bind_keeps now_keeps fun now u hu hn => ?_
  have hb : u.baseError = t.baseError := congrArg Core.baseError hu
  dsimp only
  split
  case isFalse => exact .pure hb
  cases hp : u.pmtu with
  | none => exact .stay (by simp [core, hp]) fun _ _ => hb
  | some p =>
    refine .one (a := .search (p.observeRTT (now - o.sentAt))) ⟨?_, ?_⟩ fun _ _ => hb
    · simp only [Core.Enabled, Core.Search, core, hp]
      exact p.call_evolves (.observeRTT _)
    · simp [core, Core.next, hp]

theorem handlePong_handles : Handles P allow t m (handlePong P m) Emits := by
  refine Handles.of_check (t := t) (r := t.requireResponse m .ping) fun o ho => ?_
  have ha := requireResponse_ok ho
  obtain ⟨hr, hg⟩ | ⟨hb', hresp, hre, hg⟩ := t.state.observePong_cases m o.messageID o.ping
  · refine .of_moves (.stay ?_ fun out hou => ?_)
    · rw [Eff.get_bind, onState_bind, if_pos hr]
      exact core_withState hg
    · rw [Eff.get_bind] at hou
      rw [onState_bind, if_pos hr] at hou
      cases hou
  · refine .of_accept (a := .pong o.ping) ⟨hb', o, ha, hre⟩
      (u := { t with state := (t.state.observePong m o.messageID o.ping).2 })
      (y := observeRTT o >>= fun _ => clearOutstanding >>= fun _ =>
        if t.baseError then outsideBaseError (progress P) else progress P) ?_ ?_ ?_
    · rw [Eff.get_bind, onState_bind, if_neg (not_not.mpr hre)]
    · simp [core, Core.accept, hg]
    · refine then_emits (observeRTT_moves o) fun _ _ u hu => ?_
      refine then_emits release_moves fun _ _ v hv => ?_
      split
      · rename_i hb
        have hvb : v.baseError = true := (congrArg Core.baseError hv).trans (hu.trans hb)
        have hp : Proceeds P (progress P)
            { v with baseError := false } fun acts out _ => ∀ f ∈ out, f ∈ emitted acts :=
          progress_moves
        exact (outsideBaseError_moves hvb hp).mono fun _ _ _ h => h.1
      · exact moves_of_progress progress_moves

private theorem clearBaseError_eq (e : Engine) : ∃ u : Engine, clearBaseError e = (.ok (), u) ∧
    u.core = { e.core with baseError := false } := by
  unfold clearBaseError
  rw [Eff.get_bind]
  split
  · exact ⟨_, rfl, rfl⟩
  · rename_i h
    exact ⟨e, rfl, by simp [core, h]⟩

private theorem startPMTU_eq (e : Engine)
    (h : e.pmtu = none → e.state.negotiatedCarrierPayload ≠ 0 ∧ e.searchConfig.Valid) :
    ∃ (u : Engine) (p : Pmtu.State), startPMTU e = (.ok (), u) ∧ e.core.Search p ∧
      u.core = { e.core with pmtu := some p } := by
  cases hp : e.pmtu with
  | some p =>
    refine ⟨e, p, ?_, ?_, by simp [core, hp]⟩
    · unfold startPMTU
      rw [Eff.get_bind, if_pos (.inl (by simp [hp]))]
      rfl
    · simp only [Core.Search, core, hp]
      exact .refl p
  | none =>
    obtain ⟨hne, hv⟩ := h hp
    obtain ⟨-, h | h | h⟩ | ⟨-, hok, p, hpo, hb, hc⟩ := startPMTU_cases e
    · simp [hp] at h
    · exact absurd h hne
    · exact absurd hv h
    · refine ⟨(startPMTU e).2, p, Prod.ext hok rfl, ?_, hc⟩
      simp only [Core.Search, core, hp]
      exact ⟨hpo, hb⟩

theorem confirmed_now_probe_moves (before : UInt32) :
    Walks P allow (do
      emitConfirmedChange before
      let t ← now
      emitPMTUProbe P t) t Emits :=
  .bind_keeps (emitConfirmedChange_keeps before) fun _ _ _ _ =>
    .bind_keeps now_keeps fun now _ _ _ => moves_of_progress (emitPMTUProbe_moves now)

theorem acknowledgeSearch_moves (o : OutstandingRequest) (size : UInt32) :
    Walks P allow (acknowledgeSearch o size) t fun _ _ _ => True := by
  have hr : ∀ (now : Time) (u : Engine), Walks P allow (do
      let acknowledged ← onPmtu (Pmtu.State.acknowledge · o.probeAttempt size now)
      if acknowledged ≠ some true then throw .malformedControl
      clearOutstanding) u fun _ _ _ => True := by
    intro now u
    refine (search_moves fun p => p.call_evolves (.acknowledge _ size now)).bind fun _ r v _ => ?_
    split
    · exact .throw_bind
    · exact release_moves.mono fun _ _ _ _ => trivial
  refine .get_bind ?_
  split
  · exact .bind_keeps now_keeps fun now u _ _ => hr now u
  · exact hr 0 t

private theorem acknowledgeBase_eq (ha : t.Answers m .baseProbe o)
    (hs : t.pmtu = none → t.state.negotiatedCarrierPayload ≠ 0 ∧ t.searchConfig.Valid)
    (hre : (t.state.observeBaseProbeAck m o.messageID).1 = .accepted) :
    ∃ (u : Engine) (p : Pmtu.State), acknowledgeBase m o t = (.ok (), u) ∧
      t.Accepts m (.baseProbeAck p) ∧ u.core = t.core.accept m (.baseProbeAck p) := by
  obtain ⟨hr, -⟩ | ⟨-, -, -, hg⟩ := t.state.observeBaseProbeAck_cases m o.messageID
  · exact absurd hre hr
  let v : Engine :=
    { t with state := (t.state.observeBaseProbeAck m o.messageID).2, outstanding := none }
  have hn : v.state.negotiatedCarrierPayload = t.state.negotiatedCarrierPayload :=
    congrArg (fun g : Gates => if g.remoteMax = 0 ∨ g.flags.remoteCapabilities = false then 0
      else min g.config.maxCarrierPayload g.remoteMax) hg
  have hc : v.searchConfig = t.searchConfig := by simp [searchConfig, hn, v]
  obtain ⟨w, p, hst, hse, hw⟩ := startPMTU_eq v fun hp => by
    rw [hn, hc]
    exact hs hp
  obtain ⟨u, hcl, hu⟩ := clearBaseError_eq w
  refine ⟨u, p, ?_, ⟨hse, o, ha, hre⟩, ?_⟩
  · unfold acknowledgeBase
    rw [onState_bind, if_neg (not_not.mpr hre)]
    change (startPMTU >>= fun _ => clearBaseError) v = _
    rw [Eff.bind_apply, hst]
    exact hcl
  · rw [hu, hw]
    simp [core, Core.accept, v, hg]

private theorem acknowledgeBase_refused
    (hr : (t.state.observeBaseProbeAck m o.messageID).1 ≠ .accepted) :
    acknowledgeBase m o t = (.error .malformedControl,
      { t with state := (t.state.observeBaseProbeAck m o.messageID).2 }) := by
  unfold acknowledgeBase
  rw [onState_bind, if_pos hr]
  rfl

/-- `hs` is what makes a search possible once the BASE probe is acknowledged. -/
theorem handleMtuProbeAck_handles (size : UInt32) (hs : t.core.Awaits .baseProbe → t.pmtu = none →
      t.state.negotiatedCarrierPayload ≠ 0 ∧ t.searchConfig.Valid) :
    Handles P allow t m (handleMtuProbeAck P m size) Emits := by
  have hg : ∀ f : Engine → EngineM (List Bytes), Handles P allow t m (f t) Emits →
      Handles P allow t m (get >>= f) Emits := fun f h => h
  refine hg _ ?_
  cases ho : t.outstanding with
  | none =>
    dsimp only
    split
    · exact .of_moves (.pure .nil)
    · exact .of_moves .throw
  | some o =>
    dsimp only
    split
    · exact .of_moves .throw_bind
    split
    · exact .of_moves (.pure .nil)
    refine Handles.of_check fun o' ho' => ?_
    have han := requireResponse_ok ho'
    split
    · exact .of_moves .throw_bind
    split
    · rename_i hk
      have hb : t.Answers m .baseProbe o := by
        obtain rfl : o' = o := Option.mem_unique han.outstanding ho
        exact ⟨ho, hk, han.messageID, han.epoch⟩
      by_cases hr : (t.state.observeBaseProbeAck m o.messageID).1 = .accepted
      · obtain ⟨u, p, hac, ha, hu⟩ := acknowledgeBase_eq hb (hs (awaits_of_answers hb)) hr
        refine .of_accept ha ?_ hu (confirmed_now_probe_moves t.confirmedCarrierPayload)
        rw [Eff.bind_apply, hac]
      · refine .of_moves (.stay ?_ fun out hou => ?_)
        · rw [Eff.bind_apply, acknowledgeBase_refused hr]
          exact core_withState ((t.state.observeBaseProbeAck_cases m o.messageID).resolve_right
            fun h => hr h.2.2.1).2
        · rw [Eff.bind_apply, acknowledgeBase_refused hr] at hou
          cases hou
    · exact .of_moves (then_emits (acknowledgeSearch_moves o size) fun _ _ _ _ =>
        confirmed_now_probe_moves _)

theorem handleStateSyncRequired_handles
    (ha : ∀ sync, t.Accepts m (.stateSync sync) → ∀ c : Core, c.exchanges = t.core.exchanges →
      allow.begin c) :
    Handles P allow t m (handleStateSyncRequired P m) Emits := by
  unfold handleStateSyncRequired
  split
  · exact .of_moves .throw_bind
  obtain ⟨hre, hg⟩ | ⟨⟨sync, hb, -⟩, -, hrs, hg⟩ := t.state.observeStateSyncRequired_cases m
  · refine .of_moves (.bind_stay (core_withState hg) fun result u _ hu => ?_)
    have hr : result ≠ .accepted := by
      cases hu
      exact hre
    rw [if_pos hr]
    exact .pure .nil
  · have hac : t.Accepts m (.stateSync sync) := ⟨hb, hrs⟩
    let u : Engine := { t with state := (t.state.observeStateSyncRequired m).2 }
    have hu : u.core = t.core.accept m (.stateSync sync) := by simp [core, Core.accept, hg, u]
    refine .of_accept hac ?_ hu (beginLocalExchange_moves (ha sync hac _ ?_))
    · change (onState (State.observeStateSyncRequired · m) >>= _) t = _
      rw [onState_bind, if_neg (not_not.mpr hrs)]
    · rw [hu]
      rfl

theorem rearmCapabilities_keeps : Eff.Keeps core rearmCapabilities := by
  refine .bind .get fun e => ?_
  split
  · exact .bind now_keeps fun _ => .bind (retryDelayForOutstanding_keeps _ _) fun _ =>
      modifyOutstanding_keeps fun _ => rfl
  · exact .pure _

theorem adoptRemoteEpoch_core (e : Engine) (epoch : UInt64) :
    (adoptRemoteEpoch epoch e).2.core = { e.core with
        peerEpoch := epoch
        pmtu := if e.core.peerEpoch ≠ 0 ∧ e.core.peerEpoch ≠ epoch then none
          else e.core.pmtu } := by
  by_cases heq : e.remoteEpoch = epoch
  · simp [adoptRemoteEpoch, core, heq]
  by_cases hz : e.remoteEpoch = 0
  · have hne : 0 ≠ epoch := hz ▸ heq
    simp [adoptRemoteEpoch, core, hz, hne]
  · simp [adoptRemoteEpoch, core, heq, hz]

/-- After an accepted Hello an exchange begins when the decision, the epoch or the recovery
from a terminal error asks for one. -/
theorem afterHello_moves (previous : UInt64) (startReverse changed : Bool)
    (ha : startReverse = true ∨ changed = true ∨ (t.terminalError = true ∧ previous = 0) →
      ∀ c : Core, c.exchanges = t.core.exchanges → c.remoteEpoch = t.core.remoteEpoch →
        allow.begin c)
    (hr : previous = 0 ∨ changed = true → allow.recover t.core) :
    Walks P allow (afterHello P previous startReverse changed) t Emits := by
  have hre : ∀ u : Engine, u.core.exchanges = t.core.exchanges →
      u.core.remoteEpoch = t.core.remoteEpoch → Walks P allow
        (if ((t.terminalError && (previous == 0 || changed)) || startReverse || changed) = true
        then do
          let ready ← onState State.localExchangeRetryReady
          if (← get).state.localExchangeRetryAt ≠ 0 ∧ ready = false then return []
          beginLocalExchange P
        else do
          if previous = 0 then rearmCapabilities
          progress P) u Emits := by
    intro u hu hrm
    split
    · rename_i hc
      refine .bind_keeps (onState_keeps fun s => s.localExchangeRetryReady_gates)
        fun ready v hv _ => .get_bind ?_
      split
      · exact .pure .nil
      refine beginLocalExchange_moves (ha ?_ _ (hv ▸ hu) (hv ▸ hrm))
      simp only [Bool.or_eq_true, Bool.and_eq_true, beq_iff_eq] at hc
      tauto
    · dsimp only
      split
      · exact .bind_keeps rearmCapabilities_keeps fun _ v _ _ => moves_of_progress progress_moves
      · exact moves_of_progress progress_moves
  refine .get_bind ?_
  dsimp only
  split
  · rename_i hrc
    simp only [Bool.and_eq_true, Bool.or_eq_true, beq_iff_eq] at hrc
    refine then_emits (q := fun _ _ u => u.core = t.core.next .recover)
      (.one (a := .recover) ⟨hr hrc.2, rfl⟩ fun _ _ => rfl) fun _ _ u hu => ?_
    exact hre u (by rw [hu]; rfl) (by rw [hu]; rfl)
  · exact hre t rfl rfl

/-- An accepted Hello that calls for a local exchange: there is none yet, the remote epoch
changes, or the Hello is the first one after a terminal error. -/
def Renews (e : Engine) (m : Control) : Prop :=
  (∃ h, e.Accepts m (.hello h)) ∧
    (e.state.localEpoch = 0 ∨ e.state.gates.Changes m.controlEpoch ∨
      (e.terminalError = true ∧ e.state.remoteEpoch = 0))

theorem handleCapabilitiesHello_handles (hid : m.messageID ≠ 0)
    (hp : t.remoteEpoch = t.state.remoteEpoch)
    (ha : t.Renews m → ∀ c : Core, c.exchanges = t.core.exchanges →
      c.remoteEpoch = m.controlEpoch → allow.begin c)
    (hr : ∀ h, t.Accepts m (.hello h) →
      t.state.remoteEpoch = 0 ∨ t.state.gates.Changes m.controlEpoch →
        allow.recover (t.core.accept m (.hello h))) :
    Handles P allow t m (handleCapabilitiesHello P m) Emits := by
  unfold handleCapabilitiesHello
  split
  · exact .of_moves .throw_bind
  let u : Engine := { t with state := (t.state.observeCapabilitiesHello m).2 }
  obtain ⟨hre, hg⟩ | ⟨h, hb, -, -, hv, hd, hg⟩ := t.state.observeCapabilitiesHello_cases m
  · have hu : u.core = t.core := core_withState hg
    refine .of_moves (.get_bind (.bind_stay hu fun decision v hv hdv => ?_))
    obtain rfl : decision = (t.state.observeCapabilitiesHello m).1 := by
      cases hdv
      rfl
    rw [if_pos hre]
    have hr : ∀ ack, v.core.Reply m.controlEpoch (.capabilitiesAck ack) := fun _ => trivial
    refine (sendResponse_moves (m := helloReply m _) hid rfl (hr _)).bind
      fun acts f w ⟨hf, _⟩ => ?_
    have hst : w.core.Step P allow (.terminal .none) (w.core.next (.terminal .none)) :=
      ⟨trivial, rfl⟩
    refine .bind_one hst fun _ _ => .pure fun g hg => ?_
    rw [mem_singleton] at hg
    simpa [hg] using Or.inl hf
  · have hrs : (t.state.observeCapabilitiesHello m).1.result = .accepted := by
      rw [hd]
      exact hv
    have hac : t.Accepts m (.hello h) := ⟨hb, hrs⟩
    let v : Engine := (adoptRemoteEpoch m.controlEpoch u).2
    have hc : v.core = t.core.accept m (.hello h) := by
      rw [adoptRemoteEpoch_core]
      simp only [core, Core.accept, u, hg]
      rfl
    have hs : (t.state.observeCapabilitiesHello m).1.startReverseExchange =
        decide (t.state.localEpoch = 0 ∨ t.state.gates.Changes m.controlEpoch) := by rw [hd]
    refine .of_accept hac (u := v) (y := do
      let response ← sendResponse P (helloReply m (t.state.observeCapabilitiesHello m).1)
      let rest ← afterHello P t.remoteEpoch
        (t.state.observeCapabilitiesHello m).1.startReverseExchange
        (t.remoteEpoch ≠ 0 ∧ t.remoteEpoch ≠ m.controlEpoch)
      return response :: rest) ?_ hc ?_
    · dsimp only
      rw [Eff.get_bind, onState_bind, if_neg (not_not.mpr hrs)]
      rfl
    · refine respond_then_moves hid rfl trivial fun w hw => afterHello_moves _ _ _ (fun hca => ?_) ?_
      case refine_2 =>
        rw [hw, hc, hp]
        simp only [decide_eq_true_eq]
        exact hr h hac
      have hexch : w.core.exchanges = t.core.exchanges := by
        rw [hw, hc]
        simp only [Core.accept, Gates.hello, Gates.install]
        split <;> rfl
      have hterm : w.terminalError = t.terminalError :=
        (congrArg Core.terminal (hw.trans hc)).trans rfl
      have hrm : w.core.remoteEpoch = m.controlEpoch :=
        (congrArg (fun c : Core => c.remoteEpoch) (hw.trans hc)).trans rfl
      rw [hexch, hrm]
      refine ha ⟨⟨h, hac⟩, ?_⟩
      rw [hs, hterm, hp] at hca
      simp only [decide_eq_true_eq] at hca
      exact hca.elim (fun h => h.imp_right .inl) fun h => .inr h

end WgFrag.Control.Engine
