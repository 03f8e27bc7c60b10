import WgFrag.Control.Core

/-! Every engine call is a sequence of elementary steps of its core. -/
namespace WgFrag.Control
open WgFrag.Lib WgFrag.Wire List

/-- The steps that `progress` takes; none of them depends on the BASE error state. -/
def Act.Progress : Act → Prop
  | .send _ _ | .search _ | .release => True
  | _ => False

def Core.ProgressStep (P : Proto) (c : Core) (a : Act) (d : Core) : Prop :=
  a.Progress ∧ c.Step P .never a d

theorem Core.ProgressStep.step {P : Proto} {allow : Core.Guard} {c d : Core} {a : Act}
    (h : c.ProgressStep P a d) : c.Step P allow a d :=
  h.2.weaken P (fun _ => False.elim) fun _ => False.elim

namespace Engine
variable {P : Proto} {allow : Core.Guard} {e : Engine}
variable {m : Control} {α : Type}

/-- Every frame of the result was emitted by a step. -/
def Emits (acts : List Act) (out : List Bytes) (_ : Engine) : Prop := ∀ f ∈ out, f ∈ emitted acts

/-- The core moves along steps of the engine, or of `progress` alone. -/
abbrev Walks (P : Proto) (allow : Core.Guard) (x : EngineM α) (e : Engine)
    (post : List Act → α → Engine → Prop) : Prop := Eff.Moves core (Core.Step P allow) x e post

@[inherit_doc Walks]
abbrev Proceeds (P : Proto) (x : EngineM α) (e : Engine)
    (post : List Act → α → Engine → Prop) : Prop := Eff.Moves core (Core.ProgressStep P) x e post

theorem Emits.after {acts acts' : List Act} {out : List Bytes} {t : Engine}
    (h : Emits acts' out t) : Emits (acts ++ acts') out t := fun f hf => by
  rw [emitted_append]
  exact mem_append_right _ (h f hf)

theorem Emits.nil {acts : List Act} {t : Engine} : Emits acts [] t := nofun

/-- The frames of a result stay emitted when other steps come first. -/
theorem then_emits {step : Core → Act → Core → Prop} {x : EngineM α} {f : α → EngineM (List Bytes)}
    {q : List Act → α → Engine → Prop} (h : Eff.Moves core step x e q)
    (hf : ∀ acts a t, q acts a t → Eff.Moves core step (f a) t Emits) :
    Eff.Moves core step (x >>= f) e Emits :=
  h.bind fun acts a t ha => (hf acts a t ha).mono fun _ _ _ h => h.after

theorem onState_keeps {f : State → α × State}
    (h : ∀ s, (f s).2.gates = s.gates) : Eff.Keeps core (onState f) := fun e => by
  simp [onState, Eff.onPart, core, h]

theorem liftExcept_keeps (x : Except EngineError α) :
    Eff.Keeps core (liftExcept x) := fun _ => rfl

theorem now_keeps : Eff.Keeps core now := onState_keeps fun _ => rfl

theorem retryDelayCapped_keeps (attempt : ℕ) (maxDelay : Duration) :
    Eff.Keeps core (retryDelayCapped attempt maxDelay) :=
  .bind (onState_keeps fun _ => rfl) fun random => by
    cases random <;> exact .pure _

theorem retryDelayForOutstanding_keeps (now : Time) (attempt : ℕ) :
    Eff.Keeps core (retryDelayForOutstanding now attempt) :=
  .bind .get fun _ => retryDelayCapped_keeps _ _

/-- Changes of an outstanding request that keep its kind and frame are not seen. -/
theorem modifyOutstanding_keeps {f : OutstandingRequest → OutstandingRequest}
    (h : ∀ o, (f o).slot = o.slot) : Eff.Keeps core (modifyOutstanding f) := fun e => by
  cases ho : e.outstanding <;> simp [modifyOutstanding, core, ho, h]

theorem nextLocalMessageID_keeps : Eff.Keeps core nextLocalMessageID :=
  .bind .get fun _ => .bind (liftExcept_keeps _) fun _ => .bind (fun _ => rfl) fun _ => .pure _

theorem marshal_ok {target : UInt32} {frame : Bytes} (h : marshal P e m target = .ok frame) :
    ∃ m', frame = encodeFrame (P.marshal m') ∧ m'.body = m.body ∧
      m'.controlEpoch = m.controlEpoch ∧ m'.replyTo = m.replyTo := by
  unfold marshal at h
  split_ifs at h
  split at h
  · cases h
  rename_i padded hp
  split at h
  · cases h
  rename_i bytes hb
  cases h
  refine ⟨padded, Codec.marshalTo_ok hb, ?_⟩
  unfold padTo at hp
  dsimp only at hp
  split_ifs at hp
  · split at hp
    · cases hp
    · cases hp
      exact ⟨rfl, rfl, rfl⟩
  · cases hp
    exact ⟨rfl, rfl, rfl⟩

private theorem armRetry_keeps (kind : RequestKind) (sentAt : Time) :
    Eff.Keeps core (armRetry kind sentAt) := by
  unfold armRetry
  split
  · exact .bind (retryDelayForOutstanding_keeps _ _) fun _ => modifyOutstanding_keeps fun _ => rfl
  · exact .pure _

theorem sendRequest_moves {kind : RequestKind} {body : Body}
    (hsl : e.core.slot = none) (hb : m.body = some body)
    (hep : m.controlEpoch = e.localEpoch) (hr : e.core.Request body kind)
    (ping probeSize : UInt32) :
    Proceeds P (sendRequest P kind m ping probeSize) e Emits := by
  refine .bind_keeps nextLocalMessageID_keeps fun id t ht _ => ?_
  refine .get_bind (.bind_keeps (liftExcept_keeps _) fun frame u hu hfr => ?_)
  obtain ⟨m', hm', hb', hep', -⟩ := marshal_ok (congrArg Prod.fst hfr)
  have hre : e.core.Requested P kind frame := ⟨m', body, hm', hb'.trans hb, hep'.trans hep, hr⟩
  refine .get_bind ?_
  dsimp only
  split
  · exact .throw_bind
  refine .bind_keeps now_keeps fun sentAt v hv _ => ?_
  have hc : v.core = e.core := hv.trans (hu.trans ht)
  have hst : Core.ProgressStep P v.core (.send kind frame) (v.core.next (.send kind frame)) :=
    ⟨trivial, hc ▸ ⟨hsl, hre⟩, rfl⟩
  refine .bind_one hst fun _ _ => ?_
  refine .bind_keeps (armRetry_keeps kind sentAt) fun _ _ _ _ => .pure ?_
  simp [Emits, Act.frames]

theorem sendCapabilitiesHello_moves (hsl : e.core.slot = none)
    (h : e.core.flags.baseProbe = false ∨ e.core.retryAt ≠ 0) :
    Proceeds P (sendCapabilitiesHello P) e Emits := by
  have hr : e.core.Request (.capabilitiesHello e.core.config.capabilities) .capabilities := ⟨rfl, h⟩
  exact .get_bind (sendRequest_moves hsl rfl rfl hr 0 0)

theorem sendResponse_moves {body : Body} (hid : m.replyTo ≠ 0) (hb : m.body = some body)
    (hr : e.core.Reply m.controlEpoch body) :
    Walks P allow (sendResponse P m) e
      fun acts f t => f ∈ emitted acts ∧ t.core = e.core ∧ e.core.Replied P f := by
  refine .get_bind (.bind_keeps (liftExcept_keeps _) fun id t ht _ => ?_)
  refine .bind_keeps (fun _ => rfl) fun _ u hu _ => .get_bind ?_
  have hc : u.core = e.core := hu.trans ht
  cases hm : marshal P u { m with messageID := id } 0 with
  | error => exact .stay rfl fun b hb => by cases hb
  | ok frame =>
    obtain ⟨m', hm', hb', hep', hto'⟩ := marshal_ok hm
    have hre : e.core.Replied P frame := ⟨m', body, hm', hto' ▸ hid, hb'.trans hb, hep' ▸ hr⟩
    have hst : Core.Step P allow u.core (.respond frame) u.core := ⟨hc ▸ hre, rfl⟩
    refine .one hst fun b hb => ?_
    cases hb
    exact ⟨by simp [Act.frames], hc, hre⟩

theorem emitConfirmedChange_keeps (before : UInt32) : Eff.Keeps core (emitConfirmedChange before) :=
  .bind .get fun e => by
    cases e.pmtu with
    | none => exact .pure _
    | some =>
      dsimp only
      split
      · exact fun _ => rfl
      · exact .pure _

/-- An operation on the search is one step of it, and touches nothing else. -/
theorem onPmtu_moves {f : Pmtu.State → α × Pmtu.State} (hf : ∀ p : Pmtu.State, p.Evolves (f p).2) :
    Proceeds P (onPmtu f) e fun _ r t =>
      ∃ p, t = { e with pmtu := p } ∧ (r.isSome → p.isSome) ∧ (e.pmtu.isSome → p.isSome) := by
  unfold onPmtu
  cases hp : e.pmtu with
  | none =>
    refine .stay (by simp [hp]) fun r hr => ?_
    simp only [hp] at hr ⊢
    cases hr
    exact ⟨none, by cases e; simp_all, nofun, nofun⟩
  | some p =>
    have hst : Core.ProgressStep P e.core (.search (f p).2)
        ({ e with pmtu := some (f p).2 } : Engine).core := by
      refine ⟨trivial, ?_, rfl⟩
      simp only [Core.Enabled, Core.Search, core, hp]
      exact hf p
    refine .one (by simpa [hp] using hst) fun r hr => ?_
    simp only [hp] at hr ⊢
    exact ⟨some (f p).2, rfl, fun _ => rfl, fun _ => rfl⟩

private theorem abortPMTUProbe_moves :
    Proceeds P abortPMTUProbe e fun _ _ _ => True := by
  have hr : ∀ t : Engine,
      Proceeds P clearOutstanding t fun _ _ _ => True := fun t =>
    .one (a := .release) ⟨trivial, trivial, rfl⟩ fun _ _ => trivial
  refine .get_bind ?_
  split
  · refine .bind_keeps now_keeps fun t u _ _ => ?_
    exact (onPmtu_moves fun p => p.call_evolves (.failCurrent t)).bind fun _ _ v _ => hr v
  · exact hr e

private theorem sendPMTUProbe_moves (hsl : e.core.slot = none) (hp : e.pmtu.isSome)
    (probe : Pmtu.Probe) :
    Proceeds P (sendPMTUProbe P probe) e Emits := by
  have hr : e.core.Request .mtuProbe .pmtuProbe := ⟨rfl, hp⟩
  refine .get_bind ((sendRequest_moves hsl rfl rfl hr 0 probe.payloadSize).bind ?_)
  intro acts out t ho
  refine .get_bind ?_
  dsimp only
  split
  · exact abortPMTUProbe_moves.bind fun _ _ _ _ => .throw_bind
  have hl : ∀ u : Engine, ∀ acts' : List Act, Proceeds P
        (modifyOutstanding (fun o => { o with
          probeSize := UInt32.ofNat (out.headD []).length, probeAttempt := probe.attempt }) >>=
          fun _ => pure out) u fun ls' => Emits (acts ++ (acts' ++ ls')) := fun u acts' =>
    .bind_keeps (modifyOutstanding_keeps fun _ => rfl) fun _ v _ _ => .pure fun f hf => by
      simp only [emitted_append, mem_append]
      exact .inl (ho f hf)
  split
  · refine (onPmtu_moves fun p => p.call_evolves (.adjustCurrent _ _)).bind ?_
    intro acts' adjusted u _
    split
    · exact abortPMTUProbe_moves.bind fun _ _ _ _ => .throw_bind
    · exact hl u acts'
  · exact hl t []

theorem emitPMTUProbe_moves (now : Time) :
    Proceeds P (emitPMTUProbe P now) e Emits := by
  refine .get_bind ?_
  split
  · exact .pure .nil
  rename_i hsl
  refine then_emits (onPmtu_moves fun p => p.call_evolves (.next now)) ?_
  rintro - r _ ⟨p, rfl, hp, _⟩
  match r with
  | none => exact .pure .nil
  | some none => exact .pure .nil
  | some (some probe) =>
    exact sendPMTUProbe_moves (by simpa [core] using hsl) (hp rfl) probe

private theorem newSearch_ok {p : Pmtu.State} (h : e.newSearch = some p) :
    p.Ok ∧ p.config.base = e.base := by
  obtain ⟨search, hn, rfl⟩ := Option.map_eq_some_iff.mp h
  obtain ⟨hc, hok⟩ := Pmtu.State.new_ok hn
  split_ifs
  · have hev : search.Evolves (search.observeRTT e.srtt) := search.call_evolves (.observeRTT _)
    exact ⟨hev.ok hok, by rw [hev.config, hc]; rfl⟩
  · exact ⟨hok, by rw [hc]; rfl⟩

private theorem newSearch_none (h : e.newSearch = none) : ¬ e.searchConfig.Valid := by
  have hn : Pmtu.State.new e.searchConfig = none := by simpa [newSearch] using h
  unfold Pmtu.State.new at hn
  split_ifs at hn with hv
  exact hv

/-- Starting a search changes nothing, or installs one at BASE. -/
theorem startPMTU_cases (e : Engine) :
    ((startPMTU e).2 = e ∧ (e.pmtu.isSome ∨ e.state.negotiatedCarrierPayload = 0 ∨
        ¬ e.searchConfig.Valid)) ∨
    (e.pmtu = none ∧ (startPMTU e).1 = .ok () ∧ ∃ p, p.Ok ∧ p.config.base = e.base ∧
      (startPMTU e).2.core = { e.core with pmtu := some p }) := by
  unfold startPMTU
  rw [Eff.get_bind]
  split_ifs with h
  · exact .inl ⟨rfl, h.imp_right .inl⟩
  rw [not_or] at h
  cases hn : e.newSearch with
  | none => exact .inl ⟨rfl, .inr (.inr (newSearch_none hn))⟩
  | some p =>
    obtain ⟨hok, hb⟩ := newSearch_ok hn
    refine .inr ⟨by simpa using h.1, rfl, _, ?_, ?_, rfl⟩
    · split_ifs
      · exact (p.startWithHint_evolves _ _).ok hok
      · exact (p.start_evolves _).ok hok
    · split_ifs
      · rw [(p.startWithHint_evolves _ _).config, hb]
      · rw [(p.start_evolves _).config, hb]

private theorem startPMTU_moves : Proceeds P startPMTU e fun _ _ _ => True := by
  obtain ⟨h, -⟩ | ⟨hn, -, p, hok, hb, hc⟩ := startPMTU_cases e
  · exact .stay (by rw [h]) fun _ _ => trivial
  · refine .one (a := .search p) ⟨trivial, ?_, hc⟩ fun _ _ => trivial
    simp only [Core.Enabled, Core.Search, core, hn]
    exact ⟨hok, hb⟩

theorem progress_moves : Proceeds P (progress P) e Emits := by
  refine .get_bind ?_
  dsimp only
  split
  · exact .pure .nil
  rename_i hra
  have hsl : e.core.slot = none := by
    simp only [not_or] at hra
    simpa [core] using hra.2.1
  split
  · exact .pure .nil
  rename_i hcaps
  obtain ⟨hl, hrm⟩ : e.core.flags.localCapabilities = true ∧
      e.core.flags.remoteCapabilities = true := by simpa [core, State.gates] using hcaps
  have hn : e.core.flags.Negotiated := ⟨hl, hrm⟩
  split
  · have hr : e.core.Request (.resetSequence e.core.localSession.toUInt32) .reset := ⟨rfl, hn⟩
    exact sendRequest_moves hsl rfl rfl hr 0 0
  rename_i hrs
  split
  · have hr : e.core.Request (.peerMTU e.core.config.localPeerMTU) .peerMTU := ⟨rfl, hn⟩
    exact sendRequest_moves hsl rfl rfl hr 0 0
  split
  · exact .pure .nil
  split
  · rename_i hp
    have hr : e.core.Request (.ping e.nextPingSequence) .ping := ⟨⟨_, rfl⟩, hn, hp⟩
    refine .bind_keeps (fun _ => rfl) fun _ t ht _ => ?_
    exact sendRequest_moves (ht ▸ hsl) rfl (congrArg Core.epoch ht.symm) (ht ▸ hr) _ 0
  rename_i hp
  split
  · have hr : e.core.Request .mtuProbe .baseProbe :=
      ⟨rfl, hn, by simpa [core, State.gates] using hrs,
        by simpa [core, State.gates] using hp⟩
    exact sendRequest_moves hsl rfl rfl hr 0 _
  have hre : ∀ t : Engine, Proceeds P
      (now >>= fun t => emitPMTUProbe P t) t Emits := fun t =>
    .bind_keeps now_keeps fun t _ _ _ => emitPMTUProbe_moves t
  split
  · exact then_emits startPMTU_moves fun _ _ t _ => hre t
  · exact hre e

theorem moves_of_progress {x : EngineM α} {post : List Act → α → Engine → Prop}
    (h : Proceeds P x e post) :
    Walks P allow x e post := h.step_mono fun _ _ _ hs => hs.step

theorem search_moves {f : Pmtu.State → α × Pmtu.State} (hf : ∀ p : Pmtu.State, p.Evolves (f p).2) :
    Walks P allow (onPmtu f) e fun _ _ _ => True :=
  moves_of_progress ((onPmtu_moves hf).mono fun _ _ _ _ => trivial)

theorem enterBaseError_moves :
    Walks P allow enterBaseError e fun _ _ _ => True := by
  have hst : e.core.Step P allow .baseError (e.core.next .baseError) := ⟨trivial, rfl⟩
  refine .bind_one hst fun _ _ => .bind_keeps now_keeps fun _ _ _ _ => ?_
  refine .bind_keeps (retryDelayCapped_keeps _ _) fun _ _ _ _ => ?_
  exact .stay rfl fun _ _ => trivial

theorem scheduleBaseRetry_moves (h : e.baseError = true) (now : Time) :
    Walks P allow (scheduleBaseRetry now) e fun _ _ _ => True := by
  refine .bind_stay (by simp [core, h]) fun _ _ _ _ => .get_bind ?_
  refine .bind_keeps (retryDelayCapped_keeps _ _) fun _ _ _ _ => ?_
  exact .stay rfl fun _ _ => trivial

/-- The steps of `progress` are the same inside and outside the BASE error state. -/
theorem outsideBaseError_moves {x : EngineM α} {post : List Act → α → Prop}
    (hb : e.baseError = true)
    (h : Proceeds P x { e with baseError := false }
      fun acts a _ => post acts a) :
    Walks P allow (outsideBaseError x) e
      fun acts a t => post acts a ∧ t.baseError = true := by
  obtain ⟨acts, hch, hp⟩ := h
  refine ⟨acts, ?_, fun a ha => ⟨hp a ha, rfl⟩⟩
  have hst : ∀ c a d, Core.ProgressStep P c a d →
      Core.Step P allow { c with baseError := true } a { d with baseError := true } := by
    rintro c a _ ⟨hprog, hen, rfl⟩
    cases a with
    | send | search | release => exact ⟨hen, rfl⟩
    | _ => exact hprog.elim
  have hm := hch.map (fun c => { c with baseError := true }) hst
  have he : { (core { e with baseError := false }) with baseError := true } = e.core := by
    simp [core, hb]
  rw [he] at hm
  exact hm

private theorem installExchange_moves (ha : allow.begin e.core) :
    Walks P allow installExchange e
      fun _ _ t => t.core.slot = none ∧ t.core.flags.baseProbe = false := by
  have hc := e.state.beginLocalExchange_cases
  unfold installExchange
  cases hb : e.state.beginLocalExchange with
  | mk r state =>
    rw [hb] at hc
    obtain ⟨_, rfl, hg⟩ | ⟨x, rfl, hf, hg⟩ := hc
    · refine .stay ?_ fun a ha => ?_
      · simp [hb, core, hg]
      · rw [hb] at ha
        cases ha
    · refine .one (a := .begin x) ⟨⟨ha, hf⟩, ?_⟩ fun _ _ => ?_
      · simp [hb, core, hg, Core.next]
      · simp [hb, core, hg, Gates.begin, Flags.clearLocal]

theorem beginLocalExchange_moves (ha : allow.begin e.core) :
    Walks P allow (beginLocalExchange P) e Emits :=
  then_emits (installExchange_moves ha) fun _ _ _ ⟨hsl, hb⟩ =>
    moves_of_progress (sendCapabilitiesHello_moves hsl (.inl hb))

theorem restartAfterResetCollision_moves (ha : allow.begin e.core) (hsl : e.core.slot = none) :
    Walks P allow restartAfterResetCollision e Emits := by
  have hca := e.state.restartLocalExchange_cases
  unfold restartAfterResetCollision
  cases hb : e.state.restartLocalExchange with
  | mk r state =>
    rw [hb] at hca
    obtain ⟨err, rfl, hg⟩ | ⟨x, t, rfl, hf, hg⟩ := hca
    · have hc : ({ e with state := state } : Engine).core = e.core := by simp [core, hg]
      by_cases he : err = .localExchangeBackoff
      · subst he
        refine .stay (by simp [hb, hc]) fun out ho => ?_
        rw [hb] at ho
        cases ho
        exact .nil
      · refine .one (a := .terminal .none) ?_ fun out ho => ?_
        · rw [hb, ← hc]
          cases err <;> first | exact absurd rfl he | exact ⟨trivial, rfl⟩
        · rw [hb] at ho
          cases err <;> first | exact absurd rfl he | (cases ho; exact .nil)
    · refine .one (a := .restart x t) ⟨⟨ha, hf, hsl⟩, ?_⟩ fun out ho => ?_
      · simp [hb, core, hg, Core.next]
      · rw [hb] at ho
        cases ho
        exact .nil

theorem start_moves (ha : e.started = false → allow.begin e.core) :
    Walks P allow (start P) e Emits := by
  refine .get_bind ?_
  split
  · exact .throw_bind
  · rename_i h
    exact beginLocalExchange_moves (ha (by simpa using h))

theorem reportUnknownDataSession_moves (ha : e.started = false → allow.begin e.core)
    (session : UInt16) :
    Walks P allow (reportUnknownDataSession P session) e Emits := by
  refine .get_bind ?_
  split
  · rename_i h
    exact beginLocalExchange_moves (ha h)
  refine .bind_keeps (onState_keeps fun s => s.checkInboundDataSession_gates session)
    fun decision t ht _ => ?_
  split
  · exact .pure .nil
  refine .bind_keeps nextLocalMessageID_keeps fun id u hu _ => .get_bind ?_
  refine .bind ?_ fun acts frame v (hfr : frame ∈ emitted acts) => .pure ?_
  · cases hm : marshal P u _ 0 with
    | error => exact .stay rfl fun b hb => by cases hb
    | ok frame =>
      obtain ⟨m', hm', hb', -⟩ := marshal_ok hm
      refine .one (a := .sync frame) ⟨⟨m', _, hm', hb'⟩, rfl⟩ fun b hb => ?_
      cases hb
      simp [Act.frames]
  · simpa [Emits] using hfr

private theorem recoverFromBlackhole_moves (before : UInt32) :
    Walks P allow (recoverFromBlackhole P before) e Emits := by
  refine .get_bind ?_
  have hr : ∀ t : Engine, Walks P allow
      ((modify fun e => { e.releasePath with pmtu := none }) >>= fun _ => progress P) t Emits := by
    intro t
    refine then_emits (q := fun _ _ _ => True) (.one (a := .blackhole) ⟨trivial, rfl⟩ ?_) ?_
    · exact fun _ _ => trivial
    · exact fun _ _ _ _ => moves_of_progress progress_moves
  split
  · exact .bind_keeps (fun _ => rfl) fun _ t _ _ => hr t
  · exact hr e

theorem release_moves :
    Walks P allow clearOutstanding e
      fun _ _ t => t.core = e.core.next .release :=
  .one (a := .release) ⟨trivial, rfl⟩ fun _ _ => rfl

theorem confirmed_then_probe_moves (before : UInt32) (now : Time) :
    Walks P allow
      (emitConfirmedChange before >>= fun _ => emitPMTUProbe P now) e Emits :=
  .bind_keeps (emitConfirmedChange_keeps before) fun _ _ _ _ =>
    moves_of_progress (emitPMTUProbe_moves now)

theorem takeBlackhole_moves {x : EngineM (List Bytes)} (before : UInt32)
    (hx : ∀ t : Engine, Walks P allow x t Emits) :
    Walks P allow (onPmtu Pmtu.State.takeBlackhole >>= fun r =>
      if r = some true then recoverFromBlackhole P before else x) e Emits := by
  refine then_emits (search_moves fun p => p.call_evolves .takeBlackhole) fun _ r t _ => ?_
  split
  · exact recoverFromBlackhole_moves before
  · exact hx t

private theorem afterProbeFailure_moves (before : UInt32) (now : Time) :
    Walks P allow (afterProbeFailure P before now) e Emits := by
  refine .get_bind ?_
  split
  · exact then_emits release_moves fun _ _ _ _ =>
      takeBlackhole_moves before fun _ => confirmed_then_probe_moves before now
  · exact takeBlackhole_moves before fun _ => confirmed_then_probe_moves before now

theorem reportProbeFailure_moves (now : Time) :
    Walks P allow (reportProbeFailure P now) e Emits := by
  refine .get_bind ?_
  split
  · exact enterBaseError_moves.bind fun _ _ _ _ => .pure .nil
  cases e.pmtu with
  | none => exact .pure .nil
  | some p =>
    refine then_emits (search_moves fun p => p.call_evolves (.failCurrent now)) fun _ r t _ => ?_
    split
    · exact afterProbeFailure_moves _ now
    · exact .pure .nil

theorem reportBlackhole_moves (now : Time) : Walks P allow (reportBlackhole P now) e Emits := by
  refine .get_bind ?_
  cases hp : e.pmtu with
  | none => exact .pure .nil
  | some p =>
    refine then_emits (q := fun _ _ _ => True)
      (.one (a := .search (p.reportBlackhole now)) ⟨?_, rfl⟩ fun _ _ => trivial) fun _ _ _ _ => ?_
    · simp only [Core.Enabled, Core.Search, core, hp]
      exact p.call_evolves (.reportBlackhole now)
    · exact then_emits release_moves fun _ _ _ _ => confirmed_then_probe_moves _ now

theorem reportSendFailure_moves (now : Time) (wireSize : ℤ) :
    Walks P allow (reportSendFailure P now wireSize) e Emits := by
  refine .get_bind ?_
  split
  · split
    · exact enterBaseError_moves.bind fun _ _ _ _ => .pure .nil
    · exact .pure .nil
  split
  · rename_i h
    have hr : Walks P allow clearOutstanding e
        fun _ _ t => t.baseError = true :=
      .one (a := .release) ⟨trivial, rfl⟩ fun _ ha => by cases ha; exact h.1
    refine hr.bind fun _ _ t ht => ?_
    exact (scheduleBaseRetry_moves ht now).bind fun _ _ _ _ => .pure .nil
  cases e.pmtu with
  | none => exact .pure .nil
  | some p =>
    dsimp only
    split
    · split
      · refine then_emits (search_moves fun p => p.call_evolves (.softFailCurrent now)) ?_
        intro _ r t _
        split
        · exact afterProbeFailure_moves _ now
        · exact .pure .nil
      · split
        · exact reportProbeFailure_moves now
        · exact .pure .nil
    · split
      · exact reportBlackhole_moves now
      · exact .pure .nil

/-- In the BASE error state the BASE gate is closed, so a new Hello may be sent. -/
theorem tickBaseError_moves (hb : e.baseError = true) (hba : e.core.flags.baseProbe = false)
    (now : Time) : Walks P allow (tickBaseError P now) e Emits := by
  refine .get_bind ?_
  cases ho : e.outstanding with
  | some o =>
    dsimp only
    split
    · exact .pure .nil
    have hst : e.core.Step P allow .resetPath (e.core.next .resetPath) := ⟨trivial, rfl⟩
    refine .bind_one hst fun _ _ => ?_
    exact (scheduleBaseRetry_moves (e := e.releasePath) hb now).bind fun _ _ _ _ =>
      .pure Emits.nil
  | none =>
    dsimp only
    split
    · exact .pure .nil
    have hsl : e.core.slot = none := by simp [core, ho]
    have hm : Proceeds P
        (if e.state.flags.localCapabilities = false then sendCapabilitiesHello P else progress P)
        { e with baseError := false } fun acts out _ => ∀ f ∈ out, f ∈ emitted acts := by
      split
      · exact sendCapabilitiesHello_moves hsl (.inl hba)
      · exact progress_moves
    refine (outsideBaseError_moves hb hm).bind fun acts out t ⟨hou, ht⟩ => ?_
    split
    · refine (scheduleBaseRetry_moves ht now).bind fun _ _ _ _ => .pure fun f hf => ?_
      simp only [emitted_append, mem_append]
      exact .inl (hou f hf)
    · refine .pure fun f hf => ?_
      simpa using hou f hf

theorem resetRetry_moves : Walks P allow (resetRetry P) e Emits := by
  refine .get_bind ?_
  split
  · exact .pure .nil
  rename_i hb
  refine then_emits (q := fun _ _ t => t.core = e.core.next .resetPath)
    (.one (a := .resetPath) ⟨trivial, rfl⟩ fun _ _ => rfl) fun _ _ t ht => ?_
  refine .bind_keeps now_keeps fun _ u hu _ => .bind_keeps (fun _ => rfl) fun _ v hv _ => ?_
  refine .bind_keeps now_keeps fun t' w hw _ => ?_
  have hc : w.core = e.core.next .resetPath := hw.trans (hv.trans (hu.trans ht))
  refine tickBaseError_moves ?_ ?_ t'
  · exact (congrArg Core.baseError hc).trans (by simpa [Core.next, core] using hb)
  · exact (congrArg (fun c : Core => c.flags.baseProbe) hc).trans rfl

private theorem retryOutstanding_moves (now : Time) :
    Walks P allow (retryOutstanding now) e fun acts r t =>
      (∀ out, r = some out → ∀ f ∈ out, f ∈ emitted acts) ∧ (r = none → t = e) := by
  refine .get_bind ?_
  split
  · rename_i kind id ping size attempt frame deadline tries sent ho
    split
    · exact .pure ⟨nofun, fun _ => rfl⟩
    refine .bind_keeps (modifyOutstanding_keeps fun _ => rfl) fun _ t ht _ => ?_
    refine .bind_keeps (retryDelayForOutstanding_keeps _ _) fun _ u hu _ => ?_
    refine .bind_keeps (modifyOutstanding_keeps fun _ => rfl) fun _ v hv _ => ?_
    have hc : v.core = e.core := hv.trans (hu.trans ht)
    refine .one (a := .resend frame) ⟨⟨kind, ?_⟩, rfl⟩ fun r hr => ?_
    · rw [hc]
      simp [core, ho, OutstandingRequest.slot]
    · cases hr
      exact ⟨by simp [Act.frames], nofun⟩
  · exact .pure ⟨nofun, fun _ => rfl⟩

private theorem tickSearch_moves (now : Time) :
    Walks P allow (tickSearch P now) e Emits := by
  refine .get_bind ?_
  cases e.pmtu with
  | none => exact .pure .nil
  | some p =>
    refine then_emits (search_moves fun p => p.call_evolves (.tick now)) fun _ r t _ => ?_
    split
    · refine takeBlackhole_moves _ fun u => .get_bind ?_
      split
      · exact then_emits release_moves fun _ _ _ _ => confirmed_then_probe_moves _ now
      · exact confirmed_then_probe_moves _ now
    · refine .get_bind ?_
      split
      · exact .pure .nil
      refine then_emits (search_moves fun p => p.call_evolves (.refreshDue now)) fun _ r' u _ => ?_
      split
      · exact confirmed_then_probe_moves _ now
      refine then_emits (search_moves fun p => p.call_evolves (.confirmationDue now)) ?_
      intro _ _ v _
      split
      · exact confirmed_then_probe_moves _ now
      · exact .pure .nil

private theorem tickOutstanding_moves (now : Time) (t : Engine) :
    Walks P allow (tickOutstanding P now e) t Emits := by
  unfold tickOutstanding
  split
  · split
    · exact .pure .nil
    · exact enterBaseError_moves.bind fun _ _ _ _ => .pure .nil
  · refine (retryOutstanding_moves now).bind fun acts r u hr => ?_
    cases r with
    | some frames => exact .pure fun f hf => by simpa using hr.1 frames rfl f hf
    | none => exact (tickSearch_moves now).mono fun _ _ _ h => h.after

theorem tick_moves (hba : e.baseError = true → e.core.flags.baseProbe = false) (now : Time) :
    Walks P allow (tick P now) e Emits := by
  refine .get_bind ?_
  split
  · exact .pure .nil
  split
  · rename_i hb
    exact tickBaseError_moves hb (hba hb) now
  split
  · rename_i h
    refine .bind_keeps (onState_keeps fun s => s.localExchangeRetryReady_gates)
      fun ready t ht _ => ?_
    split
    · refine moves_of_progress (sendCapabilitiesHello_moves ?_ (.inr ?_))
      · rw [ht]
        simpa [core] using h.1
      · rw [ht]
        exact h.2
    · exact tickOutstanding_moves now t
  · exact tickOutstanding_moves now e

end Engine
end WgFrag.Control
