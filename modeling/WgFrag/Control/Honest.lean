import WgFrag.Control.Follows

/-! What the frames of an engine say about it. A Hello carries its capabilities, a PeerMTU its
inner MTU, a ResetSequence the session of one of its exchanges, and an accepting reply to a
ResetSequence names a session that it has accepted. -/
namespace WgFrag.Control
open WgFrag.Lib WgFrag.Wire List

/-- `d` comes after `c` in the life of one engine. -/
structure Core.Extends (c d : Core) : Prop where
  config : d.config = c.config
  exchanges : c.exchanges ⊆ d.exchanges

theorem Core.Extends.refl (c : Core) : c.Extends c := ⟨rfl, List.Subset.refl _⟩

theorem Core.Extends.trans {b c d : Core} (h : b.Extends c) (h' : c.Extends d) : b.Extends d :=
  ⟨h'.config.trans h.config, List.Subset.trans h.exchanges h'.exchanges⟩

namespace Core

/-- `adopted` holds the sessions that the engine has accepted, each with the remote epoch. -/
def Says (adopted : UInt64 → UInt16 → Prop) (c : Core) (epoch : UInt64) : Body → Prop
  | .capabilitiesHello h => h = c.config.capabilities
  | .peerMTU mtu => mtu = c.config.localPeerMTU
  | .resetSequence session =>
    epoch ≠ 0 → ∃ x ∈ c.exchanges, x.controlEpoch = epoch ∧ x.dataSessionID.toUInt32 = session
  | .resetSequenceAck ack =>
    ack.result = .accepted → ∃ session, ack.dataSessionID = session.toUInt32 ∧ adopted epoch session
  | _ => True

/-- A frame that carries a true message. -/
def Honest (P : Proto) (adopted : UInt64 → UInt16 → Prop) (c : Core) (frame : Bytes) : Prop :=
  ∃ m body, frame = encodeFrame (P.marshal m) ∧ m.body = some body ∧
    c.Says adopted m.controlEpoch body

/-- The installed remote session was accepted, and every frame kept for sending is true. -/
structure Truthful (P : Proto) (adopted : UInt64 → UInt16 → Prop) (c : Core) : Prop where
  session : c.remoteSession ≠ 0 → c.remoteEpoch ≠ 0 ∧ adopted c.remoteEpoch c.remoteSession
  request : ∀ kind frame, c.slot = some ⟨kind, some frame⟩ → c.Honest P adopted frame
  replay : ∀ entry, some entry ∈ c.replay → c.Honest P adopted entry.frame

variable {P : Proto} {adopted adopted' : UInt64 → UInt16 → Prop} {c d : Core} {frame : Bytes}

theorem Says.mono {epoch : UInt64} {body : Body} (h : c.Says adopted epoch body)
    (he : c.Extends d) (hsu : ∀ epoch session, adopted epoch session → adopted' epoch session) :
    d.Says adopted' epoch body := by
  cases body with
  | capabilitiesHello hello =>
    show hello = d.config.capabilities
    rw [he.config]
    exact h
  | peerMTU mtu =>
    show mtu = d.config.localPeerMTU
    rw [he.config]
    exact h
  | resetSequence =>
    intro hne
    obtain ⟨x, hx, hep, hs⟩ := h hne
    exact ⟨x, he.exchanges hx, hep, hs⟩
  | resetSequenceAck =>
    intro ha
    obtain ⟨session, hid, hin⟩ := h ha
    exact ⟨session, hid, hsu _ _ hin⟩
  | _ => trivial

theorem Honest.mono (h : c.Honest P adopted frame) (he : c.Extends d)
    (hs : ∀ epoch session, adopted epoch session → adopted' epoch session) :
    d.Honest P adopted' frame := by
  obtain ⟨m, body, hfr, hb, hsaid⟩ := h
  exact ⟨m, body, hfr, hb, hsaid.mono he hs⟩

theorem Replied.honest (ht : c.Truthful P adopted) (h : c.Replied P frame) :
    c.Honest P adopted frame := by
  obtain ⟨m, body, hfr, -, hb, hr⟩ := h
  refine ⟨m, body, hfr, hb, ?_⟩
  cases body with
  | resetSequenceAck =>
    intro ha
    obtain ⟨hep, hs, hne⟩ := hr ha
    rw [hep]
    exact ⟨c.remoteSession, hs, (ht.session hne).2⟩
  | capabilitiesHello | resetSequence | peerMTU => exact hr.elim
  | _ => trivial

theorem Requested.honest (hs : c.Sound) {kind : RequestKind} (h : c.Requested P kind frame) :
    c.Honest P adopted frame := by
  obtain ⟨m, body, hfr, hb, hep, hr⟩ := h
  refine ⟨m, body, hfr, hb, ?_⟩
  cases kind with
  | capabilities => rw [hr.1]; rfl
  | reset =>
    rw [hr.1]
    intro hne
    rw [hep, hs.epoch] at hne ⊢
    exact ⟨_, (hs.installed hne).1, rfl, rfl⟩
  | peerMTU => rw [hr.1]; rfl
  | ping =>
    obtain ⟨_, rfl⟩ := hr.1
    trivial
  | baseProbe | pmtuProbe => rw [hr.1]; trivial

namespace Truthful
variable {allow : Guard} {a : Act}

theorem mono (ht : c.Truthful P adopted)
    (hs : ∀ epoch session, adopted epoch session → adopted' epoch session) :
    c.Truthful P adopted' where
  session hne := ⟨(ht.session hne).1, hs _ _ (ht.session hne).2⟩
  request kind frame h := (ht.request kind frame h).mono (.refl c) hs
  replay entry h := (ht.replay entry h).mono (.refl c) hs

theorem of_extends (ht : c.Truthful P adopted) (he : c.Extends d)
    (hs : d.remoteSession = c.remoteSession) (hep : d.remoteEpoch = c.remoteEpoch)
    (hsl : d.slot = c.slot ∨ d.slot = none) (hr : d.replay = c.replay) :
    d.Truthful P adopted where
  session hne := by
    rw [hs] at hne ⊢
    rw [hep]
    exact ht.session hne
  request kind frame h := by
    rcases hsl with hsl | hsl
    · rw [hsl] at h
      exact (ht.request kind frame h).mono he fun _ _ => id
    · rw [hsl] at h
      cases h
  replay entry h := by
    rw [hr] at h
    exact (ht.replay entry h).mono he fun _ _ => id

private theorem extends_of_step (hst : c.Step P allow a d) : c.Extends d := by
  obtain ⟨-, rfl⟩ := hst
  cases a with
  | begin | restart => exact ⟨rfl, subset_cons_self _ _⟩
  | terminal drop => cases drop <;> exact ⟨rfl, List.Subset.refl _⟩
  | _ => exact ⟨rfl, List.Subset.refl _⟩

theorem emits (hs : c.Sound) (ht : c.Truthful P adopted) (hen : c.Enabled P allow a) :
    ∀ f ∈ a.frames, c.Honest P adopted f := by
  intro f hf
  cases a with
  | respond =>
    cases mem_singleton.mp hf
    exact Replied.honest ht hen
  | replay =>
    cases mem_singleton.mp hf
    obtain ⟨entry, hmem, hfr⟩ := hen
    rw [← hfr]
    exact ht.replay entry hmem
  | resend =>
    cases mem_singleton.mp hf
    obtain ⟨kind, hsl⟩ := hen
    exact ht.request kind f hsl
  | sync =>
    cases mem_singleton.mp hf
    obtain ⟨m, _, hfr, hb⟩ := hen
    exact ⟨m, _, hfr, hb, trivial⟩
  | send =>
    cases mem_singleton.mp hf
    exact Requested.honest hs hen.2
  | _ => cases hf

theorem step (hs : c.Sound) (ht : c.Truthful P adopted) (hst : c.Step P allow a d) :
    d.Truthful P adopted := by
  have he := extends_of_step hst
  obtain ⟨hen, rfl⟩ := hst
  cases a with
  | remember =>
    refine { ht with replay := fun entry hmem => ?_ }
    rcases hen entry hmem with hold | hn
    · exact ht.replay entry hold
    · exact (Replied.honest ht hn).mono he fun _ _ => id
  | send kind frame =>
    refine { ht with request := fun kind' frame' h => ?_ }
    have hfr : (if kind = .pmtuProbe then none else some frame) = some frame' :=
      congrArg Slot.frame (Option.some.inj h)
    split_ifs at hfr
    cases hfr
    exact (Requested.honest hs hen.2).mono he fun _ _ => id
  | terminal drop =>
    cases drop <;> exact ht.of_extends he rfl rfl (.inr rfl) rfl
  | begin | release | resetPath | baseError | blackhole =>
    exact ht.of_extends he rfl rfl (.inr rfl) rfl
  | _ => exact ht.of_extends he rfl rfl (.inl rfl) rfl

/-- Along the steps of a call every emitted frame is true, also of the engine at the end. -/
theorem chain {acts : List Act} (h : Chain (Core.Step P allow) c acts d) (hs : c.Sound)
    (ht : c.Truthful P adopted) :
    d.Truthful P adopted ∧ c.Extends d ∧ ∀ f ∈ emitted acts, d.Honest P adopted f := by
  induction h with
  | nil c => exact ⟨ht, .refl c, fun f hf => by cases hf⟩
  | @cons c _ d _ _ hst _ ih =>
    obtain ⟨htr, he, ho⟩ := ih (hs.step hst) (ht.step hs hst)
    have hfs : c.Extends d := (extends_of_step hst).trans he
    refine ⟨htr, hfs, fun f hf => ?_⟩
    rw [emitted_cons, mem_append] at hf
    rcases hf with hf | hf
    · exact (ht.emits hs hst.1 f hf).mono hfs fun _ _ => id
    · exact ho f hf

theorem extends_of_accept (c : Core) (m : Control) (a : Accepted) : c.Extends (c.accept m a) := by
  cases a with
  | hello hello =>
    have hg : (c.accept m (.hello hello)).toGates = c.toGates.hello m.controlEpoch hello := rfl
    constructor
    · rw [hg, Gates.hello]
      split <;> rfl
    · rw [hg, Gates.hello]
      split <;> exact List.Subset.refl _
  | _ => exact ⟨rfl, List.Subset.refl _⟩

/-- Only a ResetSequence installs a session; a Hello of another epoch forgets it. -/
theorem accept {m : Control} {a : Accepted} (ht : c.Truthful P adopted) (ha : c.Admits m a)
    (hs : ∀ session, a = .resetSequence session → adopted m.controlEpoch session) :
    (c.accept m a).Truthful P adopted := by
  have he := extends_of_accept c m a
  cases a with
  | hello hello =>
    refine ⟨fun hne => ?_, fun kind frame h => (ht.request kind frame h).mono he fun _ _ => id,
      fun entry h => (ht.replay entry h).mono he fun _ _ => id⟩
    by_cases hch : c.Changes m.controlEpoch
    · rw [accept_hello_new hello hch] at hne
      exact absurd rfl hne
    rw [accept_hello_same hello hch] at hne ⊢
    obtain ⟨hep, hin⟩ := ht.session hne
    have heq : c.remoteEpoch = m.controlEpoch := Decidable.byContradiction fun h => hch ⟨hep, h⟩
    rw [heq] at hin
    exact ⟨ha.2.1, hin⟩
  | resetSequence session =>
    obtain ⟨-, hr, -⟩ := ha
    refine ⟨fun _ => ?_, fun kind frame h => (ht.request kind frame h).mono he fun _ _ => id,
      fun entry h => (ht.replay entry h).mono he fun _ _ => id⟩
    have hin := hs session rfl
    rw [hr.epoch] at hin
    exact ⟨hr.epoch ▸ hr.epoch_ne, hin⟩
  | baseProbeAck => exact ht.of_extends he rfl rfl (.inr rfl) rfl
  | _ => exact ht.of_extends he rfl rfl (.inl rfl) rfl

end Truthful
end Core

namespace Engine
variable {P : Proto} {e : Engine}
variable {epoch : UInt64} {e₀ : Engine} {session : UInt16} {config : EngineConfig}

/-- The call accepts a ResetSequence for the session under the epoch. -/
def TookReset (P : Proto) (epoch : UInt64) (session : UInt16) (e : Engine) (i : Call) : Prop :=
  ∃ m, e.Took P i m (.resetSequence session) ∧ m.controlEpoch = epoch

/-- The sessions accepted in a run, each with the remote epoch of its ResetSequence. -/
def Adopted (P : Proto) (e₀ : Engine) (calls : List Call) (epoch : UInt64) (session : UInt16) :
    Prop :=
  (machine P e₀).Since (fun _ => True)
    (fun older => TookReset P epoch session ((machine P e₀).after older)) calls

theorem intake_handled {frame : Bytes} {m : Control} {body : Body} {t : Engine}
    (h : e.intake P frame = (.ok (.handled m body), t)) :
    decode P e.codec frame = some m ∧ m.body = some body := by
  obtain ⟨_, _, hd, hr⟩ := intake_cases h
  obtain ⟨rfl, rfl⟩ := admission_handled (hr.resolve_left Admission.noConfusion).symm
  obtain ⟨_, hp, hm, hb, -⟩ := decodeInbound_ok hd
  refine ⟨?_, hb⟩
  rw [decode, hp]
  exact hm

/-- The session of an accepted ResetSequence is installed when the call returns. -/
theorem TookReset.installs {i : Call} (hs : e.core.Sound)
    (h : TookReset P epoch session e i) : (call P i e).2.core.remoteSession = session := by
  obtain ⟨m, ⟨frame, rfl, body, t, hin, ha⟩, -⟩ := h
  obtain ⟨-, hb⟩ := intake_handled hin
  have hk : t.core = e.core := by
    have hv := intake_keeps (P := P) frame e
    rwa [hin] at hv
  have hp : t.remoteEpoch = t.state.remoteEpoch := (hk ▸ hs : t.core.Sound).peer
  have hr := handleReset_session (P := P) ha hp session.toUInt32
  obtain rfl : body = .resetSequence session.toUInt32 := Option.mem_unique hb ha.1
  have hrun : (call P (.handleInbound frame) e).2 =
      (handleMessage P m (UInt32.ofNat frame.length) (.resetSequence session.toUInt32) t).2 := by
    simp only [call, handleInbound, Eff.bind_apply, hin]
  rw [hrun, handleMessage, Eff.bind_apply, dispatch]
  cases hd : handleReset P m session.toUInt32 t with
  | mk r =>
    rw [hd] at hr
    cases r with
    | error => exact hr
    | ok out => exact (congrArg Gates.remoteSession (rememberReset_gates out)).trans hr

theorem TookReset.known {i : Call} (hs : e.core.Sound)
    (h : TookReset P epoch session e i) : (call P i e).2.core.remoteEpoch ≠ 0 := by
  obtain ⟨_, ht, -⟩ := h
  exact call_remote hs i (hs.remote.mp ht.admits.2.1.known)

theorem call_session (hs : e.core.Sound) (i : Call) (h : e.core.remoteSession ≠ 0)
    (heq : (call P i e).2.core.remoteEpoch = e.core.remoteEpoch) :
    (call P i e).2.core.remoteSession ≠ 0 := by
  obtain ⟨_, ho, hf, -⟩ := call_follows (P := P) hs i
  rw [hf.remoteEpoch] at heq
  rw [hf.remoteSession]
  obtain rfl | ⟨m, a, -, ha, rfl⟩ := ho
  · exact h
  cases a with
  | hello hello =>
    have hch : ¬ e.core.Changes m.controlEpoch := fun hch => hch.2 heq.symm
    rw [Core.accept_hello_same hello hch]
    exact h
  | resetSequence => exact ha.2.2
  | _ => exact h

theorem session_since (hn : Engine.new config = .ok e₀) {calls : List Call}
    (h : (machine P e₀).Since (fun s => s.core.remoteEpoch = epoch)
      (fun older => TookReset P epoch session ((machine P e₀).after older)) calls) :
    ((machine P e₀).after calls).core.remoteSession ≠ 0 := by
  induction calls with
  | nil => exact h.elim
  | cons i older ih =>
    obtain ⟨hep, ht | hs⟩ := h
    · have hi := ht.installs (run_sound hn older).1
      obtain ⟨_, ht, -⟩ := ht
      exact hi.trans_ne ht.admits.2.2
    · have hb : ((machine P e₀).after older).core.remoteEpoch = epoch := hs.now
      exact call_session (run_sound hn older).1 i (ih hs) (hep.trans hb.symm)

theorem adopted_known (hn : Engine.new config = .ok e₀) {calls : List Call}
    (h : Adopted P e₀ calls epoch session) : ((machine P e₀).after calls).core.remoteEpoch ≠ 0 := by
  induction calls with
  | nil => exact h.elim
  | cons i older ih =>
    obtain ⟨-, ht | hs⟩ := h
    · exact ht.known (run_sound hn older).1
    · exact call_remote (run_sound hn older).1 i (ih hs)

/-- Every frame that a call returns is true of the engine after the call. -/
theorem call_honest {adopted : UInt64 → UInt16 → Prop} (hs : e.core.Sound) (i : Call)
    (ht : e.core.Truthful P adopted)
    (hss : ∀ epoch session, TookReset P epoch session e i → adopted epoch session) :
    (call P i e).2.core.Truthful P adopted ∧ e.core.Extends (call P i e).2.core ∧
      ∀ out, (call P i e).1 = .ok out → ∀ f ∈ out, (call P i e).2.core.Honest P adopted f := by
  obtain ⟨c, _, ho, hch, hou⟩ := call_refines (P := P) hs i
  have hc : c.Truthful P adopted ∧ e.core.Extends c := by
    obtain rfl | ⟨m, _, htk, ha, rfl⟩ := ho
    · exact ⟨ht, .refl _⟩
    constructor
    · apply ht.accept ha
      rintro _ rfl
      exact hss _ _ ⟨m, htk, rfl⟩
    · exact Core.Truthful.extends_of_accept _ _ _
  obtain ⟨htr, he, hse⟩ := Core.Truthful.chain hch (ho.sound hs) hc.1
  refine ⟨htr, hc.2.trans he, fun out hok f hf => ?_⟩
  exact hse f (hou out hok f hf)

theorem run_truthful (hn : Engine.new config = .ok e₀)
    (calls : List Call) : ((machine P e₀).after calls).core.Truthful P (Adopted P e₀ calls) := by
  induction calls with
  | nil =>
    show e₀.core.Truthful P _
    rw [(new_core hn).2]
    refine ⟨fun h => absurd rfl h, fun kind frame h => ?_, fun entry h => ?_⟩
    · cases h
    · cases eq_of_mem_replicate h
  | cons i older ih =>
    have hg : ((machine P e₀).after older).core.Truthful P (Adopted P e₀ (i :: older)) :=
      ih.mono fun _ _ h => ⟨trivial, .inr h⟩
    exact (call_honest (run_sound hn older).1 i hg fun _ _ h => ⟨trivial, .inl h⟩).1

end Engine
end WgFrag.Control
