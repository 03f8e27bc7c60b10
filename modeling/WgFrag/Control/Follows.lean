import WgFrag.Control.Calls
import WgFrag.Lib.Run

/-! What one engine call does to the gates: an accepted message may open one, and the
elementary steps after it open none. -/
namespace WgFrag.Control
open WgFrag.Lib WgFrag.Wire
variable {m : Control} {c : Core}

/-- The part of `b` that survives elementary steps to `c`. The remote side is not touched; a
confirmed gate is an old one of the same local exchange, and a path gate one that has not
been cleared in between. -/
structure Core.Follows (b c : Core) : Prop where
  config : c.config = b.config
  remoteEpoch : c.remoteEpoch = b.remoteEpoch
  remoteSession : c.remoteSession = b.remoteSession
  selected : c.selected = b.selected
  peerMTU : c.peerMTU = b.peerMTU
  remotePeerMTU : c.flags.remotePeerMTU = b.flags.remotePeerMTU
  resetAck : c.flags.localResetAck = true → b.flags.localResetAck = true ∧
    c.localEpoch = b.localEpoch ∧ c.localSession = b.localSession
  peerMTUAck : c.flags.localPeerMTUAck = true → b.flags.localPeerMTUAck = true ∧
    c.localEpoch = b.localEpoch
  pong : c.flags.pingPong = true → b.flags.pingPong = true ∧ c.localEpoch = b.localEpoch ∧
    c.pathResets = b.pathResets
  baseAck : c.flags.baseProbe = true → b.flags.baseProbe = true ∧ c.localEpoch = b.localEpoch ∧
    c.pathResets = b.pathResets
  pendingAck : c.pendingAck = true →
    (b.pendingAck = true ∧ c.pendingFeatures = b.pendingFeatures ∧ c.localEpoch = b.localEpoch) ∨
      (c.terminal = true ∧ c.remoteEpoch ≠ 0)

theorem Core.Step.terminal {P : Proto} {allow : Guard} {d : Core} {a : Act}
    (h : c.Step P allow a d) (hr : ¬ allow.recover c) (ht : c.terminal = true) :
    d.terminal = true := by
  obtain ⟨hen, rfl⟩ := h
  cases a with
  | recover => exact absurd hen hr
  | terminal => rfl
  | _ => exact ht

namespace Core.Follows
variable {b c : Core} {P : Proto} {allow : Core.Guard}

theorem refl (b : Core) : b.Follows b where
  config := rfl
  remoteEpoch := rfl
  remoteSession := rfl
  selected := rfl
  peerMTU := rfl
  remotePeerMTU := rfl
  resetAck h := ⟨h, rfl, rfl⟩
  peerMTUAck h := ⟨h, rfl⟩
  pong h := ⟨h, rfl, rfl⟩
  baseAck h := ⟨h, rfl, rfl⟩
  pendingAck h := .inl ⟨h, rfl, rfl⟩

theorem resetPath (h : b.Follows c) :
    b.Follows { c with toGates := c.toGates.resetPath, slot := none } :=
  { h with
    pong := of_closed
    baseAck := of_closed }

theorem install (h : b.Follows c) (x : LocalExchange) (t : Time) (started : Bool)
    (slot : Option Slot) :
    b.Follows { c with
      toGates := c.toGates.restart x t, epoch := x.controlEpoch, started := started
      slot := slot, pmtu := none } :=
  { h with
    resetAck := of_closed
    peerMTUAck := of_closed
    pong := of_closed
    baseAck := of_closed
    pendingAck := of_closed }

theorem terminal (h : b.Follows c) (hs : c.Sound) {d : Gates.Drop}
    (hd : d.Enabled c.toGates) : b.Follows (c.next (.terminal d)) := by
  have hr : b.Follows (c.next (.terminal .none)) :=
    { h.resetPath with pendingAck := fun hp => (h.pendingAck hp).imp_right fun h => ⟨rfl, h.2⟩ }
  cases d with
  | none => exact hr
  | capabilities => exact { hr with }
  | features => exact { hr with pendingAck := fun _ => .inr ⟨rfl, hs.remote.mp hd.1⟩ }
  | reset => exact { hr with resetAck := of_closed }
  | peerMTU => exact { hr with peerMTUAck := of_closed }

/-- `hr` says that a terminal error is cleared at the start or not at all. -/
theorem step {a : Act} {d : Core} (hr : ∀ c, b.Follows c → allow.recover c → c = b)
    (hst : c.Step P allow a d) (hs : c.Sound) (h : b.Follows c) : b.Follows d := by
  obtain ⟨hen, rfl⟩ := hst
  cases a with
  | respond | replay | resend | sync => exact h
  | remember => exact { h with }
  | begin x => exact h.install x c.retryAt true none
  | restart x t => exact h.install x t c.started c.slot
  | send | release => exact { h with }
  | resetPath => exact h.resetPath
  | baseError => exact { h.resetPath with }
  | terminal => exact h.terminal hs hen
  | recover =>
    obtain rfl := hr c h hen
    exact { refl c with pendingAck := fun h => .inl ⟨h, rfl, rfl⟩ }
  | dropReset => exact { h with resetAck := of_closed }
  | search => exact { h with }
  | blackhole => exact { h.resetPath with }

end Core.Follows

theorem Core.accept_hello_new (h : CapabilitiesHello) (hch : c.Changes m.controlEpoch) :
    (c.accept m (.hello h)).toGates = c.toGates.forget.install m.controlEpoch h :=
  congrArg (Gates.install · m.controlEpoch h) (if_pos hch)

theorem Core.accept_hello_same (h : CapabilitiesHello) (hch : ¬ c.Changes m.controlEpoch) :
    (c.accept m (.hello h)).toGates = c.toGates.install m.controlEpoch h :=
  congrArg (Gates.install · m.controlEpoch h) (if_neg hch)

/-- A gate that is open after an accepted Hello was open before, and the Hello changed no
epoch. -/
theorem Core.hello_open {h : CapabilitiesHello} {F : Flags → Bool}
    (hfo : F { remoteCapabilities := true } = false)
    (hi : ∀ f l, F { f with remoteCapabilities := true, localCapabilities := l } = F f)
    (ho : F (c.accept m (.hello h)).flags = true) :
    F c.flags = true ∧ (c.accept m (.hello h)).toGates = c.toGates.install m.controlEpoch h ∧
      ¬ c.Changes m.controlEpoch := by
  by_cases hch : c.Changes m.controlEpoch
  · have hf : (c.accept m (.hello h)).flags = { remoteCapabilities := true } :=
      congrArg Gates.flags (accept_hello_new h hch)
    rw [hf, hfo] at ho
    cases ho
  · have heq := accept_hello_same h hch
    rw [heq] at ho
    exact ⟨(hi c.flags _).symm.trans ho, heq, hch⟩

theorem Core.Sound.same_epoch {epoch : UInt64} (hs : c.Sound)
    (h : c.flags.remoteCapabilities = true) (hch : ¬ c.Changes epoch) : epoch = c.remoteEpoch :=
  Decidable.byContradiction fun hne => hch ⟨hs.remote.mp h, Ne.symm hne⟩

namespace Engine
variable {P : Proto} {e : Engine} {i : Call} {m : Control}
variable {a : Accepted}

theorem Took.unique {m' : Control} {a' : Accepted} (h : e.Took P i m a) (h' : e.Took P i m' a') :
    m = m' := by
  obtain ⟨_, rfl, _, _, ha, -⟩ := h
  obtain ⟨_, hf, _, _, ha', -⟩ := h'
  cases hf
  rw [ha] at ha'
  cases ha'
  rfl

theorem Took.admits (h : e.Took P i m a) : e.core.Admits m a := by
  obtain ⟨frame, rfl, _, t, had, ha⟩ := h
  have hk : t.core = e.core := by
    have := intake_keeps (P := P) frame e
    rwa [had] at this
  exact hk ▸ ha.admits

/-- The message tells which kind of event its acceptance is. -/
theorem Took.hello_unique {h : CapabilitiesHello} (hh : e.core.Admits m (.hello h))
    (ha : e.core.Admits m a) : a = .hello h := by
  have hb := hh.1
  cases a with
  | hello =>
    rw [ha.1] at hb
    cases hb
    rfl
  | _ =>
    rw [ha.1] at hb
    cases hb

/-- A terminal error is cleared before any other step. -/
theorem recover_start {b c : Core} (ho : e.Opens P i b) (hf : b.Follows c)
    (hr : (e.guard P i).recover c) : c = b := by
  obtain ⟨m, _, ht, hc, rfl⟩ := hr
  have ha := ht.admits
  obtain rfl | ⟨_, _, ht', ha', rfl⟩ := ho
  · have hep : m.controlEpoch = e.core.remoteEpoch := hf.remoteEpoch
    rcases hc with h0 | hch
    · exact absurd (hep.trans h0) ha.2.1
    · exact absurd hep.symm hch.2
  · obtain rfl := ht.unique ht'
    rw [Took.hello_unique ha ha']

/-- A call opens with at most one accepted message; what follows opens no gate. -/
theorem call_follows (hs : e.core.Sound) (i : Call) :
    ∃ b, e.Opens P i b ∧ b.Follows (call P i e).2.core ∧
      (¬ (e.guard P i).recover b → b.terminal = true → (call P i e).2.core.terminal = true) := by
  obtain ⟨b, _, ho, hch, -⟩ := call_refines (P := P) hs i
  refine ⟨b, ho, ?_⟩
  have hsa : ∀ c, b.Follows c → (e.guard P i).recover c → c = b := fun _ => recover_start ho
  have hi := hch.invariant (I := fun c => c.Sound ∧ b.Follows c ∧
      (¬ (e.guard P i).recover b → b.terminal = true → c.terminal = true)) ?_
    ⟨ho.sound hs, .refl b, fun _ h => h⟩
  · exact hi.2
  rintro c _ _ hst ⟨hc, hf, ht⟩
  refine ⟨hc.step hst, hf.step hsa hst hc, fun hr hb => ?_⟩
  refine hst.terminal (fun h => hr ?_) (ht hr hb)
  rwa [← hsa c hf h]

theorem call_config (hs : e.core.Sound) (i : Call) :
    (call P i e).2.core.config = e.core.config := by
  obtain ⟨_, ho, hf, -⟩ := call_follows (P := P) hs i
  rw [hf.config]
  obtain rfl | ⟨m, a, -, -, rfl⟩ := ho
  · rfl
  cases a with
  | hello hello =>
    by_cases hch : e.core.Changes m.controlEpoch
    · rw [Core.accept_hello_new hello hch]
      rfl
    · rw [Core.accept_hello_same hello hch]
      rfl
  | _ => rfl

/-- A call begins at most one exchange, and the remote epoch stays as it was then. -/
theorem call_exchanges (hs : e.core.Sound) (i : Call) :
    (call P i e).2.core.exchanges = e.core.exchanges ∧
        (call P i e).2.core.localEpoch = e.core.localEpoch ∨
      ∃ (c : Core) (x : LocalExchange), e.Begins P c i ∧ x.controlEpoch ≠ 0 ∧
        (call P i e).2.core.exchanges = x :: e.core.exchanges ∧
        (call P i e).2.core.localEpoch = x.controlEpoch ∧
        (call P i e).2.core.remoteEpoch = c.remoteEpoch := by
  obtain ⟨b, _, ho, hca, -⟩ := call_refines (P := P) hs i
  have hb : b.exchanges = e.core.exchanges ∧ b.localEpoch = e.core.localEpoch := by
    obtain rfl | ⟨m, a, -, -, rfl⟩ := ho
    · exact ⟨rfl, rfl⟩
    cases a with
    | hello hello =>
      by_cases hch : e.core.Changes m.controlEpoch
      · rw [Core.accept_hello_new hello hch]
        exact ⟨rfl, rfl⟩
      · rw [Core.accept_hello_same hello hch]
        exact ⟨rfl, rfl⟩
    | _ => exact ⟨rfl, rfl⟩
  refine hca.invariant (I := fun d => d.exchanges = e.core.exchanges ∧
      d.localEpoch = e.core.localEpoch ∨ ∃ (c : Core) (x : LocalExchange), e.Begins P c i ∧
        x.controlEpoch ≠ 0 ∧ d.exchanges = x :: e.core.exchanges ∧
        d.localEpoch = x.controlEpoch ∧ d.remoteEpoch = c.remoteEpoch) ?_ (.inl hb)
  rintro c a _ ⟨hen, rfl⟩ hc
  cases a with
  | begin x =>
    obtain ⟨⟨hbe, hfs⟩, hf⟩ := hen
    exact .inr ⟨c, x, hbe, hf.epoch_ne, congrArg _ hfs, rfl, rfl⟩
  | restart x =>
    obtain ⟨⟨hbe, hfs⟩, hf, -⟩ := hen
    exact .inr ⟨c, x, hbe, hf.epoch_ne, congrArg _ hfs, rfl, rfl⟩
  | terminal d => cases d <;> exact hc
  | _ => exact hc

/-- Once a Hello has been accepted, the remote epoch is known for good. -/
theorem call_remote (hs : e.core.Sound) (i : Call) (h : e.core.remoteEpoch ≠ 0) :
    (call P i e).2.core.remoteEpoch ≠ 0 := by
  obtain ⟨_, ho, hf, -⟩ := call_follows (P := P) hs i
  rw [hf.remoteEpoch]
  obtain rfl | ⟨_, a, -, ha, rfl⟩ := ho
  · exact h
  cases a with
  | hello => exact ha.2.1
  | _ => exact h

/-- An engine under the calls of its owner. -/
def machine (P : Proto) (e₀ : Engine) : Machine Engine Call where
  init := e₀
  step e i := (call P i e).2

theorem run_sound {config : EngineConfig} {e0 : Engine} (hn : Engine.new config = .ok e0)
    (calls : List Call) :
    ((machine P e0).after calls).core.Sound ∧
      ((machine P e0).after calls).core.config = config.state :=
  (machine P e0).invariant (I := fun e => e.core.Sound ∧ e.core.config = config.state)
    ⟨new_sound hn, congrArg (fun c => c.config) (new_core hn).2⟩
    (fun _ i h => ⟨call_sound h.1 i, (call_config h.1 i).trans h.2⟩) calls

end Engine
end WgFrag.Control
