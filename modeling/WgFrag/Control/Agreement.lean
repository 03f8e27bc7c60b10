import Mathlib.Data.List.Nodup
import WgFrag.Control.Honest
import WgFrag.Control.Pair
import WgFrag.Wire.Protobuf

/-! Two engines that are never replaced: what one of them holds about the other is what the
other has said, so an open DATA gate agrees with the state of the peer. -/
namespace WgFrag.Control
open WgFrag.Lib WgFrag.Wire List

/-- What `c` has confirmed is what its peer has accepted, and what it knows of the peer is what
the peer is configured with. `adopted` holds the sessions that the peer has accepted. -/
structure Core.Agrees (adopted : UInt64 → UInt16 → Prop) (c peer : Core) : Prop where
  confirmed : c.flags.localResetAck = true → adopted c.localEpoch c.localSession
  peerMTU : c.flags.remotePeerMTU = true → c.peerMTU = peer.config.localPeerMTU
  selected : c.remoteEpoch ≠ 0 →
    c.selected = c.config.supportedFeatureBits &&& peer.config.supportedFeatureBits
  session : c.remoteSession ≠ 0 →
    c.remoteEpoch ≠ 0 ∧ ⟨c.remoteEpoch, c.remoteSession⟩ ∈ peer.exchanges

namespace Core.Agrees
variable {adopted adopted' : UInt64 → UInt16 → Prop} {peer peer' b c : Core} {m : Control}

theorem mono (h : c.Agrees adopted peer) (he : peer.Extends peer')
    (hs : ∀ epoch session, adopted epoch session → adopted' epoch session) :
    c.Agrees adopted' peer' where
  confirmed hr := hs _ _ (h.confirmed hr)
  peerMTU hp := by
    rw [he.config]
    exact h.peerMTU hp
  selected hne := by
    rw [he.config]
    exact h.selected hne
  session hne := ⟨(h.session hne).1, he.exchanges (h.session hne).2⟩

/-- The elementary steps of a call confirm nothing and leave the remote side alone. -/
theorem follows (h : b.Agrees adopted peer) (hf : b.Follows c) : c.Agrees adopted peer where
  confirmed hr := by
    obtain ⟨ho, hep, hs⟩ := hf.resetAck hr
    rw [hep, hs]
    exact h.confirmed ho
  peerMTU hp := by
    rw [hf.remotePeerMTU] at hp
    rw [hf.peerMTU]
    exact h.peerMTU hp
  selected hne := by
    rw [hf.remoteEpoch] at hne
    rw [hf.selected, hf.config]
    exact h.selected hne
  session hne := by
    rw [hf.remoteSession] at hne
    rw [hf.remoteEpoch, hf.remoteSession]
    exact h.session hne

/-- A Hello of the peer. One of another epoch starts from nothing. -/
theorem hello (h : c.Agrees adopted peer) {hello : CapabilitiesHello}
    (hsaid : hello = peer.config.capabilities) :
    (c.accept m (.hello hello)).Agrees adopted peer := by
  have hf : hello.supportedFeatureBits = peer.config.supportedFeatureBits := by
    rw [hsaid]
    rfl
  by_cases hch : c.Changes m.controlEpoch
  · have hg := accept_hello_new hello hch
    constructor
    · intro hr
      rw [hg] at hr
      exact absurd hr Bool.false_ne_true
    · intro hp
      rw [hg] at hp
      exact absurd hp Bool.false_ne_true
    · intro _
      rw [hg, ← hf]
      rfl
    · intro hne
      rw [hg] at hne
      exact absurd rfl hne
  · have hg := accept_hello_same hello hch
    constructor
    · intro hr
      rw [hg] at hr ⊢
      exact h.confirmed hr
    · intro hp
      rw [hg] at hp ⊢
      exact h.peerMTU hp
    · intro _
      rw [hg, ← hf]
      rfl
    · intro hne
      rw [hg] at hne ⊢
      obtain ⟨hk, hold⟩ := h.session hne
      have heq : c.remoteEpoch = m.controlEpoch :=
        Decidable.byContradiction fun ho => hch ⟨hk, ho⟩
      rw [heq] at hk hold
      exact ⟨hk, hold⟩

theorem accept (h : c.Agrees adopted peer) {a : Accepted} {body : Body} (had : c.Admits m a)
    (hbd : m.body = some body) (hsaid : peer.Says adopted m.controlEpoch body) :
    (c.accept m a).Agrees adopted peer := by
  cases a with
  | hello =>
    cases hbd.symm.trans had.1
    exact h.hello hsaid
  | resetSequence session =>
    obtain ⟨hb, hre, -⟩ := had
    cases hbd.symm.trans hb
    obtain ⟨_, hx, hep, hs⟩ := hsaid hre.epoch_ne
    have hin : (⟨c.remoteEpoch, session⟩ : LocalExchange) ∈ peer.exchanges := by
      rw [← hre.epoch, ← hep, ← UInt16.toUInt32_inj.mp hs]
      exact hx
    exact { h with session := fun _ => ⟨hre.epoch ▸ hre.epoch_ne, hin⟩ }
  | resetSequenceAck =>
    obtain ⟨hb, -, hep, ha, hid⟩ := had
    cases hbd.symm.trans hb
    obtain ⟨_, hs, hin⟩ := hsaid ha
    rw [hep, UInt16.toUInt32_inj.mp (hs.symm.trans hid)] at hin
    exact { h with confirmed := fun _ => hin }
  | peerMTU =>
    cases hbd.symm.trans had.1
    exact { h with peerMTU := fun _ => hsaid }
  | stateSync => exact { h with confirmed := fun hr => absurd hr Bool.false_ne_true }
  | _ => exact { h with }

end Core.Agrees

/-- A call on one engine, when a frame it is handed says the truth about the peer. -/
theorem Engine.call_agrees {P : Proto} {e : Engine} {adopted : UInt64 → UInt16 → Prop} {peer : Core}
    (hP : P.Lawful) (hs : e.core.Sound) (i : Engine.Call) (h : e.core.Agrees adopted peer)
    (ht : ∀ frame, i = .handleInbound frame → peer.Honest P adopted frame) :
    (call P i e).2.core.Agrees adopted peer := by
  obtain ⟨_, ho, hf, -⟩ := call_follows (P := P) hs i
  refine Core.Agrees.follows ?_ hf
  obtain rfl | ⟨_, _, ⟨frame, hi, _, _, hin, -⟩, ha, rfl⟩ := ho
  · exact h
  obtain ⟨_, _, hfr, hb, hsaid⟩ := ht frame hi
  obtain ⟨hd, -⟩ := intake_handled hin
  rw [hfr] at hd
  obtain rfl := decode_encodeFrame hP hd
  exact h.accept ha hb hsaid

namespace Pair
variable (P : Proto)

/-- The sessions that one side has accepted in a run. -/
def adopted (s : Pair) (d : Side) (xs : List Input) : UInt64 → UInt16 → Prop :=
  Engine.Adopted P (s.get d).engine (calls P s d xs)

/-- Every frame in flight is true of its sender, and each side agrees with the other. -/
structure Consistent (s : Pair) (xs : List Input) (d : Side) : Prop where
  sent : ∀ f ∈ (((machine P s).after xs).get d).sent,
    (((machine P s).after xs).get d).engine.core.Honest P (adopted P s d xs) f
  agrees : (((machine P s).after xs).get d).engine.core.Agrees (adopted P s d.other xs)
    (((machine P s).after xs).get d.other).engine.core

variable {P} {s : Pair} {x : Input} {xs : List Input}

/-- What one input does to one side, and which sessions it has accepted then. -/
theorem cons_extends (hn : s.New) (hxs : ∀ y ∈ x :: xs, ¬ y.IsReplace) (d : Side) :
    (((machine P s).after xs).get d).engine.core.Extends
        (((machine P s).after (x :: xs)).get d).engine.core ∧
      (∀ epoch session, adopted P s d xs epoch session → adopted P s d (x :: xs) epoch session) ∧
      ((∀ f ∈ (((machine P s).after xs).get d).sent,
        (((machine P s).after xs).get d).engine.core.Honest P (adopted P s d xs) f) →
        ∀ f ∈ (((machine P s).after (x :: xs)).get d).sent,
          (((machine P s).after (x :: xs)).get d).engine.core.Honest P
            (adopted P s d (x :: xs)) f) := by
  obtain ⟨⟨_, hcf⟩, -⟩ := hn d
  have hxs' : ∀ y ∈ xs, ¬ y.IsReplace := fun y hy => hxs y (mem_cons_of_mem x hy)
  have he := after_engine P s d hxs'
  obtain ⟨hge, hc⟩ | ⟨i, -, hge, hc⟩ := after_cons P s d xs (hxs x mem_cons_self)
  · rw [adopted, adopted, hge, hc]
    exact ⟨.refl _, fun _ _ => id, id⟩
  have hg : ∀ epoch session, adopted P s d xs epoch session →
      adopted P s d (x :: xs) epoch session := by
    intro epoch session h
    rw [adopted, hc]
    exact ⟨trivial, .inr h⟩
  have ht := (Engine.run_truthful (P := P) hcf (calls P s d xs)).mono hg
  have hsn := (Engine.run_sound (P := P) hcf (calls P s d xs)).1
  rw [← he] at ht hsn
  obtain ⟨-, hex, ho⟩ := Engine.call_honest hsn i ht fun epoch session h => by
    rw [adopted, hc]
    rw [he] at h
    exact ⟨trivial, .inl h⟩
  rw [hge]
  refine ⟨hex, hg, fun hs f hf => ?_⟩
  rcases Endpoint.run_sent hf with hold | ⟨out, hok, hmem⟩
  · exact (hs f hold).mono hex hg
  · exact ho out hok f hmem

theorem consistent (hP : P.Lawful) (hn : s.New) (hxs : ∀ y ∈ xs, ¬ y.IsReplace) (d : Side) :
    Consistent P s xs d := by
  induction xs generalizing d with
  | nil =>
    obtain ⟨⟨_, hc⟩, hs⟩ := hn d
    constructor
    · intro f hf
      change f ∈ (s.get d).sent at hf
      rw [hs] at hf
      cases hf
    · show (s.get d).engine.core.Agrees _ _
      rw [(Engine.new_core hc).2]
      exact ⟨of_closed, of_closed,
        fun h => absurd rfl h, fun h => absurd rfl h⟩
  | cons x xs ih =>
    have hxs' : ∀ y ∈ xs, ¬ y.IsReplace := fun y hy => hxs y (mem_cons_of_mem x hy)
    have ih := ih hxs'
    obtain ⟨-, -, hs⟩ := cons_extends (P := P) hn hxs d
    obtain ⟨he, hg, -⟩ := cons_extends (P := P) hn hxs d.other
    refine ⟨hs (ih d).sent, ?_⟩
    -- the sessions that the other side accepts now are not used by this call
    obtain ⟨hge, -⟩ | ⟨i, hcall, hge, -⟩ := after_cons P s d xs (hxs x mem_cons_self)
    · rw [hge]
      exact (ih d).agrees.mono he hg
    rw [hge]
    refine Core.Agrees.mono ?_ he hg
    apply Engine.call_agrees hP (after_sound P hn.sound xs d) i (ih d).agrees
    rintro frame rfl
    exact (ih d.other).sent frame (callOf_sent hcall)

/-- However frames are lost, repeated and reordered, every frame that one side has sent is true of
it, and what the side holds about the other one is true of that one. -/
theorem run_agrees (hP : P.Lawful) (hnew : s.New) (hxs : ∀ x ∈ xs, ¬ x.IsReplace) (d : Side) :
    let t := (machine P s).after xs
    (∀ f ∈ (t.get d).sent, ∀ codec m, decode P codec f = some m → ∃ body, m.body = some body ∧
      (t.get d).engine.core.Says (adopted P s d xs) m.controlEpoch body) ∧
    (t.get d).engine.core.Agrees (adopted P s d.other xs) (t.get d.other).engine.core := by
  have hc := consistent hP hnew hxs d
  refine ⟨fun f hf _ _ hd => ?_, hc.agrees⟩
  obtain ⟨_, body, rfl, hb, hsaid⟩ := hc.sent f hf
  obtain rfl := decode_encodeFrame hP hd
  exact ⟨body, hb, hsaid⟩

/-- Epochs that do not repeat name their sessions. -/
theorem session_unique {exchanges : List LocalExchange} {epoch : UInt64} {x y : UInt16}
    (hnd : (exchanges.map LocalExchange.controlEpoch).Nodup)
    (hx : ⟨epoch, x⟩ ∈ exchanges) (hy : ⟨epoch, y⟩ ∈ exchanges) : x = y := by
  have heq := inj_on_of_nodup_map hnd hx hy rfl
  exact congrArg LocalExchange.dataSessionID heq

/-- Whenever one side may send DATA with a local epoch and session, the other side has accepted
a ResetSequence for that session under that epoch. As long as it has kept the epoch since, the
session is the one it has installed; whenever it holds that epoch it has installed that
session or none. Both sides know the same features, and the inner MTU is the one that the
other side is configured with. -/
theorem dataSendAllowed_agreement (hP : P.Lawful) (hnew : s.New)
    (hxs : ∀ x ∈ xs, ¬ x.IsReplace) (d : Side)
    (hepochs : ((((machine P s).after xs).get d).engine.state.exchanges.map
      LocalExchange.controlEpoch).Nodup)
    (hallowed : (((machine P s).after xs).get d).engine.dataSendAllowed = true) :
    let a := (((machine P s).after xs).get d).engine.state
    let b := (((machine P s).after xs).get d.other).engine.state
    let B := Engine.machine P (s.get d.other).engine
    let taken := fun older => Engine.TookReset P a.localEpoch a.localSessionID (B.after older)
    B.Since (fun _ => True) taken (calls P s d.other xs) ∧
    (B.Since (fun e => e.state.remoteEpoch = a.localEpoch) taken (calls P s d.other xs) →
      b.remoteSessionID = a.localSessionID) ∧
    (b.remoteEpoch = a.localEpoch → b.remoteSessionID = a.localSessionID ∨ b.remoteSessionID = 0) ∧
    a.remotePeerMTU = b.config.localPeerMTU ∧
    a.remoteSelectedFeatures = b.remoteSelectedFeatures := by
  intro a b B taken
  have hself := consistent hP hnew hxs d
  have hoth := (consistent hP hnew hxs d.other).agrees
  rw [d.other_other] at hoth
  have hsnd : (((machine P s).after xs).get d).engine.core.Sound := after_sound P hnew.sound xs d
  obtain ⟨⟨config, hcfg⟩, -⟩ := hnew d.other
  have heng := after_engine P s d.other hxs
  simp only [Engine.dataSendAllowed, State.dataSendAllowed, Flags.all, Bool.and_eq_true] at hallowed
  obtain ⟨-, ⟨⟨⟨⟨⟨-, hrem⟩, hres⟩, -⟩, hmtu⟩, -⟩, -⟩ := hallowed
  have hado : B.Since (fun _ => True) taken (calls P s d.other xs) := hself.agrees.confirmed hres
  have hses : b.remoteEpoch = a.localEpoch → b.remoteSessionID ≠ 0 →
      b.remoteSessionID = a.localSessionID := by
    intro hep hne
    obtain ⟨hkno, hmem⟩ := hoth.session hne
    have hloc : a.localEpoch ≠ 0 := fun h => hkno (hep.trans h)
    have hmem' : (⟨a.localEpoch, b.remoteSessionID⟩ : LocalExchange) ∈ a.exchanges := hep ▸ hmem
    exact session_unique hepochs hmem' (hsnd.installed hloc).1
  refine ⟨hado, fun hsin => ?_, fun hep => ?_, hself.agrees.peerMTU hmtu, ?_⟩
  · have hne := Engine.session_since hcfg hsin
    have hnow := hsin.now
    rw [← heng] at hne hnow
    exact hses hnow hne
  · by_cases hzero : b.remoteSessionID = 0
    · exact .inr hzero
    · exact .inl (hses hep hzero)
  · have hkno := Engine.adopted_known hcfg hado
    rw [← heng] at hkno
    have hleft : a.remoteSelectedFeatures =
        a.config.supportedFeatureBits &&& b.config.supportedFeatureBits :=
      hself.agrees.selected (hsnd.remote.mp hrem)
    have hrig : b.remoteSelectedFeatures =
        b.config.supportedFeatureBits &&& a.config.supportedFeatureBits := hoth.selected hkno
    rw [hleft, hrig, UInt64.and_comm]

/-- At the end of the handshake, for the left side. -/
theorem dataSendAllowed_agreement_sample :
    (((machine Protobuf.proto sample).after handshake).get .left).engine.dataSendAllowed = true ∧
    (((machine Protobuf.proto sample).after handshake).get .left).engine.state.remotePeerMTU =
      (((machine Protobuf.proto sample).after handshake).get
        Side.left.other).engine.state.config.localPeerMTU := by
  have hrun :
      (((machine Protobuf.proto sample).after handshake).get .left).engine.dataSendAllowed = true ∧
      ((((machine Protobuf.proto sample).after handshake).get .left).engine.state.exchanges.map
        LocalExchange.controlEpoch).Nodup := by decide +kernel
  have hkept : ∀ x ∈ handshake, ¬ x.IsReplace := by decide +kernel
  obtain ⟨-, -, -, hmtu, -⟩ := dataSendAllowed_agreement Protobuf.lawful sample_new hkept .left
    hrun.2 hrun.1
  exact ⟨hrun.1, hmtu⟩

def slow : Pair := ⟨⟨sampleEngine 1 (5 * minute), []⟩, ⟨sampleEngine 1000 (5 * minute), []⟩⟩

/-- The left engine begins its second exchange before its first Hello has arrived. Under the
second one it may send DATA. Then the two Hellos arrive, the first one late and the second one
again. -/
@[irreducible] def lateHello : List Input :=
  [.deliver .right 2, .deliver .right 1, .deliver .left 8, .deliver .right 8, .deliver .left 7,
    .deliver .right 7, .deliver .left 6, .deliver .left 5, .deliver .right 5, .deliver .left 4,
    .deliver .right 4, .deliver .right 3, .deliver .left 3, .deliver .left 2, .deliver .right 0,
    .deliver .right 2, .deliver .left 1, .call .right (.reportUnknownDataSession 2),
    .deliver .left 0, .call .right .start]

/-- A retired epoch is forgotten after four minutes. The right engine then takes up the epoch of
the left one again, without a session, while the left one may still send DATA. -/
theorem dataSendAllowed_late_hello :
    let t := (machine Protobuf.proto slow).after lateHello
    slow.New ∧ (∀ x ∈ lateHello, ¬ x.IsReplace) ∧
      ((t.left.engine.state.exchanges ++ t.right.engine.state.exchanges).map
        LocalExchange.controlEpoch).Nodup ∧
      t.left.engine.dataSendAllowed = true ∧
      t.right.engine.state.remoteEpoch = t.left.engine.state.localEpoch ∧
      t.right.engine.state.remoteSessionID ≠ t.left.engine.state.localSessionID := by
  refine ⟨?_, by decide +kernel, by decide +kernel⟩
  intro d
  cases d
  · exact ⟨⟨_, sampleEngine_new 1 (5 * minute)⟩, rfl⟩
  · exact ⟨⟨_, sampleEngine_new 1000 (5 * minute)⟩, rfl⟩

end Pair
end WgFrag.Control
