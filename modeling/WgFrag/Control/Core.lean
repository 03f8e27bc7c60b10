import WgFrag.Control.Gates
import WgFrag.Control.Inbound
import WgFrag.Lib.Trace

/-! The abstract engine: the values that decide the DATA gate and the messages sent, the
messages it accepts, and the elementary steps by which every engine call changes them. -/
namespace WgFrag.Control
open WgFrag.Lib WgFrag.Wire

/-- A closed gate asks for nothing. -/
theorem of_closed {p : Prop} (h : false = true) : p := absurd h Bool.false_ne_true

/-- The outstanding request, with the frame kept for retransmission. -/
structure Slot where
  kind : RequestKind
  frame : Option Bytes

/-- `epoch` and `peerEpoch` are the engine's own copies of the two epochs. -/
structure Core extends Gates where
  base : UInt32
  epoch : UInt64
  peerEpoch : UInt64
  started : Bool
  terminal : Bool
  baseError : Bool
  slot : Option Slot
  pmtu : Option Pmtu.State
  replay : List (Option ResetReplayEntry)

def OutstandingRequest.slot (o : OutstandingRequest) : Slot := ⟨o.kind, o.frame⟩

def Engine.core (e : Engine) : Core where
  toGates := e.state.gates
  base := e.base
  epoch := e.localEpoch
  peerEpoch := e.remoteEpoch
  started := e.started
  terminal := e.terminalError
  baseError := e.baseError
  slot := e.outstanding.map OutstandingRequest.slot
  pmtu := e.pmtu
  replay := e.resetReplay

/-- The core of a fresh engine. -/
def Core.initial (config : StateConfig) : Core where
  toGates := State.gates { config := config }
  base := config.minCarrierPayload
  epoch := 0
  peerEpoch := 0
  started := false
  terminal := false
  baseError := false
  slot := none
  pmtu := none
  replay := List.replicate resetReplayCapacity none

theorem Engine.new_core {config : EngineConfig} {e : Engine} (h : Engine.new config = .ok e) :
    config.state.Valid ∧ e.core = Core.initial config.state := by
  unfold Engine.new State.new at h
  split at h
  · cases h
  rename_i state hs
  split_ifs at hs with hv
  cases hs
  split_ifs at h
  cases h
  exact ⟨hv, rfl⟩

/-- The messages that change an engine when it accepts them. The acknowledgement of the
BASE probe comes with the search that is in use from then on. -/
inductive Accepted where
  | hello (h : CapabilitiesHello)
  | capabilitiesAck (ack : CapabilitiesAck)
  | resetSequence (session : UInt16)
  | resetSequenceAck (ack : ResetSequenceAck)
  | peerMTU (mtu : UInt32)
  | peerMTUAck (ack : PeerMTUAck)
  | pong (sequence : UInt32)
  | baseProbeAck (p : Pmtu.State)
  | stateSync (sync : StateSyncRequired)

/-- Elementary steps of an engine call, apart from the message it accepts. -/
inductive Act where
  | respond (frame : Bytes)
  | remember (entries : List (Option ResetReplayEntry))
  | replay (frame : Bytes)
  | resend (frame : Bytes)
  | sync (frame : Bytes)
  | begin (x : LocalExchange)
  | restart (x : LocalExchange) (retryAt : Time)
  | send (kind : RequestKind) (frame : Bytes)
  | release
  | resetPath
  | baseError
  | terminal (d : Gates.Drop)
  | recover
  | dropReset
  | search (p : Pmtu.State)
  | blackhole

/-- The frames that a step hands to the caller. -/
def Act.frames : Act → List Bytes
  | .respond frame | .replay frame | .resend frame | .sync frame | .send _ frame => [frame]
  | _ => []

def emitted (acts : List Act) : List Bytes := acts.flatMap Act.frames

@[simp] theorem emitted_cons (a : Act) (as : List Act) :
    emitted (a :: as) = a.frames ++ emitted as := rfl

@[simp] theorem emitted_append (as bs : List Act) :
    emitted (as ++ bs) = emitted as ++ emitted bs := List.flatMap_append

structure Flags.Negotiated (f : Flags) : Prop where
  loc : f.localCapabilities = true
  remote : f.remoteCapabilities = true

namespace Core

def accept (c : Core) (m : Control) : Accepted → Core
  | .hello h =>
    { c with
      toGates := c.toGates.hello m.controlEpoch h, peerEpoch := m.controlEpoch
      pmtu := if c.peerEpoch ≠ 0 ∧ c.peerEpoch ≠ m.controlEpoch then none else c.pmtu }
  | .capabilitiesAck ack => { c with toGates := c.toGates.capabilitiesAck ack.selectedFeatureBits }
  | .resetSequence session => { c with toGates := c.toGates.reset session }
  | .resetSequenceAck _ => { c with toGates := c.toGates.resetAck }
  | .peerMTU mtu => { c with toGates := c.toGates.setPeerMTU mtu }
  | .peerMTUAck _ => { c with toGates := c.toGates.peerMTUAck }
  | .pong _ => { c with toGates := c.toGates.pong }
  | .baseProbeAck p =>
    { c with toGates := c.toGates.baseAck, slot := none, pmtu := some p, baseError := false }
  | .stateSync _ => { c with toGates := c.toGates.sync }

def next (c : Core) : Act → Core
  | .respond _ | .replay _ | .resend _ | .sync _ => c
  | .remember entries => { c with replay := entries }
  | .begin x =>
    { c with
      toGates := c.toGates.begin x, epoch := x.controlEpoch, started := true
      slot := none, pmtu := none }
  | .restart x t =>
    { c with toGates := c.toGates.restart x t, epoch := x.controlEpoch, pmtu := none }
  | .send kind frame =>
    { c with slot := some ⟨kind, if kind = .pmtuProbe then none else some frame⟩ }
  | .release => { c with slot := none }
  | .resetPath => { c with toGates := c.toGates.resetPath, slot := none }
  | .baseError => { c with toGates := c.toGates.resetPath, slot := none, baseError := true }
  | .terminal d =>
    { c with
      toGates := (c.toGates.drop d).resetPath, slot := none, baseError := false
      terminal := true }
  | .recover => { c with terminal := false }
  | .dropReset => { c with toGates := c.toGates.drop .reset }
  | .search p => { c with pmtu := some p }
  | .blackhole => { c with toGates := c.toGates.resetPath, slot := none, pmtu := none }

/-- When a request of each kind is sent, and its body. -/
def Request (c : Core) (body : Body) : RequestKind → Prop
  | .capabilities =>
    body = .capabilitiesHello c.config.capabilities ∧
      (c.flags.baseProbe = false ∨ c.retryAt ≠ 0)
  | .reset => body = .resetSequence c.localSession.toUInt32 ∧ c.flags.Negotiated
  | .peerMTU => body = .peerMTU c.config.localPeerMTU ∧ c.flags.Negotiated
  | .ping => (∃ sequence, body = .ping sequence) ∧ c.flags.Negotiated ∧ c.flags.pingPong = false
  | .baseProbe =>
    body = .mtuProbe ∧ c.flags.Negotiated ∧ c.flags.localResetAck = true ∧ c.flags.pingPong = true
  | .pmtuProbe => body = .mtuProbe ∧ c.pmtu.isSome

/-- A reply accepts no session other than the one that is installed. -/
def Reply (c : Core) (epoch : UInt64) : Body → Prop
  | .resetSequenceAck ack =>
    ack.result = .accepted →
      epoch = c.remoteEpoch ∧ ack.dataSessionID = c.remoteSession.toUInt32 ∧
        c.remoteSession ≠ 0
  | .capabilitiesAck _ | .peerMTUAck _ | .pong _ | .mtuProbeAck _ => True
  | _ => False

/-- A search starts at BASE and then only evolves. -/
def Search (c : Core) (p : Pmtu.State) : Prop :=
  match c.pmtu with
  | some p₀ => p₀.Evolves p
  | none => p.Ok ∧ p.config.base = c.base

def Awaits (c : Core) (kind : RequestKind) : Prop := ∃ frame, c.slot = some ⟨kind, frame⟩

/-- What is known of a message when it is accepted. -/
def Admits (c : Core) (m : Control) : Accepted → Prop
  | .hello h =>
    m.body = some (.capabilitiesHello h) ∧ m.controlEpoch ≠ 0 ∧
      (validateCapabilities c.config h).result = .accepted
  | .capabilitiesAck ack =>
    m.body = some (.capabilitiesAck ack) ∧ c.Awaits .capabilities ∧
      m.controlEpoch = c.localEpoch ∧ ack.result = .accepted
  | .resetSequence session =>
    m.body = some (.resetSequence session.toUInt32) ∧ c.RemoteRequest m ∧ session ≠ 0
  | .resetSequenceAck ack =>
    m.body = some (.resetSequenceAck ack) ∧ c.Awaits .reset ∧ m.controlEpoch = c.localEpoch ∧
      ack.result = .accepted ∧ ack.dataSessionID = c.localSession.toUInt32
  | .peerMTU mtu =>
    m.body = some (.peerMTU mtu) ∧ c.RemoteRequest m ∧ validatePeerMTUValue mtu = .accepted
  | .peerMTUAck ack =>
    m.body = some (.peerMTUAck ack) ∧ c.Awaits .peerMTU ∧ m.controlEpoch = c.localEpoch ∧
      ack.result = .accepted ∧ ack.innerMTU = c.config.localPeerMTU
  | .pong sequence =>
    m.body = some (.pong sequence) ∧ c.Awaits .ping ∧ m.controlEpoch = c.localEpoch
  | .baseProbeAck p =>
    m.body = some (.mtuProbeAck c.config.minCarrierPayload) ∧ c.Awaits .baseProbe ∧
      m.controlEpoch = c.localEpoch ∧ c.Search p
  | .stateSync sync => m.body = some (.stateSyncRequired sync) ∧ c.RemoteRequest m

/-- When a new local exchange may begin, and when a terminal error may be cleared. -/
structure Guard where
  begin : Core → Prop
  recover : Core → Prop

def Guard.never : Guard := ⟨fun _ => False, fun _ => False⟩

variable (P : Proto)

/-- A frame that carries a reply, with the identifier of the message that it answers. -/
def Replied (c : Core) (frame : Bytes) : Prop :=
  ∃ m body, frame = encodeFrame (P.marshal m) ∧ m.replyTo ≠ 0 ∧ m.body = some body ∧
    c.Reply m.controlEpoch body

def Requested (c : Core) (kind : RequestKind) (frame : Bytes) : Prop :=
  ∃ m body, frame = encodeFrame (P.marshal m) ∧ m.body = some body ∧
    m.controlEpoch = c.epoch ∧ c.Request body kind

def Enabled (allow : Guard) (c : Core) : Act → Prop
  | .respond frame => c.Replied P frame
  | .remember entries =>
    ∀ entry, some entry ∈ entries → some entry ∈ c.replay ∨ c.Replied P entry.frame
  | .replay frame => ∃ entry, some entry ∈ c.replay ∧ entry.frame = frame
  | .resend frame => ∃ kind, c.slot = some ⟨kind, some frame⟩
  | .sync frame =>
    ∃ m sync, frame = encodeFrame (P.marshal m) ∧ m.body = some (.stateSyncRequired sync)
  | .begin x => allow.begin c ∧ c.Fresh x
  | .restart x _ => allow.begin c ∧ c.Fresh x ∧ c.slot = none
  | .send kind frame => c.slot = none ∧ c.Requested P kind frame
  | .terminal d => d.Enabled c.toGates
  | .recover => allow.recover c
  | .search p => c.Search p
  | .release | .resetPath | .baseError | .dropReset | .blackhole => True

def Step (allow : Guard) (c : Core) (a : Act) (d : Core) : Prop :=
  c.Enabled P allow a ∧ d = c.next a

/-- Relax the conditions under which exchanges begin and errors are cleared. -/
theorem Step.weaken {allow allow' : Guard} (hb : ∀ c, allow.begin c → allow'.begin c)
    (hr : ∀ c, allow.recover c → allow'.recover c) {c d : Core} {a : Act}
    (hs : Step P allow c a d) : Step P allow' c a d := by
  refine ⟨?_, hs.2⟩
  have he := hs.1
  cases a with
  | begin | restart => exact ⟨hb c he.1, he.2⟩
  | recover => exact hr c he
  | _ => exact he

end Core

/-- A message that answers the outstanding request: its kind, message ID and epoch match. -/
structure Engine.Answers (e : Engine) (m : Control) (kind : RequestKind)
    (o : OutstandingRequest) : Prop where
  outstanding : e.outstanding = some o
  kind : o.kind = kind
  messageID : m.replyTo = o.messageID
  epoch : m.controlEpoch = e.localEpoch

/-- The message reaches its handler and the handler accepts it. -/
def Engine.Accepts (e : Engine) (m : Control) : Accepted → Prop
  | .hello h =>
    m.body = some (.capabilitiesHello h) ∧
      (e.state.observeCapabilitiesHello m).1.result = .accepted
  | .capabilitiesAck ack =>
    m.body = some (.capabilitiesAck ack) ∧ ∃ o, e.Answers m .capabilities o ∧
      (e.state.observeCapabilitiesAck m o.messageID).1 = .accepted
  | .resetSequence session =>
    m.body = some (.resetSequence session.toUInt32) ∧
      (e.state.observeResetSequence m).1.result = .accepted
  | .resetSequenceAck ack =>
    m.body = some (.resetSequenceAck ack) ∧ ∃ o, e.Answers m .reset o ∧
      (e.state.observeResetSequenceAck m o.messageID).1 = .accepted
  | .peerMTU mtu =>
    m.body = some (.peerMTU mtu) ∧ (e.state.observePeerMTU m).1 = .accepted
  | .peerMTUAck ack =>
    m.body = some (.peerMTUAck ack) ∧ ∃ o, e.Answers m .peerMTU o ∧
      (e.state.observePeerMTUAck m o.messageID).1 = .accepted
  | .pong sequence =>
    m.body = some (.pong sequence) ∧ ∃ o, e.Answers m .ping o ∧
      (e.state.observePong m o.messageID o.ping).1 = .accepted
  | .baseProbeAck p =>
    e.core.Search p ∧ ∃ o, e.Answers m .baseProbe o ∧
      (e.state.observeBaseProbeAck m o.messageID).1 = .accepted
  | .stateSync sync =>
    m.body = some (.stateSyncRequired sync) ∧ (e.state.observeStateSyncRequired m).1 = .accepted

/-- The frame is decoded and admitted to a handler, which accepts the message. -/
def Engine.Takes (P : Proto) (e : Engine) (frame : Bytes) (m : Control) (a : Accepted) : Prop :=
  ∃ body t, e.intake P frame = (.ok (.handled m body), t) ∧ t.Accepts m a

/-- The call hands over a frame whose message is accepted. -/
def Engine.Took (P : Proto) (e : Engine) (i : Engine.Call) (m : Control) (a : Accepted) : Prop :=
  ∃ frame, i = .handleInbound frame ∧ e.Takes P frame m a

end WgFrag.Control
