import WgFrag.Wire.Message
import WgFrag.Lib.RingQueue

/-! The interface-wide outbound CONTROL scheduler. The token buckets are not part of the model:
`choose` is given what they say. -/
namespace WgFrag.Shim
open WgFrag.Wire WgFrag.Lib

def controlDescriptorCapacity : ℕ := 16
def controlExploratoryLimit : ℕ := 8

inductive ControlClass where
  | critical
  | exploratory
  deriving DecidableEq, Repr, Inhabited

inductive ControlKind where
  | unknown
  | hello
  | helloAck
  | reset
  | resetAck
  | peerMTU
  | peerMTUAck
  | ping
  | pong
  | stateSync
  | probe
  | probeAck
  deriving DecidableEq, Repr, Inhabited

/-- `targetSize` is non-zero only for a probe, whose padding is generated when it is sent. -/
structure ControlDescriptor where
  peer : PeerID
  controlClass : ControlClass
  kind : ControlKind
  messageID : UInt64
  replyTo : UInt64
  epoch : UInt64
  message : Option Control
  targetSize : ℕ
  deriving DecidableEq, Repr, Inhabited

structure ControlScheduler where
  descriptors : RingQueue ControlDescriptor
  exploratory : ℕ := 0
  peerOrder : List PeerID
  rrIndex : ℕ := 0

inductive EnqueueError where
  | frame (err : FrameError)
  | protobuf
  deriving DecidableEq, Repr

/-- The three results of `enqueue` beside its error. -/
structure EnqueueOutcome where
  dropped : Bool := false
  evicted : Bool := false
  coalesced : Bool := false
  deriving DecidableEq, Repr

def classifyControl (message : Control) : ControlClass × ControlKind :=
  match message.body with
  | some .mtuProbe => (.exploratory, .probe)
  | some (.mtuProbeAck _) => (.critical, .probeAck)
  | some (.capabilitiesHello _) => (.critical, .hello)
  | some (.capabilitiesAck _) => (.critical, .helloAck)
  | some (.resetSequence _) => (.critical, .reset)
  | some (.resetSequenceAck _) => (.critical, .resetAck)
  | some (.peerMTU _) => (.critical, .peerMTU)
  | some (.peerMTUAck _) => (.critical, .peerMTUAck)
  | some (.ping _) => (.critical, .ping)
  | some (.pong _) => (.critical, .pong)
  | some (.stateSyncRequired _) => (.critical, .stateSync)
  | none => (.critical, .unknown)

/-- The descriptor of a frame. A probe is kept without its padding. -/
def describe (P : Proto) (codec : Codec) (peer : PeerID) (frame : Bytes) :
    Except EnqueueError ControlDescriptor :=
  match codec.parse frame with
  | .error err => .error (.frame err)
  | .ok payload =>
    match P.unmarshal payload with
    | none => .error .protobuf
    | some message =>
      let desc : ControlDescriptor := {
        peer := peer
        controlClass := (classifyControl message).1
        kind := (classifyControl message).2
        messageID := message.messageID
        replyTo := message.replyTo
        epoch := message.controlEpoch
        message := some message
        targetSize := 0 }
      if desc.kind = .probe then
        .ok { desc with targetSize := frame.length, message := some { message with padding := none } }
      else .ok desc

inductive MaterializeError where
  | emptyDescriptor
  | frame (err : FrameError)
  | shortBuffer
  deriving DecidableEq, Repr

/-- The attempts to find the length of a padding with which the frame has its target size. -/
def materializeLoop (size : ℕ → ℕ) (targetSize : ℕ) : ℕ → ℤ → Option ℕ
  | 0, _ => none
  | attempts + 1, paddingLen =>
    if paddingLen < 0 then none
    else
      let got := headerSize + size paddingLen.toNat
      if got = targetSize then some paddingLen.toNat
      else materializeLoop size targetSize attempts (paddingLen + ((targetSize : ℤ) - got))

/-- `MarshalTo` into a buffer of `room` bytes. -/
def marshalInto (codec : Codec) (room : ℕ) (payload : Bytes) : Except MaterializeError Bytes :=
  match codec.marshalTo payload with
  | .error err => .error (.frame err)
  | .ok frame => if room < frame.length then .error .shortBuffer else .ok frame

/-- The frame of a descriptor, written to a buffer of `room` bytes. -/
def materializeControl (P : Proto) (desc : ControlDescriptor) (room : ℕ) (codec : Codec) :
    Except MaterializeError Bytes :=
  match desc.message with
  | none => .error .emptyDescriptor
  | some message =>
    if desc.targetSize ≠ 0 then
      if codec.maxFrameSize < desc.targetSize ∨ desc.targetSize < headerSize + 1 then
        .error (.frame .frameTooLarge)
      else
        let padded := fun n => { message with padding := some (List.replicate n 0) }
        let paddingLen : ℤ := (desc.targetSize : ℤ) - headerSize - P.size message
        if paddingLen < 0 then .error (.frame .frameTooLarge)
        else
          match materializeLoop (fun n => P.size (padded n)) desc.targetSize 8 paddingLen with
          | none => .error (.frame .frameTooLarge)
          | some n =>
            if headerSize + (P.marshal (padded n)).length ≠ desc.targetSize then
              .error (.frame .frameTooLarge)
            else marshalInto codec room (P.marshal (padded n))
    else marshalInto codec room (P.marshal message)

/-- A descriptor that a later one replaces. -/
def ControlDescriptor.Same (desc want : ControlDescriptor) : Bool :=
  desc.controlClass == .critical && desc.peer == want.peer && desc.kind == want.kind &&
    desc.epoch == want.epoch && desc.messageID == want.messageID && desc.replyTo == want.replyTo

def ControlDescriptor.Exploratory (desc : ControlDescriptor) : Bool :=
  desc.controlClass == .exploratory

namespace ControlScheduler

def new (capacity : ℤ) (peers : List PeerID) : ControlScheduler where
  descriptors := .ofSize
    (if capacity ≤ 0 ∨ controlDescriptorCapacity < capacity then controlDescriptorCapacity
      else capacity.toNat)
  peerOrder := peers

variable (s : ControlScheduler)

def capacity : ℕ := s.descriptors.slots.length

def oldestExploratory : Option ℕ :=
  s.descriptors.find ControlDescriptor.Exploratory

def oldestExploratoryForPeer (peer : PeerID) : Option ℕ :=
  s.descriptors.find fun desc => desc.peer == peer && desc.Exploratory

def sameCritical (want : ControlDescriptor) : Option ℕ :=
  s.descriptors.find fun desc => desc.Same want

def countForPeer (peer : PeerID) : ℕ :=
  (List.range s.descriptors.count).countP fun offset => (s.descriptors.get offset).peer == peer

def peerAdmissionLimit : ℕ :=
  let peers := if s.peerOrder.length < 1 then 1 else s.peerOrder.length
  let limit := s.capacity / peers
  if limit < 1 then 1 else limit

/-- Take the descriptor in a slot out. -/
def remove (index : ℕ) : ControlScheduler :=
  if s.descriptors.count = 0 then s
  else
    { s with
      exploratory :=
        if (s.descriptors.slots.getD index default).Exploratory then s.exploratory - 1
        else s.exploratory
      descriptors := s.descriptors.remove index }

def append (desc : ControlDescriptor) : ControlScheduler :=
  { s with
    descriptors := s.descriptors.push desc
    exploratory := if desc.Exploratory then s.exploratory + 1 else s.exploratory }

/-- The end of `enqueue`, once the peer's share allows the descriptor. -/
def place (desc : ControlDescriptor) (evicted : Bool) : EnqueueOutcome × ControlScheduler :=
  if s.descriptors.count = s.capacity then
    if desc.Exploratory then ({ dropped := true }, s)
    else
      match s.oldestExploratory with
      | some index => ({ evicted := true }, (s.remove index).append desc)
      | none => ({ dropped := true }, s)
  else ({ evicted := evicted }, s.append desc)

def enterQueue (desc : ControlDescriptor) : EnqueueOutcome × ControlScheduler :=
  if desc.Exploratory then
    if controlExploratoryLimit ≤ s.exploratory then ({ dropped := true }, s)
    else s.place desc false
  else
    match s.sameCritical desc with
    | some index =>
      ({ coalesced := true }, { s with descriptors := s.descriptors.replace index desc })
    | none =>
      if s.peerAdmissionLimit ≤ s.countForPeer desc.peer then
        match s.oldestExploratoryForPeer desc.peer with
        | some index => (s.remove index).place desc true
        | none => ({ dropped := true }, s)
      else s.place desc false

def enqueue (P : Proto) (codec : Codec) (peer : PeerID) (frame : Bytes) :
    Except EnqueueError EnqueueOutcome × ControlScheduler :=
  match describe P codec peer frame with
  | .error err => (.error err, s)
  | .ok desc => (.ok (s.enterQueue desc).1, (s.enterQueue desc).2)

/-- The loop of `updatePeers` and `removePeer`, with the number of descriptors it has taken out. A
round passes a descriptor or takes it out; the first argument bounds the rounds. -/
def removeLoop (keep : ControlDescriptor → Bool) : ℕ → ℕ → ControlScheduler → ℕ × ControlScheduler
  | 0, _, s => (0, s)
  | n + 1, offset, s =>
    if s.descriptors.count ≤ offset then (0, s)
    else if keep (s.descriptors.get offset) then removeLoop keep n (offset + 1) s
    else
      let rest := removeLoop keep n offset (s.remove (s.descriptors.slot offset))
      (rest.1 + 1, rest.2)

def updatePeers (peers : List PeerID) : ControlScheduler :=
  let s := (removeLoop (fun desc => peers.contains desc.peer) s.descriptors.count 0 s).2
  { s with
    peerOrder := peers
    rrIndex :=
      if peers.length = 0 then 0
      else if peers.length ≤ s.rrIndex then s.rrIndex % peers.length
      else s.rrIndex }

def removePeer (peer : PeerID) : ℕ × ControlScheduler :=
  removeLoop (fun desc => desc.peer != peer) s.descriptors.count 0 s

/-- `index` is the slot of a queued descriptor. -/
def pop (index : ℕ) : ControlDescriptor × ControlScheduler :=
  let desc := s.descriptors.slots.getD index default
  if index = s.descriptors.head then
    (desc, { s with
      exploratory := if desc.Exploratory then s.exploratory - 1 else s.exploratory
      descriptors := s.descriptors.dropHead })
  else (desc, s.remove index)

/-- The descriptor that may be sent next and its slot. `globalReady` and `ready` say which token
buckets have a token. -/
def choose (globalReady : Bool) (ready : PeerID → Bool) :
    Option (ControlDescriptor × ℕ) × ControlScheduler :=
  if s.descriptors.count = 0 ∨ globalReady = false then (none, s)
  else
    let ranks := (List.range s.peerOrder.length).map fun step =>
      (s.rrIndex + step) % s.peerOrder.length
    let chosen := ranks.findSome? fun rank =>
      let peer := s.peerOrder.getD rank 0
      if ready peer then
        (s.descriptors.find fun desc => desc.peer == peer).map fun index => (rank, index)
      else none
    match chosen with
    | some (rank, index) =>
      (some (s.descriptors.slots.getD index default, index),
        { s with rrIndex := (rank + 1) % s.peerOrder.length })
    | none => (none, s)

end ControlScheduler
end WgFrag.Shim
