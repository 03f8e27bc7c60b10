import WgFrag.Control.Expiry
import WgFrag.Wire.Message

/-! Capability, session and gate state of one peer. Clock and entropy are the
successive results of the injected objects; the state counts the calls made. It also
counts how often the path gates were cleared and lists the local exchanges begun, newest
first; nothing reads these two. -/
namespace WgFrag.Control
open WgFrag.Wire

def dataProtocolVersion : UInt32 := 1
def minReassemblyLifetimeMs : UInt32 := 100
def maxReassemblyLifetimeMs : UInt32 := 60000
def initialLocalExchangeBackoff : Duration := 200 * millisecond
def maxLocalExchangeBackoff : Duration := 60 * second
def maxRetiredSessionEntries : ℕ := 4096
def maxRetiredEpochEntries : ℕ := 1 <<< 14
def retiredEpochLifetime : Duration := 4 * minute
def maxCarrierPayload : UInt32 := 65535

/-- An entropy result of `none` is a failed read. -/
structure StateConfig where
  maxCarrierPayload : UInt32
  minCarrierPayload : UInt32
  supportedFeatureBits : UInt64
  requiredFeatureBits : UInt64
  reassemblyLifetimeMs : UInt32
  localPeerMTU : UInt32
  stateSyncMinInterval : Duration
  clock : ℕ → Time
  entropy : ℕ → Option UInt64

/-- Independently confirmed prerequisites for outbound DATA. -/
structure Flags where
  localCapabilities : Bool := false
  remoteCapabilities : Bool := false
  localResetAck : Bool := false
  localPeerMTUAck : Bool := false
  remotePeerMTU : Bool := false
  pingPong : Bool := false
  baseProbe : Bool := false
  deriving DecidableEq, Repr

namespace Flags

def all (f : Flags) : Bool :=
  f.localCapabilities && f.remoteCapabilities && f.localResetAck && f.localPeerMTUAck &&
    f.remotePeerMTU && f.pingPong && f.baseProbe

/-- Clear what a new local exchange has to confirm again. -/
def clearLocal (f : Flags) : Flags :=
  { f with localCapabilities := false, localResetAck := false, localPeerMTUAck := false,
           pingPong := false, baseProbe := false }

def clearPath (f : Flags) : Flags := { f with pingPong := false, baseProbe := false }

end Flags

structure LocalExchange where
  controlEpoch : UInt64
  dataSessionID : UInt16
  deriving DecidableEq, Repr

structure CapabilityDecision where
  result : ResultCode
  selectedDataProtocolVersion : UInt32 := 0
  selectedFeatureBits : UInt64 := 0
  selectedCarrierPayload : UInt32 := 0
  startReverseExchange : Bool := false
  deriving DecidableEq, Repr

structure ResetDecision where
  result : ResultCode
  dataSessionID : UInt16 := 0
  sessionChanged : Bool := false
  deriving DecidableEq, Repr

structure SessionDecision where
  accept : Bool := false
  sendStateSyncRequired : Bool := false
  reason : SyncReason := .unspecified
  observedSessionID : UInt32 := 0
  deriving DecidableEq, Repr

inductive StateError where
  | invalidConfig
  | entropy
  | entropyExhausted
  | localExchangeBackoff
  deriving DecidableEq, Repr

structure State where
  config : StateConfig
  flags : Flags := {}
  localEpoch : UInt64 := 0
  remoteEpoch : UInt64 := 0
  localSessionID : UInt16 := 0
  remoteSessionID : UInt16 := 0
  retiredSessions : ExpirySet UInt16 := .empty maxRetiredSessionEntries
  localRetiredSessions : ExpirySet UInt16 := .empty maxRetiredSessionEntries
  retiredEpochs : ExpirySet UInt64 := .empty maxRetiredEpochEntries
  remoteSelectedFeatures : UInt64 := 0
  remoteMaxCarrierPayload : UInt32 := 0
  remoteReassemblyLifetimeMs : UInt32 := 0
  remotePeerMTU : UInt32 := 0
  pendingCapabilitiesAck : Bool := false
  pendingSelectedFeatures : UInt64 := 0
  lastStateSync : Time := 0
  stateSyncSent : Bool := false
  localExchangeRetryAt : Time := 0
  localExchangeRetryAttempt : ℕ := 0
  clockReads : ℕ := 0
  entropyReads : ℕ := 0
  pathResets : ℕ := 0
  exchanges : List LocalExchange := []

/-- Double a delay once per attempt while it is below the limit. -/
def doubleBelow (limit : Duration) : ℕ → Duration → Duration
  | 0, delay => delay
  | attempt + 1, delay => if delay < limit then doubleBelow limit attempt (delay * 2) else delay

def validatePeerMTUValue (innerMTU : UInt32) : ResultCode :=
  if innerMTU.toNat < Limits.minInnerMTU ∨ Limits.maxInnerMTU < innerMTU.toNat then .invalidParameter
  else .accepted

def validateDataSessionID (dataSessionID : UInt32) : ResultCode :=
  if dataSessionID = 0 ∨ 65535 < dataSessionID then .invalidParameter else .accepted

/-- Exact v1 capability and feature rules. -/
def validateCapabilities (loc : StateConfig) (remote : CapabilitiesHello) : CapabilityDecision :=
  if remote.dataProtocolVersion ≠ dataProtocolVersion then { result := .incompatibleVersion }
  else if remote.maxFragments.toNat ≠ Limits.maxFragments ∨
      remote.maxCarrierPayload.toNat < Limits.defaultCarrierPayload ∨
      remote.maxCarrierPayload < loc.minCarrierPayload ∨
      maxCarrierPayload < remote.maxCarrierPayload ∨
      remote.reassemblyLifetimeMs < minReassemblyLifetimeMs ∨
      maxReassemblyLifetimeMs < remote.reassemblyLifetimeMs then { result := .invalidParameter }
  else if loc.requiredFeatureBits &&& ~~~remote.supportedFeatureBits ≠ 0 ∨
      remote.requiredFeatureBits &&& ~~~loc.supportedFeatureBits ≠ 0 then
    { result := .missingRequiredFeature }
  else
    { result := .accepted
      selectedDataProtocolVersion := dataProtocolVersion
      selectedFeatureBits := loc.supportedFeatureBits &&& remote.supportedFeatureBits
      selectedCarrierPayload := min loc.maxCarrierPayload remote.maxCarrierPayload }

def validRequest (control : Control) : Bool :=
  control.messageID ≠ 0 && control.replyTo == 0 && control.controlEpoch ≠ 0

/-- The local capability advertisement. -/
def StateConfig.capabilities (config : StateConfig) : CapabilitiesHello where
  dataProtocolVersion := dataProtocolVersion
  maxFragments := UInt32.ofNat Limits.maxFragments
  maxCarrierPayload := config.maxCarrierPayload
  supportedFeatureBits := config.supportedFeatureBits
  requiredFeatureBits := config.requiredFeatureBits
  reassemblyLifetimeMs := config.reassemblyLifetimeMs

/-- The configurations that `New` accepts. -/
def StateConfig.Valid (config : StateConfig) : Prop :=
  Limits.defaultCarrierPayload ≤ config.minCarrierPayload.toNat ∧
  config.minCarrierPayload ≤ config.maxCarrierPayload ∧
  config.maxCarrierPayload ≤ Control.maxCarrierPayload ∧
  minReassemblyLifetimeMs ≤ config.reassemblyLifetimeMs ∧
  config.reassemblyLifetimeMs ≤ maxReassemblyLifetimeMs ∧
  Limits.ValidInnerMTU config.localPeerMTU.toNat ∧
  config.requiredFeatureBits &&& ~~~config.supportedFeatureBits = 0 ∧
  0 < config.stateSyncMinInterval

instance (config : StateConfig) : Decidable config.Valid :=
  inferInstanceAs (Decidable (_ ∧ _))

namespace State

def new (config : StateConfig) : Except StateError State :=
  if config.Valid then .ok { config := config } else .error .invalidConfig

variable (s : State) (control : Control) (expectedReplyTo : UInt64)

def now : Time × State :=
  (s.config.clock s.clockReads, { s with clockReads := s.clockReads + 1 })

def uint64 : Option UInt64 × State :=
  (s.config.entropy s.entropyReads, { s with entropyReads := s.entropyReads + 1 })

def pruneRetired (now : Time) : State :=
  { s with
    retiredSessions := s.retiredSessions.prune now
    localRetiredSessions := s.localRetiredSessions.prune now
    retiredEpochs := s.retiredEpochs.prune now }

def retainRetired (session : UInt16) (expires : Time) : Bool × State :=
  if session = 0 then (true, s)
  else
    let r := s.retiredSessions.retain session expires
    (r.1, { s with retiredSessions := r.2 })

def retainLocal (session : UInt16) (expires : Time) : Bool × State :=
  if session = 0 then (true, s)
  else
    let r := s.localRetiredSessions.retain session expires
    (r.1, { s with localRetiredSessions := r.2 })

def lifetime (ms : UInt32) : Duration := ms.toNat * millisecond

def localSessionLifetime : Duration :=
  lifetime (if s.config.reassemblyLifetimeMs < s.remoteReassemblyLifetimeMs then
    s.remoteReassemblyLifetimeMs else s.config.reassemblyLifetimeMs)

/-- The first argument counts the remaining attempts; the source makes 16. -/
def nextNonZero (previous : UInt64) (session : Bool) :
    ℕ → State → Except StateError UInt64 × State
  | 0, s => (.error .entropyExhausted, s)
  | attempts + 1, s =>
    match s.uint64 with
    | (none, s) => (.error .entropy, s)
    | (some random, s) =>
      let value := if session then random &&& 0xffff else random
      if value ≠ 0 ∧ value ≠ previous then
        if session ∧ s.localRetiredSessions.contains value.toUInt16 then
          nextNonZero previous session attempts s
        else (.ok value, s)
      else nextNonZero previous session attempts s

/-- What a successful `BeginLocalExchange` writes. -/
def installLocal (epoch : UInt64) (session : UInt16) : State :=
  { s with
    localEpoch := epoch
    localSessionID := session
    flags := s.flags.clearLocal
    pathResets := s.pathResets + 1
    exchanges := ⟨epoch, session⟩ :: s.exchanges
    pendingCapabilitiesAck := false
    pendingSelectedFeatures := 0 }

def beginLocalExchange : Except StateError LocalExchange × State :=
  let (now, s) := s.now
  if s.localExchangeRetryAt ≠ 0 ∧ now < s.localExchangeRetryAt then
    (.error .localExchangeBackoff, s)
  else
    let s := s.pruneRetired now
    if s.localSessionID ≠ 0 ∧ ¬ s.localRetiredSessions.contains s.localSessionID ∧
        s.localRetiredSessions.full then (.error .entropyExhausted, s)
    else
      match nextNonZero s.localEpoch false 16 s with
      | (.error e, s) => (.error e, s)
      | (.ok epoch, s) =>
        match nextNonZero s.localSessionID.toUInt64 true 16 s with
        | (.error e, s) => (.error e, s)
        | (.ok session, s) =>
          let (kept, s) :=
            if s.localSessionID ≠ 0 then
              s.retainLocal s.localSessionID (now + s.localSessionLifetime)
            else (true, s)
          if ¬ kept then (.error .entropyExhausted, s)
          else (.ok ⟨epoch, session.toUInt16⟩, s.installLocal epoch session.toUInt16)

def localExchangeBackoff (attempt : ℕ) : Duration × State :=
  let delay :=
    min (doubleBelow maxLocalExchangeBackoff attempt initialLocalExchangeBackoff)
      maxLocalExchangeBackoff
  match s.uint64 with
  | (none, s) => (delay, s)
  | (some random, s) => ((random.toNat : ℤ) % delay + 1, s)

/-- Rotate the local exchange after a rejected one and set the retry deadline. -/
def restartLocalExchange : Except StateError LocalExchange × State :=
  let (now, s) := s.now
  if s.localExchangeRetryAt ≠ 0 ∧ now < s.localExchangeRetryAt then
    (.error .localExchangeBackoff, s)
  else
    match s.beginLocalExchange with
    | (.error e, s) => (.error e, s)
    | (.ok exchange, s) =>
      let (backoff, s) := s.localExchangeBackoff s.localExchangeRetryAttempt
      (.ok exchange, { s with
        localExchangeRetryAttempt := s.localExchangeRetryAttempt + 1
        localExchangeRetryAt := now + backoff })

def localExchangeRetryReady : Bool × State :=
  if s.localExchangeRetryAt = 0 then (true, s)
  else
    let (now, s) := s.now
    (¬ now < s.localExchangeRetryAt, s)

def localCapabilities : CapabilitiesHello := s.config.capabilities

def dataSendAllowed : Bool := s.flags.all

def resetPathGates : State :=
  { s with flags := s.flags.clearPath, pathResets := s.pathResets + 1 }

def isRemoteEpochRetired (epoch : UInt64) : Bool × State :=
  if epoch = 0 then (false, s)
  else
    let (now, s) := s.now
    let s := { s with retiredEpochs := s.retiredEpochs.prune now }
    (s.retiredEpochs.contains epoch, s)

def negotiatedCarrierPayload : UInt32 :=
  if s.remoteMaxCarrierPayload = 0 ∨ s.flags.remoteCapabilities = false then 0
  else min s.config.maxCarrierPayload s.remoteMaxCarrierPayload

def validResponse : Bool :=
  control.messageID ≠ 0 && expectedReplyTo ≠ 0 && control.replyTo == expectedReplyTo &&
    s.localEpoch ≠ 0 && control.controlEpoch == s.localEpoch

def validRemoteRequest : Bool :=
  validRequest control && s.flags.remoteCapabilities && control.controlEpoch == s.remoteEpoch

def reconcileCapabilitiesAck : State :=
  { s with flags := { s.flags with
    localCapabilities := s.pendingCapabilitiesAck && s.flags.remoteCapabilities &&
      s.pendingSelectedFeatures == s.remoteSelectedFeatures } }

/-- What `clearRemoteEpoch` resets once the old epoch and session are retired. -/
def forgetRemote : State :=
  { s with
    flags := {}
    pathResets := s.pathResets + 1
    remoteSessionID := 0
    remotePeerMTU := 0
    remoteSelectedFeatures := 0
    remoteMaxCarrierPayload := 0
    remoteReassemblyLifetimeMs := 0
    pendingCapabilitiesAck := false
    pendingSelectedFeatures := 0 }

def clearRemoteEpoch (now : Time) : Bool × State :=
  let (kept, s) :=
    if s.remoteEpoch ≠ 0 then
      let r := s.retiredEpochs.retain s.remoteEpoch (now + retiredEpochLifetime)
      (r.1, { s with retiredEpochs := r.2 })
    else (true, s)
  if ¬ kept then (false, s)
  else
    let (kept, s) :=
      if s.remoteSessionID ≠ 0 then
        s.retainRetired s.remoteSessionID (now + lifetime s.config.reassemblyLifetimeMs)
      else (true, s)
    if ¬ kept then (false, s) else (true, s.forgetRemote)

/-- Record an accepted Hello under its epoch. -/
def installRemote (epoch : UInt64) (hello : CapabilitiesHello)
    (decision : CapabilityDecision) : State :=
  reconcileCapabilitiesAck { s with
    remoteEpoch := epoch
    remoteSelectedFeatures := decision.selectedFeatureBits
    remoteMaxCarrierPayload := hello.maxCarrierPayload
    remoteReassemblyLifetimeMs := hello.reassemblyLifetimeMs
    flags := { s.flags with remoteCapabilities := true } }

def observeCapabilitiesHello : CapabilityDecision × State :=
  match control.body with
  | some (.capabilitiesHello hello) =>
    if validRequest control ∧ control.getPadding = [] then
      let decision := validateCapabilities s.config hello
      if decision.result ≠ .accepted then (decision, s)
      else
        let (now, s) := s.now
        let s := s.pruneRetired now
        let startReverseExchange := s.localEpoch == 0
        if s.remoteEpoch ≠ 0 ∧ s.remoteEpoch ≠ control.controlEpoch then
          if s.retiredEpochs.contains control.controlEpoch ∨ s.retiredEpochs.full ∨
              (s.remoteSessionID ≠ 0 ∧ ¬ s.retiredSessions.contains s.remoteSessionID ∧
                s.retiredSessions.full) then ({ result := .invalidParameter }, s)
          else
            match s.clearRemoteEpoch now with
            | (false, s) => ({ result := .invalidParameter }, s)
            | (true, s) =>
              ({ decision with startReverseExchange := true },
                s.installRemote control.controlEpoch hello decision)
        else
          ({ decision with startReverseExchange := startReverseExchange },
            s.installRemote control.controlEpoch hello decision)
    else ({ result := .invalidParameter }, s)
  | _ => ({ result := .invalidParameter }, s)

def observeCapabilitiesAck : ResultCode × State :=
  match control.body with
  | some (.capabilitiesAck ack) =>
    if control.getPadding = [] ∧ s.validResponse control expectedReplyTo then
      if ack.result ≠ .accepted then
        (ack.result, { s with flags := { s.flags with localCapabilities := false } })
      else if ack.selectedDataProtocolVersion ≠ dataProtocolVersion ∨
          ack.selectedFeatureBits &&& ~~~s.config.supportedFeatureBits ≠ 0 ∨
          s.config.requiredFeatureBits &&& ~~~ack.selectedFeatureBits ≠ 0 then
        (.invalidParameter, { s with flags := { s.flags with localCapabilities := false } })
      else
        let s := reconcileCapabilitiesAck { s with
          pendingCapabilitiesAck := true
          pendingSelectedFeatures := ack.selectedFeatureBits }
        if s.flags.remoteCapabilities ∧ ¬ s.flags.localCapabilities then (.invalidParameter, s)
        else (.accepted, s)
    else (.invalidParameter, s)
  | _ => (.invalidParameter, s)

def observeResetSequence : ResetDecision × State :=
  match control.body with
  | some (.resetSequence dataSessionID) =>
    if s.validRemoteRequest control ∧ control.getPadding = [] ∧
        validateDataSessionID dataSessionID = .accepted then
      let session := dataSessionID.toUInt16
      let (now, s) := s.now
      let s := s.pruneRetired now
      if s.remoteSessionID ≠ 0 ∧ s.remoteSessionID = session then
        ({ result := .sessionCollision, dataSessionID := session }, s)
      else if s.retiredSessions.contains session then
        ({ result := .sessionCollision, dataSessionID := session }, s)
      else if s.remoteSessionID ≠ 0 ∧ ¬ s.retiredSessions.contains s.remoteSessionID ∧
          s.retiredSessions.full then
        ({ result := .sessionCollision, dataSessionID := session }, s)
      else
        let decision : ResetDecision :=
          { result := .accepted, dataSessionID := session
            sessionChanged := s.remoteSessionID ≠ session }
        let s :=
          if s.remoteSessionID ≠ 0 then
            (s.retainRetired s.remoteSessionID
              (now + lifetime s.config.reassemblyLifetimeMs)).2
          else s
        (decision, { s with remoteSessionID := session })
    else ({ result := .invalidParameter }, s)
  | _ => ({ result := .invalidParameter }, s)

def observeResetSequenceAck : ResultCode × State :=
  match control.body with
  | some (.resetSequenceAck ack) =>
    if control.getPadding = [] ∧ s.validResponse control expectedReplyTo then
      if ack.result ≠ .accepted then
        (ack.result, { s with flags := { s.flags with localResetAck := false } })
      else if validateDataSessionID ack.dataSessionID ≠ .accepted ∨
          ack.dataSessionID.toUInt16 ≠ s.localSessionID then
        (.invalidParameter, { s with flags := { s.flags with localResetAck := false } })
      else
        (.accepted, { s with
          flags := { s.flags with localResetAck := true }
          localExchangeRetryAt := 0
          localExchangeRetryAttempt := 0 })
    else (.invalidParameter, s)
  | _ => (.invalidParameter, s)

def observePeerMTU : ResultCode × State :=
  match control.body with
  | some (.peerMTU innerMTU) =>
    if s.validRemoteRequest control ∧ control.getPadding = [] then
      if validatePeerMTUValue innerMTU ≠ .accepted then (validatePeerMTUValue innerMTU, s)
      else
        (.accepted, { s with
          remotePeerMTU := innerMTU
          flags := { s.flags with remotePeerMTU := true } })
    else (.invalidParameter, s)
  | _ => (.invalidParameter, s)

def observePeerMTUAck : ResultCode × State :=
  match control.body with
  | some (.peerMTUAck ack) =>
    if control.getPadding = [] ∧ s.validResponse control expectedReplyTo then
      if ack.result ≠ .accepted then
        (ack.result, { s with flags := { s.flags with localPeerMTUAck := false } })
      else if validatePeerMTUValue ack.innerMTU ≠ .accepted ∨
          ack.innerMTU ≠ s.config.localPeerMTU then
        (.invalidParameter, { s with flags := { s.flags with localPeerMTUAck := false } })
      else (.accepted, { s with flags := { s.flags with localPeerMTUAck := true } })
    else (.invalidParameter, s)
  | _ => (.invalidParameter, s)

def observePong (expectedSequence : UInt32) : ResultCode × State :=
  match control.body with
  | some (.pong sequence) =>
    if control.getPadding = [] ∧ s.validResponse control expectedReplyTo ∧
        sequence = expectedSequence then
      (.accepted, { s with flags := { s.flags with pingPong := true } })
    else (.invalidParameter, s)
  | _ => (.invalidParameter, s)

def observeBaseProbeAck : ResultCode × State :=
  match control.body with
  | some (.mtuProbeAck size) =>
    if control.getPadding = [] ∧ s.validResponse control expectedReplyTo ∧
        size = s.config.minCarrierPayload then
      (.accepted, { s with flags := { s.flags with baseProbe := true } })
    else (.invalidParameter, s)
  | _ => (.invalidParameter, s)

def checkInboundDataSession (dataSessionID : UInt16) : SessionDecision × State :=
  if dataSessionID ≠ 0 ∧ dataSessionID = s.remoteSessionID then ({ accept := true }, s)
  else if dataSessionID = 0 then ({}, s)
  else
    let (now, s) := s.now
    let sendSync : Bool :=
      !s.stateSyncSent || ¬ now < s.lastStateSync + s.config.stateSyncMinInterval
    let s := if sendSync then { s with lastStateSync := now, stateSyncSent := true } else s
    ({ sendStateSyncRequired := sendSync
       reason := .unknownDataSession
       observedSessionID := dataSessionID.toUInt32 }, s)

def observeStateSyncRequired : ResultCode × State :=
  match control.body with
  | some (.stateSyncRequired sync) =>
    if control.getPadding = [] ∧ s.validRemoteRequest control ∧
        sync.reason = .unknownDataSession ∧
        validateDataSessionID sync.observedDataSessionID = .accepted ∧
        sync.observedDataSessionID.toUInt16 = s.localSessionID then
      (.accepted, { s with
        flags := s.flags.clearLocal
        pathResets := s.pathResets + 1
        pendingCapabilitiesAck := false
        pendingSelectedFeatures := 0 })
    else (.invalidParameter, s)
  | _ => (.invalidParameter, s)

end State
end WgFrag.Control
