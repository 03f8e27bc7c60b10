import WgFrag.Control.Engine

/-! Inbound CONTROL frames: admission, the handler of every message, and the replay of
answered ResetSequence requests. -/
namespace WgFrag.Control.Engine
open WgFrag.Lib WgFrag.Wire

def requireRemoteRequest (e : Engine) (message : Control) : Except EngineError Unit :=
  if message.replyTo ≠ 0 ∨ e.remoteEpoch = 0 ∨ message.controlEpoch ≠ e.remoteEpoch then
    .error .malformedControl
  else .ok ()

/-- The outstanding request that a response answers. -/
def requireResponse (e : Engine) (message : Control) (kind : RequestKind) :
    Except EngineError OutstandingRequest :=
  if e.started = false then .error .notStarted
  else
    match e.outstanding with
    | none => .error .unexpectedResponse
    | some o =>
      if o.kind ≠ kind ∨ message.replyTo ≠ o.messageID ∨ message.controlEpoch ≠ e.localEpoch then
        .error .unexpectedResponse
      else .ok o

def capabilitiesAckReason : ResultCode → Reason
  | .incompatibleVersion => .capabilitiesIncompatibleVersion
  | .missingRequiredFeature => .capabilitiesMissingRequired
  | .invalidParameter => .capabilitiesInvalidParameter
  | _ => .capabilitiesInvalidResult

def validCapabilitiesAckResult : ResultCode → Bool
  | .accepted | .incompatibleVersion | .missingRequiredFeature | .invalidParameter => true
  | _ => false

def validResultCode : ResultCode → Bool
  | .accepted | .incompatibleVersion | .missingRequiredFeature | .invalidParameter
  | .sessionCollision => true
  | _ => false

def resetSequenceReason (result : ResultCode) : Reason :=
  if result = .invalidParameter then .resetSequenceInvalidParameter else .resetSequenceRejected

def peerMTUReason (result : ResultCode) : Reason :=
  if result = .invalidParameter then .peerMTUInvalidParameter else .peerMTURejected

/-- Adopt the epoch of an accepted Hello. -/
def adoptRemoteEpoch (epoch : UInt64) : EngineM Unit :=
  modify fun e =>
    if e.remoteEpoch = epoch then e
    else if e.remoteEpoch = 0 then { e with remoteEpoch := epoch, remoteResponseID := 0 }
    else { e with remoteEpoch := epoch, remoteResponseID := 0, pmtu := none, pmtuHint := 0 }

/-- Let the first Hello of a peer bring forward the retry of our own. -/
def rearmCapabilities : EngineM Unit := do
  if (← get).outstanding.any (·.kind = .capabilities) then
    let t ← now
    let delay ← retryDelayForOutstanding t 0
    modifyOutstanding fun o => { o with
      retryAttempt := 0
      retryDeadline :=
        if o.retryDeadline = 0 ∨ t + delay < o.retryDeadline then t + delay
        else o.retryDeadline }

variable (P : Proto) (message : Control)

def helloReply (decision : CapabilityDecision) : Control :=
  buildControl message.messageID message.controlEpoch
    (.capabilitiesAck ⟨decision.selectedDataProtocolVersion, decision.selectedFeatureBits,
      decision.result⟩)

/-- What follows the reply to an accepted Hello. A collision retry has already installed a
new exchange, and `tick` sends its Hello, so before its deadline nothing begins here. -/
def afterHello (previousRemoteEpoch : UInt64)
    (startReverseExchange remoteEpochChanged : Bool) : EngineM (List Bytes) := do
  let terminalRecovered := (← get).terminalError && (previousRemoteEpoch == 0 || remoteEpochChanged)
  if terminalRecovered then clearTerminalError
  if terminalRecovered || startReverseExchange || remoteEpochChanged then
    let ready ← onState State.localExchangeRetryReady
    if (← get).state.localExchangeRetryAt ≠ 0 ∧ ready = false then return []
    beginLocalExchange P
  else
    if previousRemoteEpoch = 0 then rearmCapabilities
    progress P

def handleCapabilitiesHello : EngineM (List Bytes) := do
  if message.replyTo ≠ 0 then throw .malformedControl
  let previousRemoteEpoch := (← get).remoteEpoch
  let decision ← onState (State.observeCapabilitiesHello · message)
  if decision.result ≠ .accepted then
    let response ← sendResponse P (helloReply message decision)
    enterTerminalError (capabilitiesAckReason decision.result)
    return [response]
  else
    adoptRemoteEpoch message.controlEpoch
    let response ← sendResponse P (helloReply message decision)
    let rest ← afterHello P previousRemoteEpoch decision.startReverseExchange
      (previousRemoteEpoch ≠ 0 ∧ previousRemoteEpoch ≠ message.controlEpoch)
    return response :: rest

def handleCapabilitiesAck (ack : CapabilitiesAck) : EngineM (List Bytes) := do
  let o ← liftExcept (requireResponse (← get) message .capabilities)
  if validCapabilitiesAckResult ack.result = false then
    enterTerminalError .capabilitiesInvalidResult
    return []
  let result ← onState (State.observeCapabilitiesAck · message o.messageID)
  if result ≠ .accepted then
    enterTerminalError (capabilitiesAckReason result)
    return []
  clearOutstanding
  progress P

/-- The reply to a ResetSequence. An accepting one carries the size last received as a hint. -/
def resetReply (dataSessionID : UInt32) (result : ResultCode) : EngineM (List Bytes) := do
  let e ← get
  let hint :=
    if result = .accepted ∧ e.validPMTUHint e.lastReceivedCarrierPayload then
      some e.lastReceivedCarrierPayload
    else none
  let response ← sendResponse P (buildControl message.messageID message.controlEpoch
    (.resetSequenceAck ⟨dataSessionID, result, hint⟩))
  return [response]

def handleReset (dataSessionID : UInt32) : EngineM (List Bytes) := do
  liftExcept (requireRemoteRequest (← get) message)
  let decision ← onState (State.observeResetSequence · message)
  resetReply P message dataSessionID decision.result

def handleResetAck (ack : ResetSequenceAck) : EngineM (List Bytes) := do
  let o ← liftExcept (requireResponse (← get) message .reset)
  if validResultCode ack.result = false then
    enterTerminalError .resetSequenceInvalidResult
    return []
  let result ← onState (State.observeResetSequenceAck · message o.messageID)
  if result = .sessionCollision then
    clearOutstanding
    restartAfterResetCollision
  else if result ≠ .accepted then
    enterTerminalError (resetSequenceReason result)
    return []
  else
    modify fun e => { e with
      pmtuHint := e.validatedPMTUHint (ack.lastReceivedCarrierPayload.getD 0) }
    clearOutstanding
    progress P

def handlePeerMTU (innerMTU : UInt32) : EngineM (List Bytes) := do
  liftExcept (requireRemoteRequest (← get) message)
  let result ← onState (State.observePeerMTU · message)
  let response ← sendResponse P (buildControl message.messageID message.controlEpoch
    (.peerMTUAck ⟨innerMTU, result⟩))
  let progressed ← progress P
  return response :: progressed

def handlePeerMTUAck (ack : PeerMTUAck) : EngineM (List Bytes) := do
  let o ← liftExcept (requireResponse (← get) message .peerMTU)
  if validResultCode ack.result = false then
    enterTerminalError .peerMTUInvalidResult
    return []
  let result ← onState (State.observePeerMTUAck · message o.messageID)
  if result ≠ .accepted then
    enterTerminalError (peerMTUReason result)
    return []
  clearOutstanding
  progress P

def handlePing (sequence : UInt32) : EngineM (List Bytes) := do
  liftExcept (requireRemoteRequest (← get) message)
  let response ← sendResponse P
    (buildControl message.messageID message.controlEpoch (.pong sequence))
  return [response]

/-- Record a Ping/Pong round trip that was not retried. -/
def observeRTT (o : OutstandingRequest) : EngineM Unit := do
  if o.sentAt ≠ 0 ∧ o.retryAttempt = 0 then
    let t ← now
    let sample := t - o.sentAt
    if 0 < sample then
      modify fun e => { e with
        srtt := if e.srtt = 0 then sample else e.srtt + (sample - e.srtt).tdiv 8
        pmtu := e.pmtu.map (·.observeRTT sample) }

def handlePong : EngineM (List Bytes) := do
  let o ← liftExcept (requireResponse (← get) message .ping)
  let recovering := (← get).baseError
  let result ← onState (State.observePong · message o.messageID o.ping)
  if result ≠ .accepted then throw .malformedControl
  observeRTT o
  clearOutstanding
  if recovering then outsideBaseError (progress P) else progress P

def handleMtuProbe (receivedSize : UInt32) : EngineM (List Bytes) := do
  liftExcept (requireRemoteRequest (← get) message)
  modify fun e =>
    if e.validPMTUHint receivedSize then { e with lastReceivedCarrierPayload := receivedSize }
    else e
  let response ← sendResponse P
    (buildControl message.messageID message.controlEpoch (.mtuProbeAck receivedSize))
  return [response]

/-- The BASE gate opens, a search starts and the BASE error ends. -/
def acknowledgeBase (o : OutstandingRequest) : EngineM Unit := do
  let result ← onState (State.observeBaseProbeAck · message o.messageID)
  if result ≠ .accepted then throw .malformedControl
  clearOutstanding
  startPMTU
  clearBaseError

def acknowledgeSearch (o : OutstandingRequest) (size : UInt32) : EngineM Unit := do
  let t ← if (← get).pmtu.isSome then now else pure 0
  let acknowledged ← onPmtu (Pmtu.State.acknowledge · o.probeAttempt size t)
  if acknowledged ≠ some true then throw .malformedControl
  clearOutstanding

def handleMtuProbeAck (size : UInt32) : EngineM (List Bytes) := do
  let e ← get
  match e.outstanding with
  | none => if e.pmtu.isSome then return [] else throw .unexpectedResponse
  | some o =>
    if o.kind ≠ .baseProbe ∧ o.kind ≠ .pmtuProbe then throw .unexpectedResponse
    -- the late acknowledgement of an earlier probe is ignored, not an error
    if message.replyTo ≠ o.messageID ∨ message.controlEpoch ≠ e.localEpoch then return []
    let _ ← liftExcept (requireResponse e message o.kind)
    if size ≠ o.probeSize then throw .malformedControl
    if o.kind = .baseProbe then acknowledgeBase message o else acknowledgeSearch o size
    emitConfirmedChange e.confirmedCarrierPayload
    let t ← now
    emitPMTUProbe P t

def handleStateSyncRequired : EngineM (List Bytes) := do
  if message.replyTo ≠ 0 then throw .malformedControl
  let result ← onState (State.observeStateSyncRequired · message)
  if result ≠ .accepted then return []
  beginLocalExchange P

/-! ### Replay of answered ResetSequence requests -/

def resetReplayKeyFor : Option ResetReplayKey :=
  match message.body with
  | some (.resetSequence _) => some ⟨message.controlEpoch, message.messageID⟩
  | _ => none

def lookupResetReplay (e : Engine) (key : ResetReplayKey) : Option Bytes :=
  e.resetReplay.findSome? fun entry =>
    match entry with
    | some entry => if entry.key = key then some entry.frame else none
    | none => none

def storeResetReplay (e : Engine) (key : ResetReplayKey) (frame : Bytes) : Engine :=
  if frame = [] then e
  else
    match e.resetReplay.findIdx? (·.any (·.key = key)) with
    | some i => { e with resetReplay := e.resetReplay.set i (some ⟨key, frame⟩) }
    | none =>
      { e with
        resetReplay := e.resetReplay.set e.resetReplayNext (some ⟨key, frame⟩)
        resetReplayNext := (e.resetReplayNext + 1) % e.resetReplay.length }

/-! ### Dispatch -/

/-- During BASE recovery only requests and the awaited response pass. -/
def allowDuringBaseRecovery (e : Engine) (message : Control) : Bool :=
  if message.replyTo = 0 then true
  else
    match e.outstanding with
    | none => false
    | some o =>
      if message.replyTo ≠ o.messageID ∨ message.controlEpoch ≠ e.localEpoch then false
      else
        match o.kind, message.body with
        | .capabilities, some (.capabilitiesAck _) => true
        | .reset, some (.resetSequenceAck _) => true
        | .peerMTU, some (.peerMTUAck _) => true
        | .ping, some (.pong _) => true
        | .baseProbe, some (.mtuProbeAck _) => true
        | _, _ => false

inductive Admission where
  | ignored
  | replayed (frame : Bytes)
  | handled (message : Control) (body : Body)

/-- The message that a frame carries, and its body. -/
def decodeInbound (e : Engine) (frame : Bytes) : Except EngineError (Control × Body) :=
  match e.codec.parse frame with
  | .error err => .error (.malformedFrame err)
  | .ok payload =>
    match P.unmarshal payload with
    | none => .error .malformedProto
    | some message =>
      match message.body with
      | none => .error .malformedControl
      | some body =>
        if message.messageID = 0 ∨ message.controlEpoch = 0 then .error .malformedControl
        else if body ≠ .mtuProbe ∧ message.getPadding ≠ [] then .error .malformedControl
        else .ok (message, body)

def retiredHello : Body → EngineM Bool
  | .capabilitiesHello _ => onState (State.isRemoteEpochRetired · message.controlEpoch)
  | _ => pure false

/-- The stored reply to an answered ResetSequence of the current remote epoch. -/
def resetReplayFor (e : Engine) (message : Control) : Option Bytes :=
  match resetReplayKeyFor message with
  | some key =>
    if e.remoteEpoch ≠ 0 ∧ key.epoch = e.remoteEpoch then e.lookupResetReplay key else none
  | none => none

def admission (e : Engine) (message : Control) (body : Body) : Admission :=
  if e.baseError ∧ e.outstanding.isSome ∧ ¬ e.allowDuringBaseRecovery message then .ignored
  else
    match e.resetReplayFor message with
    | some reply => .replayed reply
    | none => .handled message body

/-- The checks made on a frame before its message reaches a handler. -/
def intake (frame : Bytes) : EngineM Admission := do
  let (message, body) ← liftExcept (decodeInbound P (← get) frame)
  if ← retiredHello message body then return .ignored
  return (← get).admission message body

def dispatch (receivedSize : UInt32) : Body → EngineM (List Bytes)
  | .capabilitiesHello _ => handleCapabilitiesHello P message
  | .capabilitiesAck ack => handleCapabilitiesAck P message ack
  | .resetSequence session => handleReset P message session
  | .resetSequenceAck ack => handleResetAck P message ack
  | .peerMTU mtu => handlePeerMTU P message mtu
  | .peerMTUAck ack => handlePeerMTUAck P message ack
  | .ping sequence => handlePing P message sequence
  | .pong _ => handlePong P message
  | .mtuProbe => handleMtuProbe P message receivedSize
  | .mtuProbeAck size => handleMtuProbeAck P message size
  | .stateSyncRequired _ => handleStateSyncRequired P message

/-- Keep the reply to a ResetSequence for its retransmissions. -/
def rememberReset (e : Engine) (message : Control) (out : List Bytes) : Engine :=
  match resetReplayKeyFor message, out with
  | some key, reply :: _ => e.storeResetReplay key reply
  | _, _ => e

def handleMessage (receivedSize : UInt32) (body : Body) : EngineM (List Bytes) := do
  let out ← dispatch P message receivedSize body
  modify (rememberReset · message out)
  return out

def handleInbound (frame : Bytes) : EngineM (List Bytes) := do
  match ← intake P frame with
  | .ignored => return []
  | .replayed reply => return [reply]
  | .handled message body => handleMessage P message (UInt32.ofNat frame.length) body

inductive Call where
  | start
  | tick (now : Time)
  | handleInbound (frame : Bytes)
  | reportUnknownDataSession (sessionID : UInt16)
  | reportProbeFailure (now : Time)
  | reportSendFailure (now : Time) (wireSize : ℤ)
  | reportBlackhole (now : Time)
  | resetRetry
  deriving DecidableEq

def call (P : Proto) : Call → EngineM (List Bytes)
  | .start => Engine.start P
  | .tick now => tick P now
  | .handleInbound frame => handleInbound P frame
  | .reportUnknownDataSession sessionID => reportUnknownDataSession P sessionID
  | .reportProbeFailure now => reportProbeFailure P now
  | .reportSendFailure now wireSize => reportSendFailure P now wireSize
  | .reportBlackhole now => reportBlackhole P now
  | .resetRetry => resetRetry P

end WgFrag.Control.Engine
