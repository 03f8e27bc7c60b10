import WgFrag.Control.Pmtu
import WgFrag.Control.State
import WgFrag.Lib.Eff

/-! The CONTROL engine of one peer: startup exchange, replies, retries, path gates and
carrier payload probes. Every call returns the frames to queue or an error; an error keeps
the state reached so far. -/
namespace WgFrag.Control
open WgFrag.Lib WgFrag.Wire

inductive EngineError where
  | alreadyStarted
  | notStarted
  | malformedFrame (cause : FrameError)
  | malformedProto
  | malformedControl
  | unsupportedBody
  | unexpectedResponse
  | messageIDExhausted
  | unrepresentableProbe
  | frame (cause : FrameError)
  | state (cause : StateError)
  | pmtu
  deriving DecidableEq, Repr

/-- Diagnostic reasons of the ERROR status. -/
inductive Reason where
  | none
  | baseProbeFailed
  | capabilitiesIncompatibleVersion
  | capabilitiesMissingRequired
  | capabilitiesInvalidParameter
  | capabilitiesInvalidResult
  | resetSequenceRejected
  | resetSequenceInvalidParameter
  | resetSequenceInvalidResult
  | resetSequenceRetryExhausted
  | peerMTURejected
  | peerMTUInvalidParameter
  | peerMTUInvalidResult
  deriving DecidableEq, Repr

inductive RequestKind where
  | capabilities
  | reset
  | peerMTU
  | ping
  | baseProbe
  | pmtuProbe
  deriving DecidableEq, Repr

def initialRetryDelay : Duration := 200 * millisecond
def maxRetryDelay : Duration := 60 * second
def capabilitiesRetryStartupWindow : Duration := 130 * second
def capabilitiesRetryMaxDelay : Duration := 2 * second
def probeTimeout : Duration := 2 * second
def minimumProbeTimeout : Duration := 100 * millisecond
def refreshInterval : Duration := 10 * minute
def confirmationInterval : Duration := 60 * second
def resetReplayCapacity : ℕ := 32

/-- The one request that owns the correlation slot. The frame is kept for retransmission;
exploratory probes keep none. -/
structure OutstandingRequest where
  kind : RequestKind
  messageID : UInt64
  ping : UInt32 := 0
  probeSize : UInt32 := 0
  probeAttempt : UInt64 := 0
  frame : Option Bytes := none
  retryDeadline : Time := 0
  retryAttempt : ℕ := 0
  sentAt : Time := 0
  deriving DecidableEq, Repr

structure ResetReplayKey where
  epoch : UInt64
  message : UInt64
  deriving DecidableEq, Repr

structure ResetReplayEntry where
  key : ResetReplayKey
  frame : Bytes
  deriving DecidableEq, Repr

/-- `onConfirmedPayloadChange` says whether a callback is installed. -/
structure EngineConfig where
  state : StateConfig
  canonicalizeCarrierPayload : Option (UInt32 → UInt32) := none
  transportDatagramSize : Option (UInt32 → ℤ) := none
  onConfirmedPayloadChange : Bool := false

/-- An unused replay entry is `none`. `notified` lists the payloads the change callback
was called with, newest first. -/
structure Engine where
  state : State
  codec : Codec
  base : UInt32
  pmtu : Option Pmtu.State := none
  canonicalizeCarrierPayload : Option (UInt32 → UInt32)
  transportDatagramSize : Option (UInt32 → ℤ)
  onConfirmedPayloadChange : Bool
  started : Bool := false
  localEpoch : UInt64 := 0
  localMessageID : UInt64 := 0
  remoteEpoch : UInt64 := 0
  remoteResponseID : UInt64 := 0
  nextPingSequence : UInt32 := 1
  outstanding : Option OutstandingRequest := none
  srtt : Duration := 0
  baseError : Bool := false
  baseErrorReason : Reason := .none
  terminalError : Bool := false
  terminalReason : Reason := .none
  baseRetryAt : Time := 0
  baseRetryAttempt : ℕ := 0
  lastReceivedCarrierPayload : UInt32 := 0
  pmtuHint : UInt32 := 0
  resetReplay : List (Option ResetReplayEntry) := List.replicate resetReplayCapacity none
  resetReplayNext : ℕ := 0
  notified : List UInt32 := []

abbrev EngineM := Eff Engine EngineError

namespace Engine

def new (config : EngineConfig) : Except EngineError Engine :=
  match State.new config.state with
  | .error e => .error (.state e)
  | .ok state =>
    if config.state.maxCarrierPayload.toNat < headerSize + 1 then
      .error (.frame .invalidMaxFrameSize)
    else
      .ok {
        state := state
        codec := ⟨config.state.maxCarrierPayload.toNat⟩
        base := config.state.minCarrierPayload
        canonicalizeCarrierPayload := config.canonicalizeCarrierPayload
        transportDatagramSize := config.transportDatagramSize
        onConfirmedPayloadChange := config.onConfirmedPayloadChange }

variable (P : Proto) (e : Engine)

def dataSendAllowed : Bool := !e.terminalError && e.state.dataSendAllowed

def confirmedCarrierPayload : UInt32 :=
  match e.pmtu with
  | some p => p.confirmed
  | none => 0

def pmtuProbeOutstanding : Bool :=
  match e.pmtu, e.outstanding with
  | some p, some o => o.kind == .pmtuProbe && p.inFlight
  | _, _ => false

def transportSize (payload : UInt32) : ℤ :=
  match e.transportDatagramSize with
  | some f => f payload
  | none => payload.toNat

def recoveryProbeTimeout : Duration :=
  if e.srtt ≤ 0 then probeTimeout
  else if Pmtu.maxDuration / 4 < e.srtt then Pmtu.maxDuration
  else max minimumProbeTimeout (4 * e.srtt)

def validatedPMTUHint (payload : UInt32) : UInt32 :=
  if payload ≤ e.base then 0
  else
    let ceiling := e.state.negotiatedCarrierPayload
    if ceiling = 0 ∨ ceiling < payload then 0 else payload

def validPMTUHint (payload : UInt32) : Bool := e.validatedPMTUHint payload ≠ 0

/-! ### Building frames -/

/-- Binary search for the first padding length that does not fit. -/
def searchPadding (fits : ℕ → Bool) : ℕ → ℕ → ℕ → ℕ
  | 0, lo, _ => lo
  | fuel + 1, lo, hi =>
    if lo < hi then
      let mid := lo + (hi - lo) / 2
      if fits mid then searchPadding fits fuel (mid + 1) hi else searchPadding fits fuel lo mid
    else lo

/-- The padded (or unpadded, for target zero) message that `marshal` encodes. -/
def padTo (message : Control) (targetSize : UInt32) : Except EngineError Control :=
  if targetSize ≠ 0 then
    let padded := fun n => { message with padding := some (List.replicate n 0) }
    let fits := fun n => headerSize + P.size (padded n) ≤ targetSize.toNat
    match searchPadding (fun n => fits n) (targetSize.toNat + 1) 0 (targetSize.toNat + 1) with
    | 0 => .error .unrepresentableProbe
    | best + 1 => .ok (padded best)
  else .ok { message with padding := none }

def marshal (message : Control) (targetSize : UInt32) : Except EngineError Bytes :=
  if e.codec.maxFrameSize < targetSize.toNat then .error (.frame .frameTooLarge)
  else
    match padTo P message targetSize with
    | .error err => .error err
    | .ok padded =>
      match e.codec.marshalTo (P.marshal padded) with
      | .error err => .error (.frame err)
      | .ok frame => .ok frame

def liftExcept {α : Type} (x : Except EngineError α) : EngineM α := fun e => (x, e)

def onState {α : Type} (f : State → α × State) : EngineM α :=
  Eff.onPart Engine.state (fun s e => { e with state := s }) f

def now : EngineM Time := onState State.now

def nextID (value : UInt64) : Except EngineError UInt64 :=
  if value = 0xffffffffffffffff then .error .messageIDExhausted else .ok (value + 1)

def buildControl (replyTo epoch : UInt64) (body : Body) : Control :=
  { messageID := 0, replyTo := replyTo, controlEpoch := epoch, padding := none, body := some body }

/-- Capped exponential backoff with full jitter, at least one nanosecond. -/
def retryDelayCapped (attempt : ℕ) (maxDelay : Duration) : EngineM Duration := do
  let delay := min (doubleBelow maxDelay attempt initialRetryDelay) maxDelay
  match ← onState State.uint64 with
  | none => pure delay
  | some random =>
    let jittered := (random.toNat : ℤ) % delay
    pure (if jittered = 0 then 1 else jittered)

def retryDelay (attempt : ℕ) : EngineM Duration := retryDelayCapped attempt maxRetryDelay

/-- The startup ceiling applies to a capability request while its window is open. -/
def retryCeiling (now : Time) : Duration :=
  match e.outstanding with
  | some o =>
    if o.kind = .capabilities ∧ o.sentAt ≠ 0 ∧
        now < o.sentAt + capabilitiesRetryStartupWindow then capabilitiesRetryMaxDelay
    else maxRetryDelay
  | none => maxRetryDelay

def retryDelayForOutstanding (now : Time) (attempt : ℕ) : EngineM Duration := do
  retryDelayCapped attempt ((← get).retryCeiling now)

def clearOutstanding : EngineM Unit := modify fun e => { e with outstanding := none }

def modifyOutstanding (f : OutstandingRequest → OutstandingRequest) : EngineM Unit :=
  modify fun e => { e with outstanding := e.outstanding.map f }

def releasePath : Engine :=
  { e with state := e.state.resetPathGates, outstanding := none }

def nextLocalMessageID : EngineM UInt64 := do
  let id ← liftExcept (nextID (← get).localMessageID)
  modify fun e => { e with localMessageID := id }
  pure id

def occupy (o : OutstandingRequest) : EngineM Unit := modify fun e => { e with outstanding := some o }

/-- The search owns the retries of its probes; every other request is retried by `tick`. -/
def armRetry (kind : RequestKind) (sentAt : Time) : EngineM Unit := do
  if kind ≠ .pmtuProbe then
    let delay ← retryDelayForOutstanding sentAt 0
    modifyOutstanding fun o => { o with retryDeadline := sentAt + delay }

def sendRequest (kind : RequestKind) (message : Control) (ping probeSize : UInt32) :
    EngineM (List Bytes) := do
  let messageID ← nextLocalMessageID
  let message := { message with messageID := messageID }
  let frame ← liftExcept (marshal P (← get) message probeSize)
  let actual := UInt32.ofNat frame.length
  if kind = .baseProbe ∧ actual < (← get).base then throw .unrepresentableProbe
  let sentAt ← now
  occupy {
    kind := kind, messageID := messageID, ping := ping, sentAt := sentAt
    probeSize := if kind = .baseProbe then actual else probeSize
    frame := if kind = .pmtuProbe then none else some frame }
  armRetry kind sentAt
  pure [frame]

def sendResponse (message : Control) : EngineM Bytes := do
  let messageID ← liftExcept (nextID (← get).remoteResponseID)
  modify fun e => { e with remoteResponseID := messageID }
  liftExcept (marshal P (← get) { message with messageID := messageID } 0)

/-- The unidentified request messages that the engine sends. -/
def helloRequest : Control :=
  buildControl 0 e.localEpoch (.capabilitiesHello e.state.localCapabilities)

def sendCapabilitiesHello : EngineM (List Bytes) := do
  sendRequest P .capabilities (← get).helloRequest 0 0

/-! ### Error states -/

def enterBaseError : EngineM Unit := do
  modify fun e => { e.releasePath with
    baseError := true, baseErrorReason := .baseProbeFailed, baseRetryAttempt := 0 }
  let t ← now
  let delay ← retryDelay 0
  modify fun e => { e with baseRetryAt := t + delay }

def enterTerminalError (reason : Reason) : EngineM Unit :=
  modify fun e => { e.releasePath with
    baseError := false, baseErrorReason := .none, baseRetryAt := 0, baseRetryAttempt := 0
    terminalError := true, terminalReason := reason }

def clearBaseError : EngineM Unit := do
  if (← get).baseError then
    modify fun e => { e with
      baseError := false, baseErrorReason := .none, baseRetryAt := 0, baseRetryAttempt := 0 }

def clearTerminalError : EngineM Unit :=
  modify fun e => { e with terminalError := false, terminalReason := .none }

/-- Run a computation outside the BASE error state and enter that state again. -/
def outsideBaseError {α : Type} (x : EngineM α) : EngineM α := fun e =>
  let r := x { e with baseError := false }
  (r.1, { r.2 with baseError := true })

def scheduleBaseRetry (now : Time) : EngineM Unit := do
  modify fun e => { e with
    baseError := true, baseErrorReason := .baseProbeFailed
    baseRetryAttempt := e.baseRetryAttempt + 1 }
  let delay ← retryDelay (← get).baseRetryAttempt
  modify fun e => { e with baseRetryAt := now + delay }

/-! ### Carrier payload search -/

def setPmtu (p : Option Pmtu.State) : EngineM Unit := modify fun e => { e with pmtu := p }

/-- Run an operation of the search when there is one; `none` otherwise. -/
def onPmtu {α : Type} (f : Pmtu.State → α × Pmtu.State) : EngineM (Option α) := fun e =>
  match e.pmtu with
  | some p => (.ok (some (f p).1), { e with pmtu := some (f p).2 })
  | none => (.ok none, e)

def notify (payload : UInt32) : EngineM Unit :=
  modify fun e => { e with notified := payload :: e.notified }

def emitConfirmedChange (before : UInt32) : EngineM Unit := do
  let e ← get
  match e.pmtu with
  | none => pure ()
  | some p =>
    if p.confirmed ≠ before ∧ e.onConfirmedPayloadChange then notify p.confirmed

def abortPMTUProbe : EngineM Unit := do
  if (← get).pmtu.isSome then
    let t ← now
    let _ ← onPmtu (Pmtu.State.failCurrent · t)
  clearOutstanding

def sendPMTUProbe (probe : Pmtu.Probe) : EngineM (List Bytes) := do
  let out ← sendRequest P .pmtuProbe (buildControl 0 (← get).localEpoch .mtuProbe) 0
    probe.payloadSize
  let actual := UInt32.ofNat (out.headD []).length
  if actual < (← get).base then
    abortPMTUProbe
    throw .unrepresentableProbe
  if actual ≠ probe.payloadSize then
    let adjusted ← onPmtu (Pmtu.State.adjustCurrent · probe.attempt actual)
    if adjusted ≠ some true then
      abortPMTUProbe
      throw .unrepresentableProbe
  modifyOutstanding fun o => { o with probeSize := actual, probeAttempt := probe.attempt }
  pure out

def emitPMTUProbe (now : Time) : EngineM (List Bytes) := do
  if (← get).outstanding.isSome then return []
  match ← onPmtu (Pmtu.State.next · now) with
  | some (some probe) => sendPMTUProbe P probe
  | _ => return []

def searchConfig : Pmtu.Config :=
  { base := e.base
    ceiling := e.state.negotiatedCarrierPayload
    canonicalize := e.canonicalizeCarrierPayload
    probeTimeout := probeTimeout
    refreshInterval := refreshInterval
    confirmationInterval := confirmationInterval }

/-- A new search that already knows the round-trip time. -/
def newSearch : Option Pmtu.State :=
  (Pmtu.State.new e.searchConfig).map fun search =>
    if 0 < e.srtt then search.observeRTT e.srtt else search

def startPMTU : EngineM Unit := do
  let e ← get
  if e.pmtu.isSome ∨ e.state.negotiatedCarrierPayload = 0 then return ()
  match e.newSearch with
  | none => throw .pmtu
  | some search =>
    let t ← now
    modify fun e => { e with
      pmtuHint := 0
      pmtu := some
        (if e.pmtuHint ≠ 0 then search.startWithHint t e.pmtuHint else search.start t) }

/-- Send the next request of the startup exchange, if the slot is free. -/
def progress : EngineM (List Bytes) := do
  let e ← get
  if e.started = false ∨ e.outstanding.isSome ∨ e.terminalError then return []
  let flags := e.state.flags
  if (flags.localCapabilities && flags.remoteCapabilities) = false then return []
  if flags.localResetAck = false then
    sendRequest P .reset
      (buildControl 0 e.localEpoch (.resetSequence e.state.localSessionID.toUInt32)) 0 0
  else if flags.localPeerMTUAck = false then
    sendRequest P .peerMTU
      (buildControl 0 e.localEpoch (.peerMTU e.state.config.localPeerMTU)) 0 0
  else if flags.remotePeerMTU = false then return []
  else if flags.pingPong = false then
    modify fun e => { e with nextPingSequence := e.nextPingSequence + 1 }
    sendRequest P .ping (buildControl 0 e.localEpoch (.ping e.nextPingSequence))
      e.nextPingSequence 0
  else if flags.baseProbe = false then
    sendRequest P .baseProbe (buildControl 0 e.localEpoch .mtuProbe) 0 e.base
  else
    if e.pmtu.isNone then startPMTU
    let t ← now
    emitPMTUProbe P t

/-- Close DATA and run the reachability and BASE gates again. -/
def recoverFromBlackhole (before : UInt32) : EngineM (List Bytes) := do
  let e ← get
  if e.onConfirmedPayloadChange ∧ before ≠ e.base then notify e.base
  modify fun e => { e.releasePath with pmtu := none }
  progress P

/-- After the search recorded a failure of the outstanding probe. -/
def afterProbeFailure (before : UInt32) (now : Time) : EngineM (List Bytes) := do
  if (← get).outstanding.any (·.kind = .pmtuProbe) then clearOutstanding
  if (← onPmtu Pmtu.State.takeBlackhole) = some true then recoverFromBlackhole P before
  else
    emitConfirmedChange before
    emitPMTUProbe P now

/-! ### Local exchange -/

/-- Begin an exchange: a result of the previous epoch does not survive into it. -/
def installExchange : EngineM Unit := fun e =>
  match e.state.beginLocalExchange with
  | (.error err, state) => (.error (.state err), { e with state := state })
  | (.ok exchange, state) =>
    (.ok (), { e with
      state := state, pmtu := none, pmtuHint := 0, started := true
      localEpoch := exchange.controlEpoch, localMessageID := 0, outstanding := none })

def beginLocalExchange : EngineM (List Bytes) := do
  installExchange
  sendCapabilitiesHello P

def start : EngineM (List Bytes) := do
  if (← get).started then throw .alreadyStarted
  beginLocalExchange P

/-- After a session collision a new exchange waits for its deadline. -/
def restartAfterResetCollision : EngineM (List Bytes) := fun e =>
  match e.state.restartLocalExchange with
  | (.error .localExchangeBackoff, state) => (.ok [], { e with state := state })
  | (.error _, state) =>
    (do
      enterTerminalError .resetSequenceRetryExhausted
      pure []) { e with state := state }
  | (.ok retry, state) =>
    (.ok [], { e with
      state := state, pmtu := none, localEpoch := retry.controlEpoch, localMessageID := 0 })

def reportUnknownDataSession (sessionID : UInt16) : EngineM (List Bytes) := do
  if (← get).started = false then beginLocalExchange P
  else
    let decision ← onState (State.checkInboundDataSession · sessionID)
    if decision.sendStateSyncRequired = false then return []
    let messageID ← nextLocalMessageID
    let e ← get
    let message := buildControl 0 e.localEpoch
      (.stateSyncRequired ⟨decision.reason, decision.observedSessionID⟩)
    let frame ← liftExcept (marshal P e { message with messageID := messageID } 0)
    return [frame]

/-! ### Timers and failure reports -/

/-- Retransmit an unanswered request whose deadline has passed. -/
def retryOutstanding (now : Time) : EngineM (Option (List Bytes)) := do
  match (← get).outstanding with
  | some { frame := some frame, retryDeadline := deadline, retryAttempt := attempt, .. } =>
    if now < deadline then pure none
    else
      modifyOutstanding fun o => { o with retryAttempt := attempt + 1 }
      let delay ← retryDelayForOutstanding now (attempt + 1)
      modifyOutstanding fun o => { o with retryDeadline := now + delay }
      pure (some [frame])
  | _ => pure none

def tickBaseError (now : Time) : EngineM (List Bytes) := do
  let e ← get
  match e.outstanding with
  | some o =>
    if now < o.sentAt + e.recoveryProbeTimeout then return []
    modify releasePath
    scheduleBaseRetry now
    return []
  | none =>
    if e.baseRetryAt ≠ 0 ∧ now < e.baseRetryAt then return []
    let out ← outsideBaseError
      (if e.state.flags.localCapabilities = false then sendCapabilitiesHello P else progress P)
    if out = [] then scheduleBaseRetry now
    return out

def resetRetry : EngineM (List Bytes) := do
  if (← get).baseError = false then return []
  modify fun e => { e.releasePath with baseRetryAttempt := 0 }
  let t ← now
  modify fun e => { e with baseRetryAt := t }
  let t ← now
  tickBaseError P t

/-- The part of `Tick` that advances an existing search. -/
def tickSearch (now : Time) : EngineM (List Bytes) := do
  match (← get).pmtu with
  | none => return []
  | some p =>
    let before := p.confirmed
    if (← onPmtu (Pmtu.State.tick · now)) = some true then
      if (← onPmtu Pmtu.State.takeBlackhole) = some true then recoverFromBlackhole P before
      else
        if (← get).outstanding.any (·.kind = .pmtuProbe) then clearOutstanding
        emitConfirmedChange before
        emitPMTUProbe P now
    else if (← get).outstanding.isSome then return []
    else if (← onPmtu (Pmtu.State.refreshDue · now)) = some true then
      emitConfirmedChange before
      emitPMTUProbe P now
    else if (← onPmtu (Pmtu.State.confirmationDue · now)) = some true then
      emitConfirmedChange before
      emitPMTUProbe P now
    else return []

/-- The part of `Tick` after the restart of a collided exchange; `e` is the engine before. -/
def tickOutstanding (P : Proto) (now : Time) (e : Engine) : EngineM (List Bytes) := do
  match e.outstanding with
  | some { kind := .baseProbe, frame := some _, sentAt := sentAt, .. } =>
    if now < sentAt + e.recoveryProbeTimeout then return []
    enterBaseError
    return []
  | _ =>
    match ← retryOutstanding now with
    | some frames => return frames
    | none => tickSearch P now

def tick (now : Time) : EngineM (List Bytes) := do
  let e ← get
  if e.terminalError then return []
  if e.baseError then tickBaseError P now
  else
    if e.outstanding.isNone ∧ e.state.localExchangeRetryAt ≠ 0 then
      if ← onState State.localExchangeRetryReady then
        return ← sendCapabilitiesHello P
    tickOutstanding P now e

def reportProbeFailure (now : Time) : EngineM (List Bytes) := do
  let e ← get
  if e.outstanding.any (·.kind = .baseProbe) then
    enterBaseError
    return []
  match e.pmtu with
  | none => return []
  | some p =>
    if (← onPmtu (Pmtu.State.failCurrent · now)) = some true then
      afterProbeFailure P p.confirmed now
    else return []

def reportBlackhole (now : Time) : EngineM (List Bytes) := do
  match (← get).pmtu with
  | none => return []
  | some p =>
    setPmtu (some (p.reportBlackhole now))
    clearOutstanding
    emitConfirmedChange p.confirmed
    emitPMTUProbe P now

def reportSendFailure (now : Time) (wireSize : ℤ) : EngineM (List Bytes) := do
  let e ← get
  match e.outstanding with
  | some { kind := .baseProbe, probeSize := probeSize, .. } =>
    if wireSize = 0 ∨ wireSize = e.transportSize probeSize then enterBaseError
    return []
  | _ =>
    if e.baseError ∧ e.outstanding.any (·.kind = .ping) then
      clearOutstanding
      scheduleBaseRetry now
      return []
    match e.pmtu with
    | none => return []
    | some p =>
      if e.pmtuProbeOutstanding then
        if wireSize = 0 then
          if (← onPmtu (Pmtu.State.softFailCurrent · now)) = some true then
            afterProbeFailure P p.confirmed now
          else return []
        else if e.outstanding.any (fun o => wireSize = e.transportSize o.probeSize) then
          reportProbeFailure P now
        else return []
      else if e.transportSize e.base ≤ wireSize then reportBlackhole P now
      else return []

end Engine
end WgFrag.Control
