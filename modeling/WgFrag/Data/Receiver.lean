import WgFrag.Data.InnerIP
import WgFrag.Data.Reorder
import WgFrag.Data.Route

/-! The inbound DATA pipeline of one peer: reassembly, one reorder queue per lane under a
shared budget, the checks of inner packets, and synchronous delivery to a sink. -/
namespace WgFrag.Data
open WgFrag.Lib Limits
open Reassembly (Reassembler Packet SlotHandle)
open Reorder (Reorderer)

structure ReceiverConfig where
  peerID : PeerID
  dataSessionID : UInt16
  carrierSource : Addr
  carrierDest : Addr
  allowedIPs : Route.Snapshot
  slots : ℕ
  perPeerSlots : ℕ
  maxPacketSize : ℕ
  lifetime : Duration
  reorderEnabled : Bool
  reorderCapacity : ℕ
  /-- zero stands for all slots but one -/
  reorderBudget : ℕ
  reorderMaxDelay : Duration

structure ReceiverDrops where
  sourceSpoof : UInt64 := 0
  nativeFragment : UInt64 := 0
  innerInvalid : UInt64 := 0

/-- What the sink answers to a packet after those handed to it before; `false` is an error.
Without a sink nothing is handed over. -/
abbrev Sink := Option (List (Key × Bytes) → Bytes → Bool)

inductive ReceiverError where
  | invalidConfig
  | dataSession
  | budgetMismatch
  | record (e : RecordError)
  | reassembly (e : Reassembly.Error)
  | reorder (e : Reorder.Error)
  | sink
  deriving DecidableEq, Repr

/-- The log lists what was handed to the sink, with the key it came under. -/
structure Receiver where
  config : ReceiverConfig
  payloadOnly : Bool
  reassembly : Reassembler
  reorders : UInt8 → Reorderer
  outputSize : ℕ
  reorderHeld : ℤ
  reorderBudget : ℕ
  reorderDeadline : Time
  drops : ReceiverDrops
  unknownSession : UInt16
  log : List (Key × Bytes)

/-- The lanes in the order in which the source visits them. -/
def lanes : List UInt8 := (List.range 256).map UInt8.ofNat

/-- A link-local IPv6 address, also one that maps a link-local IPv4 address. -/
def Addr.isLinkLocal6 (a : Addr) : Bool := a.is6 && a.isLinkLocalUnicast

def ReceiverConfig.reassembly (c : ReceiverConfig) : Reassembly.Config where
  slots := c.slots
  maxPacketSize := c.maxPacketSize
  maxPeers := 1
  perPeerSlots := c.perPeerSlots
  lifetime := c.lifetime

def ReceiverConfig.lane (c : ReceiverConfig) (lane : UInt8) : Reorder.Config where
  enabled := c.reorderEnabled
  capacity := c.reorderCapacity
  maxDelay := c.reorderMaxDelay
  lane := ⟨0, c.dataSessionID, lane⟩
  nextSequence := 0

def ReceiverConfig.Valid (c : ReceiverConfig) (payloadOnly : Bool) : Prop :=
  c.dataSessionID ≠ 0 ∧
    (payloadOnly = false → c.carrierSource.isLinkLocal6 ∧ c.carrierDest.isLinkLocal6) ∧
    0 < c.slots ∧ 0 < c.perPeerSlots ∧ minInnerMTU ≤ c.maxPacketSize ∧
    c.maxPacketSize ≤ maxInnerMTU ∧ 0 < c.lifetime ∧
    (c.reorderEnabled → 0 < c.reorderCapacity ∧ 0 < c.reorderMaxDelay)

instance (c : ReceiverConfig) (payloadOnly : Bool) : Decidable (c.Valid payloadOnly) :=
  inferInstanceAs (Decidable (_ ∧ _ ∧ _ ∧ _ ∧ _ ∧ _ ∧ _ ∧ _))

def ReceiverConfig.budget (c : ReceiverConfig) : ℕ :=
  if c.reorderEnabled ∧ c.reorderBudget = 0 then c.slots - 1 else c.reorderBudget

/-- The receiver around a new reassembler and a new queue for every lane. -/
def ReceiverConfig.receiver (c : ReceiverConfig) (payloadOnly : Bool) (reassembly : Reassembler)
    (reorder : Reorderer) : Receiver where
  config := { c with reorderBudget := c.budget }
  payloadOnly := payloadOnly
  reassembly := reassembly
  reorders := fun lane => { reorder with config := c.lane lane }
  outputSize := if c.reorderEnabled then c.reorderCapacity + 1 else 1
  reorderHeld := 0
  reorderBudget := c.budget
  reorderDeadline := 0
  drops := {}
  unknownSession := 0
  log := []

/-- Whether a queue can be built does not depend on its lane. -/
def newConfiguredReceiver (c : ReceiverConfig) (payloadOnly : Bool) :
    Except ReceiverError Receiver :=
  if ¬ c.Valid payloadOnly then .error .invalidConfig
  else if c.reorderEnabled ∧ (c.budget = 0 ∨ c.slots ≤ c.budget) then .error .invalidConfig
  else
    match Reassembly.new c.reassembly, Reorder.new (c.lane 0) with
    | .error e, _ => .error (.reassembly e)
    | _, .error e => .error (.reorder e)
    | .ok reassembly, .ok reorder => .ok (c.receiver payloadOnly reassembly reorder)

namespace Receiver
variable (r : Receiver)

def setLane (lane : UInt8) (q : Reorderer) : Receiver :=
  { r with reorders := Function.update r.reorders lane q }

/-! ### The gap deadline -/

/-- The lane's deadline replaces a later one or none. -/
def earlierOf (deadline : Time) (lane : UInt8) : Time :=
  if (r.reorders lane).count = 0 then deadline
  else
    let candidate := (r.reorders lane).gapStartedAt + r.config.reorderMaxDelay
    if deadline = 0 ∨ candidate < deadline then candidate else deadline

def refreshReorderDeadline (recompute : Bool) (now : Time) : Receiver :=
  if ¬ r.config.reorderEnabled ∨ r.reorderHeld = 0 then { r with reorderDeadline := 0 }
  else if ¬ recompute ∧ r.reorderDeadline = 0 then
    { r with reorderDeadline := now + r.config.reorderMaxDelay }
  else if ¬ recompute then r
  else { r with reorderDeadline := lanes.foldl r.earlierOf 0 }

def considerReorderDeadline (candidate : Time) : Receiver :=
  if ¬ r.config.reorderEnabled ∨ r.reorderHeld = 0 then r
  else if r.reorderDeadline = 0 ∨ candidate < r.reorderDeadline then
    { r with reorderDeadline := candidate }
  else r

def nextReorderDeadline : Time :=
  if ¬ r.config.reorderEnabled ∨ r.reorderHeld = 0 then 0 else r.reorderDeadline

/-- A lane with an older gap replaces the one found so far. -/
def olderOf (oldest : Option UInt8) (lane : UInt8) : Option UInt8 :=
  if (r.reorders lane).count = 0 ∨
      oldest.any fun o => ¬ (r.reorders lane).gapStartedAt < (r.reorders o).gapStartedAt then oldest
  else some lane

def oldestReorderLane : Option UInt8 := lanes.foldl r.olderOf none

/-! ### Delivery -/

/-- Hand a packet over unless a check or an earlier error forbids it. -/
def handOver (sink : Sink) (packet : Packet) (firstErr : Option ReceiverError) :
    Option ReceiverError × Receiver :=
  match InnerIP.parseExact (r.reassembly.data packet) with
  | .error .nativeFragment =>
    (firstErr, { r with drops.nativeFragment := r.drops.nativeFragment + 1 })
  | .error _ => (firstErr, { r with drops.innerInvalid := r.drops.innerInvalid + 1 })
  | .ok parsed =>
    if ¬ r.config.allowedIPs.validateSource r.config.peerID parsed.source then
      (firstErr, { r with drops.sourceSpoof := r.drops.sourceSpoof + 1 })
    else
      match firstErr, sink with
      | none, some answer =>
        (if answer r.log parsed.data then none else some .sink,
          { r with log := r.log ++ [(packet.key, parsed.data)] })
      | _, _ => (firstErr, r)

def releaseError : Except Reassembly.Error Unit → Option ReceiverError
  | .ok () => none
  | .error e => some (.reassembly e)

/-- Every packet is released, also after an error. -/
def deliverLoop (sink : Sink) : List Packet → Option ReceiverError → Receiver →
    Option ReceiverError × Receiver
  | [], firstErr, r => (firstErr, r)
  | packet :: packets, firstErr, r =>
    let (firstErr, r) := r.handOver sink packet firstErr
    let (released, reassembly) := r.reassembly.release packet.handle
    deliverLoop sink packets (firstErr.or (releaseError released))
      { r with reassembly := reassembly }

end Receiver

abbrev ReceiverM := Eff Receiver ReceiverError

def deliver (packets : List Packet) (sink : Sink) : ReceiverM Unit := fun r =>
  match r.deliverLoop sink packets none with
  | (none, r) => (.ok (), r)
  | (some e, r) => (.error e, r)

def release (handle : SlotHandle) : ReceiverM Unit := fun r =>
  match r.reassembly.release handle with
  | (.ok (), reassembly) => (.ok (), { r with reassembly := reassembly })
  | (.error e, reassembly) => (.error (.reassembly e), { r with reassembly := reassembly })

/-- Release the packet in hand if the call fails. -/
def orRelease {α : Type} (packet : Packet) (x : ReceiverM α) : ReceiverM α := fun r =>
  match x r with
  | (.ok a, r) => (.ok a, r)
  | (.error e, r) => (.error e, { r with reassembly := (r.reassembly.release packet.handle).2 })

def onLane {α : Type} (lane : UInt8) (x : Eff Reorderer Reorder.Error α) : ReceiverM α := fun r =>
  match x (r.reorders lane) with
  | (.ok a, q) => (.ok a, r.setLane lane q)
  | (.error e, q) => (.error (.reorder e), r.setLane lane q)

def onReassembly {α : Type} (x : Eff Reassembler Reassembly.Error α) : ReceiverM α := fun r =>
  match x r.reassembly with
  | (.ok a, reassembly) => (.ok a, { r with reassembly := reassembly })
  | (.error e, reassembly) => (.error (.reassembly e), { r with reassembly := reassembly })

/-! ### Payloads -/

variable (now : Time) (sink : Sink)

def flushOldestReorder : ReceiverM Unit := do
  let r ← get
  match r.oldestReorderLane with
  | none => throw .budgetMismatch
  | some oldest =>
    let flushed ← onLane oldest (Reorder.flush r.outputSize)
    modify fun r => { r with reorderHeld := r.reorderHeld - flushed.length }
    modify fun r => r.refreshReorderDeadline true now
    deliver flushed sink

/-- Pass a completed packet to the queue of its lane. `beforeHeld` is the number of packets
held when the packet was completed. -/
def acceptOrdered (packet : Packet) (beforeHeld : ℤ) : ReceiverM Unit := do
  let r ← get
  let ordered ← orRelease packet
    (onLane packet.key.laneID (Reorder.accept now packet r.outputSize))
  if ordered.status = .late ∨ ordered.status = .duplicate then release packet.handle
  else
    if ordered.status = .queued then
      modify fun r => { r with reorderHeld := r.reorderHeld + 1 }
      modify fun r => r.considerReorderDeadline
        ((r.reorders packet.key.laneID).gapStartedAt + r.config.reorderMaxDelay)
    else modify fun r => { r with reorderHeld := r.reorderHeld - (ordered.delivered.length - 1) }
    let r ← get
    if r.reorderHeld = 0 ∨ beforeHeld = 0 then modify fun r => r.refreshReorderDeadline false now
    else if ordered.status = .flushed ∨
        (ordered.status = .delivered ∧ 1 < ordered.delivered.length) then
      modify fun r => r.refreshReorderDeadline true now
    deliver ordered.delivered sink

/-- Flush the lane of the packet together with it. -/
def flushLane (packet : Packet) : ReceiverM Unit := do
  let r ← get
  let flushed ← orRelease packet
    (onLane packet.key.laneID (Reorder.flushIncluding packet r.outputSize))
  modify fun r => { r with reorderHeld := r.reorderHeld - (flushed.length - 1) }
  modify fun r => r.refreshReorderDeadline true now
  deliver flushed sink

/-- The part of `acceptPayload` after a record has completed its packet. -/
def acceptCompleted (packet : Packet) : ReceiverM Unit := do
  let r ← get
  if r.config.reorderEnabled ∧ (r.reorderBudget : ℤ) ≤ r.reorderHeld ∧
      (r.reorders packet.key.laneID).wouldQueue packet.key.laneSequence then
    match r.oldestReorderLane with
    | none => orRelease packet (throw .budgetMismatch)
    | some oldest =>
      if oldest = packet.key.laneID then flushLane now sink packet
      else
        orRelease packet (flushOldestReorder now sink)
        acceptOrdered now sink packet r.reorderHeld
  else acceptOrdered now sink packet r.reorderHeld

def acceptRecord (record : Record) : ReceiverM Unit := do
  let r ← get
  if record.header.dataSessionID ≠ r.config.dataSessionID then
    set { r with unknownSession := record.header.dataSessionID }
    throw .dataSession
  else
    let key : Key :=
      ⟨0, record.header.dataSessionID, record.header.laneID, record.header.laneSequence⟩
    let result ← onReassembly (Reassembly.accept now key record)
    match result.status with
    | .completed packet => acceptCompleted now sink packet
    | _ => pure ()

def acceptPayload (now : Time) (payload : Bytes) (sink : Sink) : ReceiverM Unit :=
  parse (acceptRecord now sink) .record payload

/-! ### Timers -/

def expireReassembly (now : Time) : ReceiverM ℕ := fun r =>
  (.ok (r.reassembly.expire now).1, { r with reassembly := (r.reassembly.expire now).2 })

/-- Refresh the deadline before an error after a flush goes out. -/
def orRefresh (flushed : Bool) (now : Time) (x : ReceiverM Unit) : ReceiverM Unit := fun r =>
  match x r with
  | (.ok (), r) => (.ok (), r)
  | (.error e, r) => (.error e, if flushed then r.refreshReorderDeadline true now else r)

def tickLoop (now : Time) (sink : Sink) : List UInt8 → Bool → ReceiverM Bool
  | [], flushed => pure flushed
  | lane :: rest, flushed => do
    let r ← get
    let out ← onLane lane (Reorder.tick now r.outputSize)
    modify fun r => { r with reorderHeld := r.reorderHeld - out.length }
    let flushed := flushed || out.length != 0
    orRefresh flushed now (deliver out sink)
    tickLoop now sink rest flushed

def tickReorder : ReceiverM Unit := do
  let r ← get
  if ¬ r.config.reorderEnabled ∨ r.reorderHeld = 0 then pure ()
  else
    let flushed ← tickLoop now sink lanes false
    if flushed then modify fun r => r.refreshReorderDeadline true now
    else
      let r ← get
      if r.reorderHeld = 0 then set (r.refreshReorderDeadline false now)

/-- Errors that only reject a carrier or a packet. -/
def ReceiverError.isCarrierDrop : ReceiverError → Bool
  | .dataSession => true
  | .record _ => true
  | .reassembly e => e.isCarrierDrop
  | _ => false

end WgFrag.Data
