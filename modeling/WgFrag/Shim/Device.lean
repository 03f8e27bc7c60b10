import WgFrag.Data.Sender
import WgFrag.Lib.ByteRing

/-! The transmit side of the device: the ring of DATA carriers, the packets retained for peers
whose gate is closed, native batches, and the replacement of data planes and peers. Every call
holds the transmit lock for its whole length. -/
namespace WgFrag.Shim
open WgFrag.Lib WgFrag.Data Limits

/-! ### The ring of carriers -/

inductive QueueError where
  | carrierQueueFull
  | shortBuffer
  deriving DecidableEq, Repr

/-- The DATA ring. A slot has room for the hidden IPv6 header in front of the payload. -/
structure DataQueue where
  ring : ByteRing PeerID UInt8
  wf : ring.Wf

namespace DataQueue

variable (q : DataQueue)

def slots : ℕ := q.ring.lens.length

def payloadStride : ℕ := q.ring.stride - ipv6HeaderSize

/-- The carriers, oldest first, with their peers. -/
def contents : List (PeerID × Bytes) := q.ring.contents

def make (stride slots : ℕ) (h : 0 < slots) : DataQueue :=
  ⟨ByteRing.ofSize stride slots, ByteRing.ofSize_wf h⟩

/-- `enqueuePayloadLocked` without its counters. -/
def enqueue (peer : PeerID) (packet : Bytes) : Except QueueError DataQueue :=
  if hfull : q.ring.count = q.slots then .error .carrierQueueFull
  else if hshort : q.payloadStride < packet.length then .error .shortBuffer
  else
    .ok ⟨q.ring.push peer packet, (ByteRing.push_spec q.wf (Nat.lt_of_le_of_ne q.wf.count hfull)
      (Nat.le_trans (Nat.le_of_not_lt hshort) (Nat.sub_le _ _)) peer).1⟩

/-- The DATA step of `drainPayloadsLocked`. -/
def dequeue : Option ((PeerID × Bytes) × DataQueue) :=
  if h : q.ring.count = 0 then none
  else
    some ((q.ring.tag q.ring.head, q.ring.read q.ring.head),
      ⟨q.ring.dropHead, (ByteRing.dropHead_spec q.wf (Nat.pos_of_ne_zero h)).1⟩)

def growDataQueue (slots : ℕ) : DataQueue :=
  ⟨q.ring.grow slots, (ByteRing.grow_spec q.wf slots).1⟩

def purgeDataPeer (peer : PeerID) : DataQueue :=
  ⟨q.ring.compact (· != peer), (ByteRing.compact_spec q.wf _).1⟩

def rollbackData (wantCount : ℕ) : DataQueue :=
  ⟨ByteRing.rollback wantCount q.ring.count q.ring,
    (ByteRing.rollback_spec q.wf (Nat.le_add_left _ _)).1⟩

/-- Discard every carrier. The peers of the slots stay in place. -/
def discard : DataQueue := ⟨q.ring.reset, ByteRing.reset_wf q.wf⟩

end DataQueue

/-! ### Sizes -/

def defaultPreconfirmQueueSize : ℕ := 8

/-- The slots for two native batches and the retained packets of all peers, at most as many as
configured. Products that do not fit an `int` count as its maximum. -/
def activeCarrierQueueSlots (maxInt configured fragments batch peerCount : ℕ) : ℕ :=
  if configured = 0 then 1
  else
    let fragments := max 1 fragments
    let pending := if peerCount ≤ maxInt / defaultPreconfirmQueueSize
      then peerCount * defaultPreconfirmQueueSize else maxInt
    let packets := if batch ≤ (maxInt - pending) / 2 then batch * 2 + pending else maxInt
    let worstSlots := if packets ≤ maxInt / fragments then packets * fragments else maxInt
    min configured worstSlots

def carrierFragmentCount (carrierSize innerMTU : ℕ) : ℕ :=
  let recordPayload := carrierSize - ipv6HeaderSize - dataHeaderSize
  if recordPayload = 0 then maxFragments
  else min maxFragments (max 1 ((innerMTU + recordPayload - 1) / recordPayload))

def carrierFragmentCountForPayload (payload innerMTU : ℕ) : ℕ :=
  carrierFragmentCount (ipv6HeaderSize + payload) innerMTU

/-! ### Peers -/

/-- The ring of the packets retained for a peer. A slot is as long as the inner MTU. -/
structure PendingQueue where
  ring : ByteRing Unit UInt8
  wf : ring.Wf
  slots : ring.lens.length = defaultPreconfirmQueueSize

namespace PendingQueue

def make (innerMTU : ℕ) : PendingQueue where
  ring := .ofSize innerMTU defaultPreconfirmQueueSize
  wf := ByteRing.ofSize_wf (by decide)
  slots := List.length_replicate

variable (q : PendingQueue)

def packets : List Bytes := q.ring.contents.map Prod.snd

def pop : Option (Bytes × PendingQueue) :=
  if h : q.ring.count = 0 then none
  else
    some (q.ring.read q.ring.head, {
      ring := q.ring.dropHead
      wf := (ByteRing.dropHead_spec q.wf (Nat.pos_of_ne_zero h)).1
      slots := List.length_set.trans q.slots })

def dropOldest : PendingQueue := q.pop.elim q Prod.snd

/-- The caller has made room, and the native reader lets no packet through that is longer than a
slot. -/
def push (packet : Bytes) : PendingQueue :=
  if h : q.ring.count < q.ring.lens.length ∧ packet.length ≤ q.ring.stride then {
    ring := q.ring.push () packet
    wf := (ByteRing.push_spec q.wf h.1 h.2 ()).1
    slots := List.length_set.trans q.slots }
  else q

def clear : PendingQueue where
  ring := q.ring.reset
  wf := ByteRing.reset_wf q.wf
  slots := List.length_replicate.trans q.slots

end PendingQueue

/-- The transmit side of a peer. -/
structure PeerState where
  id : PeerID
  sender : Sender
  txSession : UInt16
  remoteMTU : ℕ
  dataFragments : ℕ
  dataCarrierSize : ℕ
  dataEnabled : Bool := false
  pendingRing : PendingQueue

def PeerState.pending (peer : PeerState) : List Bytes := peer.pendingRing.packets

/-- What the calls on peers share. `clock` are the readings to come: each call of a sender takes
one pair. -/
structure Tx where
  queue : DataQueue
  clock : ℕ → UnixTime × UnixTime
  txCarriers : ℕ := 0
  txPacketDrops : ℕ := 0
  txNativeFragmentDrops : ℕ := 0
  txRouteDrops : ℕ := 0
  txPeerMTUDrops : ℕ := 0
  carrierQueueOverflows : ℕ := 0
  preconfirmDrops : ℕ := 0

/-- The errors of a sender whose carriers go to the ring. -/
abbrev TxError := SendError QueueError

def isPacketError : TxError → Bool
  | .inner .trailingData => false
  | .inner _ => true
  | .innerDest => true
  | .peerMTU => true
  | .laneWrap => true
  | _ => false

def isQueueFull : TxError → Bool
  | .pack (.emit .carrierQueueFull) => true
  | _ => false

def enqueuePayload (peer : PeerID) (packet : Bytes) : Eff Tx QueueError Unit := fun tx =>
  match tx.queue.enqueue peer packet with
  | .ok queue => (.ok (), { tx with queue := queue, txCarriers := tx.txCarriers + 1 })
  | .error .carrierQueueFull =>
    (.error .carrierQueueFull, { tx with carrierQueueOverflows := tx.carrierQueueOverflows + 1 })
  | .error .shortBuffer => (.error .shortBuffer, tx)

/-- The Packet Too Big answer to an oversize packet is left out. -/
def dropTXPacket (e : TxError) (tx : Tx) : Tx :=
  { tx with
    txPacketDrops := tx.txPacketDrops + 1
    txNativeFragmentDrops :=
      tx.txNativeFragmentDrops + if e = .inner .nativeFragment then 1 else 0
    txRouteDrops := tx.txRouteDrops + if e = .innerDest then 1 else 0
    txPeerMTUDrops := tx.txPeerMTUDrops + if e = .peerMTU then 1 else 0 }

def Tx.tick (tx : Tx) : Tx := { tx with clock := fun k => tx.clock (k + 1) }

abbrev PeerM := Eff (PeerState × Tx) TxError

/-- Hand a packet to the sender of its peer. A packet that is refused is counted and dropped. -/
def offer (packet : Bytes) : PeerM Unit := fun s =>
  match Sender.add enqueuePayload (s.2.clock 0).1 (s.2.clock 0).2 packet
      (s.1.sender, s.2.tick) with
  | (.ok (), (sender, tx)) => (.ok (), ({ s.1 with sender := sender }, tx))
  | (.error e, (sender, tx)) =>
    if isPacketError e then (.ok (), ({ s.1 with sender := sender }, dropTXPacket e tx))
    else (.error e, ({ s.1 with sender := sender }, tx))

def flushSender : PeerM Unit := fun s =>
  match Sender.flush enqueuePayload (s.1.sender, s.2) with
  | (.ok (), (sender, tx)) => (.ok (), ({ s.1 with sender := sender }, tx))
  | (.error e, (sender, tx)) => (.error e, ({ s.1 with sender := sender }, tx))

/-- The argument bounds the rounds; each takes one packet out. -/
def flushLoop : ℕ → PeerM Unit
  | 0 => flushSender
  | more + 1 => fun s =>
    match s.1.pendingRing.pop with
    | none => flushSender s
    | some (packet, rest) =>
      (do
        offer packet
        flushLoop more) ({ s.1 with pendingRing := rest }, s.2)

def flushPending : PeerM Unit := fun s =>
  flushLoop s.1.pendingRing.ring.count s

/-- A full ring of retained packets loses its oldest one. -/
def enqueuePending (packet : Bytes) (peer : PeerState) (tx : Tx) : PeerState × Tx :=
  if peer.pendingRing.ring.count = peer.pendingRing.ring.lens.length then
    ({ peer with pendingRing := peer.pendingRing.dropOldest.push packet },
      { tx with preconfirmDrops := tx.preconfirmDrops + 1 })
  else ({ peer with pendingRing := peer.pendingRing.push packet }, tx)

def PeerState.resetPending (peer : PeerState) : PeerState :=
  { peer with sender := peer.sender.resetPending }

/-- The peers, each at its place. -/
abbrev Peers := List (Option PeerState)

abbrev PeerConfigs := List (PeerID × SenderConfig)

def activePeerCount (peers : Peers) : ℕ := (peers.filter Option.isSome).length

def maxPeerFragments (peers : Peers) : ℕ :=
  peers.foldl (fun m peer => max m (peer.elim 0 PeerState.dataFragments)) 1

def maxPeerCarrierSize (peers : Peers) : ℕ :=
  peers.foldl (fun m peer => max m (peer.elim 0 PeerState.dataCarrierSize)) 0

/-! ### The device -/

/-- Why the transmit side has stopped. -/
inductive Fatal where
  | send (e : TxError)
  | shortBuffer
  deriving DecidableEq

inductive DeviceError where
  | invalidConfig
  | peerNotFound
  | send (e : TxError)
  deriving DecidableEq

/-- Removed peers leave holes. `maxInt` is the largest `int` of the platform; `reading` says that
the native reader is still running. -/
structure Device where
  peers : Peers
  routes : Option Route.Snapshot
  tx : Tx
  batch : ℕ
  innerMTU : ℕ
  dataFragments : ℕ
  queueLimit : ℕ
  controlStride : ℕ
  maxInt : ℕ
  txFatal : Option Fatal := none
  reading : Bool := true

namespace Device

variable (d : Device)

def setPeer (index : ℕ) (peer : PeerState) : Device :=
  { d with peers := d.peers.set index (some peer) }

def setQueue (queue : DataQueue) : Device := { d with tx := { d.tx with queue := queue } }

def peerFor (id : PeerID) : Option PeerState := d.peers.getD id none

/-- Without routes the sole peer takes every packet. -/
def routePacket (packet : Bytes) : Except TxError (ℕ × PeerState) :=
  match InnerIP.parse packet with
  | .error e => .error (.inner e)
  | .ok parsed =>
    match d.routes with
    | none =>
      match (d.peers.zipIdx.filterMap fun (peer, i) => peer.map (i, ·)) with
      | [found] => .ok found
      | _ => .error .innerDest
    | some routes =>
      match routes.lookupPeer parsed.destination with
      | none => .error .innerDest
      | some id =>
        match d.peerFor id with
        | none => .error .innerDest
        | some peer => .ok (id, peer)

def onPeer (index : ℕ) (x : PeerM Unit) : Eff Device TxError Unit := fun d =>
  match d.peerFor index with
  | none => (.ok (), d)
  | some peer =>
    match x (peer, d.tx) with
    | (out, (peer, tx)) => (out, { d.setPeer index peer with tx := tx })

/-- Run a call on every peer of the list whose gate is open, until one fails. -/
def forEnabled (x : PeerM Unit) : List ℕ → Eff Device TxError Unit
  | [] => pure ()
  | index :: rest => do
    let d ← get
    if (d.peerFor index).any PeerState.dataEnabled then onPeer index x
    forEnabled x rest

/-! ### Native batches -/

/-- One packet of a native read: its size as reported, and the buffer after the read offset. -/
structure NativeRead where
  size : ℤ
  buffer : Bytes

def takePacket (packet : Bytes) : Eff Device TxError Unit := fun d =>
  match d.routePacket packet with
  | .error e => (.ok (), { d with tx := dropTXPacket e d.tx })
  | .ok (index, peer) =>
    if peer.dataEnabled then onPeer index (offer packet) d
    else
      match enqueuePending packet peer d.tx with
      | (peer, tx) => (.ok (), { d.setPeer index peer with tx := tx })

inductive BatchError where
  | size
  | send (e : TxError)

/-- The buffers are as long as the inner MTU. -/
def readLoop : List NativeRead → Eff Device BatchError Unit
  | [] => pure ()
  | read :: rest => fun d =>
    if read.size < 0 ∨ d.innerMTU < read.size then (.error .size, d)
    else
      match takePacket (read.buffer.take read.size.toNat) d with
      | (.ok (), d) => readLoop rest d
      | (.error e, d) => (.error (.send e), d)

def rollback (startCount : ℕ) : Device :=
  d.setQueue (d.tx.queue.rollbackData startCount)

def stop (fatal : Fatal) : Device := { d with txFatal := some fatal, reading := false }

/-- A full ring drops the batch; every other error stops the native reader. -/
def failBatch (startCount : ℕ) (e : TxError) : Bool × Device :=
  if isQueueFull e then
    (true, { d.rollback startCount with peers := d.peers.map (Option.map PeerState.resetPending) })
  else (false, d.stop (.send e))

def processNativeBatch (reads : List NativeRead) (d : Device) : Bool × Device :=
  let startCount := d.tx.queue.ring.count
  match forEnabled flushPending (List.range d.peers.length) d with
  | (.error e, d) => d.failBatch startCount e
  | (.ok (), d) =>
    match readLoop reads d with
    | (.error .size, d) => (false, (d.rollback startCount).stop .shortBuffer)
    | (.error (.send e), d) => d.failBatch startCount e
    | (.ok (), d) =>
      match forEnabled flushSender (List.range d.peers.length) d with
      | (.error e, d) => d.failBatch startCount e
      | (.ok (), d) => (true, d)

def setDataEnabled (id : PeerID) (enabled : Bool) : Eff Device DeviceError Unit := fun d =>
  match d.peerFor id with
  | none => (.error .peerNotFound, d)
  | some peer =>
    if ¬ enabled then
      (.ok (), d.setPeer id { peer with
        dataEnabled := false
        pendingRing := peer.pendingRing.clear })
    else if peer.dataEnabled then (.ok (), d)
    else
      let startCount := d.tx.queue.ring.count
      match flushPending ({ peer with dataEnabled := true }, d.tx) with
      | (.ok (), (flushed, tx)) => (.ok (), { d.setPeer id flushed with tx := tx })
      | (.error e, (flushed, tx)) =>
        if isQueueFull e then
          -- Every packet that was retained when the gate opened is counted as dropped.
          (.ok (), { d.setPeer id flushed.resetPending with
            tx := { tx with
              queue := tx.queue.rollbackData startCount
              preconfirmDrops := tx.preconfirmDrops + peer.pendingRing.ring.count } })
        else
          (.error (.send e), { d.setPeer id { flushed with dataEnabled := false } with
            tx := tx, txFatal := some (.send e) })

/-! ### Replacement of data planes and peers -/

/-- A session that stays the same keeps its sequences and pauses. -/
def carried (peer : PeerState) (config : SenderConfig) : SenderConfig :=
  if peer.txSession = config.dataSessionID then
    { config with
      initialSequences := some peer.sender.sequences
      initialWrapBlocks := some peer.sender.wrapBlocks }
  else config

/-- `accepted` says that the checks on the receiver and on the carrier addresses pass. The new
sender is in place before the last check. -/
def installDataPlane (id : PeerID) (config : SenderConfig) (accepted : Bool) :
    Eff Device DeviceError Unit := fun d =>
  if accepted = false ∨ config.dataSessionID = 0 ∨ config.peerID ≠ id ∨
      d.controlStride < config.carrierPayload + ipv6HeaderSize ∨
      ¬ ValidMinCarrierPayload config.remotePeerMTU config.carrierPayload then
    (.error .invalidConfig, d)
  else
    match d.peerFor id with
    | none => (.error .peerNotFound, d)
    | some peer =>
      let config := carried peer config
      match (newPayloadSender config : Except TxError Sender) with
      | .error _ => (.error .invalidConfig, d)
      | .ok sender =>
        let d := d.setPeer id { peer with
          sender := sender
          txSession := config.dataSessionID
          remoteMTU := config.remotePeerMTU
          dataFragments := carrierFragmentCountForPayload config.carrierPayload d.innerMTU
          dataCarrierSize := config.carrierPayload + ipv6HeaderSize }
        let d := { d with dataFragments := maxPeerFragments d.peers }
        let size := maxPeerCarrierSize d.peers
        let slots := activeCarrierQueueSlots d.maxInt d.queueLimit d.dataFragments d.batch
          (activePeerCount d.peers)
        if h : slots = 0 ∨ size = 0 ∨ d.maxInt / slots < size then (.error .invalidConfig, d)
        else if size ≠ d.tx.queue.ring.stride ∨ slots ≠ d.tx.queue.slots then
          (.ok (), d.setQueue (.make size slots (Nat.pos_of_ne_zero (not_or.mp h).1)))
        else (.ok (), d.setQueue d.tx.queue.discard)

/-- A new peer with its gate closed. -/
def newPeerState (id : PeerID) (config : SenderConfig) : Except DeviceError PeerState :=
  match (newPayloadSender config : Except TxError Sender) with
  | .error _ => .error .invalidConfig
  | .ok sender =>
    .ok {
      id := id
      sender := sender
      txSession := config.dataSessionID
      remoteMTU := config.remotePeerMTU
      dataFragments := carrierFragmentCountForPayload config.carrierPayload d.innerMTU
      dataCarrierSize := ipv6HeaderSize + config.carrierPayload
      pendingRing := .make d.innerMTU }

def validatePeerConfig (id : PeerID) (config : SenderConfig) : Bool :=
  config.peerID = id ∧ config.carrierPayload + ipv6HeaderSize ≤ d.controlStride ∧
    ValidMinCarrierPayload config.remotePeerMTU config.carrierPayload

def removePeers : List PeerID → Peers → Option Peers
  | [], peers => some peers
  | id :: rest, peers =>
    if (peers.getD id none).isSome then removePeers rest (peers.set id none) else none

def addPeers (d : Device) (routes : Option Route.Snapshot) : PeerConfigs → Peers → Option Peers
  | [], peers => some peers
  | (id, config) :: rest, peers =>
    if (peers.getD id none).isSome then none
    else
      let config := if routes.isSome then { config with allowedIPs := routes } else config
      match d.newPeerState id config with
      | .error _ => none
      | .ok peer => addPeers d routes rest (peers.set id (some peer))

/-- The peers that stay look their destinations up in the new routes. -/
def rerouted (routes : Option Route.Snapshot) (added : List PeerID) (peer : PeerState) : PeerState :=
  if peer.id ∈ added then peer
  else { peer with sender.config.allowedIPs := routes }

/-- `accepted` says that the checks on the receivers and on the carrier addresses pass. -/
def reconfigure (added : PeerConfigs) (removed : List PeerID)
    (routes : Option Route.Snapshot) (accepted : Bool) : Eff Device DeviceError Unit := fun d =>
  if accepted = false ∨ ∃ new ∈ added, d.validatePeerConfig new.1 new.2 = false ∨
      d.peers.length ≤ new.1 ∧ d.maxInt ≤ new.1 then (.error .invalidConfig, d)
  else
    let width := added.foldl (fun w new => max w (new.1 + 1)) d.peers.length
    let holes := List.replicate (width - d.peers.length) none
    match (removePeers removed (d.peers ++ holes)).bind (d.addPeers routes added) with
    | none => (.error .invalidConfig, d)
    | some peers =>
      if ∃ new ∈ added, d.tx.queue.ring.stride < new.2.carrierPayload + ipv6HeaderSize then
        (.error .invalidConfig, d)
      else
        let peers := peers.map (Option.map (rerouted routes (added.map Prod.fst)))
        let fragments := max d.dataFragments (maxPeerFragments peers)
        let queue := d.tx.queue.growDataQueue (activeCarrierQueueSlots d.maxInt d.queueLimit
          fragments d.batch (activePeerCount peers))
        let queue := removed.foldl DataQueue.purgeDataPeer queue
        (.ok (), { d.setQueue queue with
          peers := peers, routes := routes, dataFragments := fragments })

/-! ### Construction and runs -/

structure DeviceConfig where
  peers : List SenderConfig
  routes : Option Route.Snapshot
  carrierQueueSize : ℕ
  maxCarrierPayload : ℕ
  dataInitiallyEnabled : Bool
  batch : ℕ
  nativeMTU : ℕ
  nativeReadOffset : ℕ
  nativeWriteOffset : ℕ
  maxInt : ℕ
  clock : ℕ → UnixTime × UnixTime

def newPeers (d : Device) (enabled : Bool) : ℕ → List SenderConfig → Option Peers
  | _, [] => some []
  | id, config :: rest =>
    if config.peerID ≠ id then none
    else
      match d.newPeerState id config, newPeers d enabled (id + 1) rest with
      | .ok peer, some peers => some (some { peer with dataEnabled := enabled } :: peers)
      | _, _ => none

/-- `accepted` says that the checks on the receivers, on the carrier addresses and on the other
parts of the configuration pass. -/
def new (c : DeviceConfig) (accepted : Bool) : Except DeviceError Device :=
  let maxCarrierPayload := c.peers.foldl (fun m p => max m p.carrierPayload) c.maxCarrierPayload
  let largestCarrier := c.peers.foldl (fun m p => max m (ipv6HeaderSize + p.carrierPayload)) 0
  let fragments := c.peers.foldl
    (fun m p => max m (carrierFragmentCountForPayload p.carrierPayload c.nativeMTU)) 1
  let slots := activeCarrierQueueSlots c.maxInt c.carrierQueueSize fragments c.batch c.peers.length
  if h : accepted = false ∨ c.peers = [] ∨ c.carrierQueueSize = 0 ∨ c.batch = 0 ∨
      ¬ ValidInnerMTU c.nativeMTU ∨ c.nativeMTU < c.nativeReadOffset ∨
      c.nativeMTU < c.nativeWriteOffset ∨ c.maxInt / c.nativeMTU < c.batch ∨
      c.maxInt / c.batch < c.nativeReadOffset + c.nativeMTU ∨
      c.maxInt / c.batch < c.nativeWriteOffset + c.nativeMTU ∨
      (∃ p ∈ c.peers, ¬ ValidMinCarrierPayload p.remotePeerMTU p.carrierPayload) ∨
      maxUint16 - ipv6HeaderSize < maxCarrierPayload ∨ slots = 0 ∨
      c.maxInt / slots < largestCarrier then .error .invalidConfig
  else
    let d : Device := {
      peers := []
      routes := c.routes
      tx := { queue := .make largestCarrier slots (by simp only [not_or] at h; omega), clock := c.clock }
      batch := c.batch
      innerMTU := c.nativeMTU
      dataFragments := fragments
      queueLimit := c.carrierQueueSize
      controlStride := ipv6HeaderSize + maxCarrierPayload
      maxInt := c.maxInt }
    match newPeers d c.dataInitiallyEnabled 0 c.peers with
    | none => .error .invalidConfig
    | some peers => .ok { d with peers := peers }

inductive Call where
  | batch (reads : List NativeRead)
  | setDataEnabled (id : PeerID) (enabled : Bool)
  | install (id : PeerID) (config : SenderConfig) (accepted : Bool)
  | reconfigure (added : PeerConfigs) (removed : List PeerID)
    (routes : Option Route.Snapshot) (accepted : Bool)
  | dequeue
  | resetTransportErrors

/-- The native reader has ended after a fatal batch. -/
def call : Call → Device
  | .batch reads => if d.reading then (processNativeBatch reads d).2 else d
  | .setDataEnabled id enabled => (setDataEnabled id enabled d).2
  | .install id config accepted => (installDataPlane id config accepted d).2
  | .reconfigure added removed routes accepted => (reconfigure added removed routes accepted d).2
  | .dequeue => (d.tx.queue.dequeue).elim d fun taken => d.setQueue taken.2
  | .resetTransportErrors => { d with txFatal := none }

def runCalls (calls : List Call) : Device := calls.foldl call d

end Device
end WgFrag.Shim
