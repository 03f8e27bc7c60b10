import WgFrag.Data.Record
import WgFrag.Lib.Probe

/-! Fixed-capacity reassembly: slots with their buffers, the list of free slots threaded
through them, the counters of the peers, and the key index. -/
namespace WgFrag.Data
open WgFrag.Lib

structure Key where
  peerID : ℕ
  dataSessionID : UInt16
  laneID : UInt8
  laneSequence : UInt32
  deriving DecidableEq, Repr, Inhabited

/-- The key of a record in the reassembler of its peer. -/
def Record.key (record : Record) : Key :=
  ⟨0, record.header.dataSessionID, record.header.laneID, record.header.laneSequence⟩

namespace Reassembly

inductive Panic where
  | evictedSlotMissing
  | nonFreeSlot
  | keyIndexExhausted
  deriving DecidableEq, Repr

/-- A panic ends the call like an error does. -/
inductive Error where
  | invalidConfig
  | invalidPeer
  | invalidKey
  | keyMismatch
  | invalidFragment
  | invalidRange
  | fragmentCountMismatch
  | fragmentConflict
  | fragmentOverlap
  | coverage
  | peerQuota
  | noSlot
  | invalidHandle
  | completedPacketConflict
  | panicked (p : Panic)
  deriving DecidableEq, Repr

/-- The errors that only reject a record. -/
def Error.isCarrierDrop : Error → Bool
  | .invalidKey | .keyMismatch | .invalidFragment | .invalidRange | .fragmentCountMismatch
  | .fragmentConflict | .fragmentOverlap | .coverage | .peerQuota | .noSlot
  | .completedPacketConflict => true
  | _ => false

structure Config where
  slots : ℕ
  maxPacketSize : ℕ
  maxPeers : ℕ
  perPeerSlots : ℕ
  lifetime : Duration

def maxInt : ℕ := 9223372036854775807

def Config.Valid (c : Config) : Prop :=
  0 < c.slots ∧ 0 < c.maxPacketSize ∧ c.maxPacketSize ≤ 65535 ∧ 0 < c.maxPeers ∧
    0 < c.perPeerSlots ∧ c.perPeerSlots ≤ c.slots ∧ 0 < c.lifetime ∧
    c.slots ≤ maxInt / c.maxPacketSize

instance (c : Config) : Decidable c.Valid :=
  inferInstanceAs (Decidable (_ ∧ _ ∧ _ ∧ _ ∧ _ ∧ _ ∧ _ ∧ _))

inductive SlotState where
  | free
  | assembling
  | completed
  deriving DecidableEq, Repr

/-- Where the bytes of a fragment lie in the packet. -/
structure Extent where
  offset : ℕ
  length : ℕ
  deriving DecidableEq, Repr

def Extent.stop (x : Extent) : ℕ := x.offset + x.length

/-- The extents of the fragments present, by index, stand for the bit set and the two arrays. -/
structure Slot where
  state : SlotState := .free
  detached : Bool := false
  counted : Bool := false
  freeNext : Option ℕ := none
  generation : UInt64 := 0
  born : UInt64 := 0
  key : Key := default
  firstSeen : Time := 0
  count : UInt8 := 0
  frags : List (Option Extent) := []
  packetLen : ℕ := 0
  buf : Bytes

/-- A free slot keeps its generation and its buffer. -/
def Slot.cleared (s : Slot) (next : Option ℕ) : Slot :=
  { generation := s.generation, buf := s.buf, freeNext := next }

def Slot.started (s : Slot) (now : Time) (key : Key) (count : UInt8) (born : UInt64) : Slot :=
  { state := .assembling
    counted := true
    generation := s.generation + 1
    born := born
    key := key
    firstSeen := now
    count := count
    frags := List.replicate count.toNat none
    buf := s.buf }

def countDown (n : UInt32) : UInt32 := if 0 < n then n - 1 else n

/-- A cell of the key index holds a slot index or is empty. The source masks positions with
the length minus one, which is a power of two: that is the remainder. -/
structure Reassembler where
  config : Config
  hash : Key → UInt64
  slots : List Slot
  peerCounts : List UInt32
  keySlots : List (Option ℕ)
  freeHead : Option ℕ
  nextBorn : UInt64

structure SlotHandle where
  index : ℕ
  generation : UInt64
  deriving DecidableEq, Repr

/-- The data of a completed packet is the first `length` bytes of its slot. -/
structure Packet where
  handle : SlotHandle
  key : Key
  length : ℕ
  deriving DecidableEq, Repr

inductive Status where
  | accepted
  | duplicate
  | completed (packet : Packet)
  deriving DecidableEq, Repr

structure Result where
  status : Status
  evicted : Option Key
  deriving DecidableEq, Repr

/-- SplitMix64 finalization of the packed key. -/
def hashKey (key : Key) : UInt64 :=
  let x := UInt64.ofNat key.peerID <<< 40 ||| key.dataSessionID.toUInt64 <<< 24 |||
    key.laneID.toUInt64 <<< 16
  let x := x ^^^ key.laneSequence.toUInt64
  let x := x + 0x9e3779b97f4a7c15
  let x := (x ^^^ (x >>> 30)) * 0xbf58476d1ce4e5b9
  let x := (x ^^^ (x >>> 27)) * 0x94d049bb133111eb
  x ^^^ (x >>> 31)

/-- Double `size` until it is at least `want`; the first argument bounds the doublings. -/
def keyIndexLoop (want : ℕ) : ℕ → ℕ → Option ℕ
  | 0, size => if size < want then none else some size
  | k + 1, size =>
    if size < want then
      if maxInt / 2 < size then none else keyIndexLoop want k (size * 2)
    else some size

def keyIndexSize (slots : ℕ) : Option ℕ :=
  if maxInt / 2 < slots then none else keyIndexLoop (slots * 2) 63 1

@[simps] def Config.freeSlot (config : Config) (i : ℕ) : Slot where
  buf := List.replicate config.maxPacketSize 0
  freeNext := if i + 1 < config.slots then some (i + 1) else none

@[simps] def Config.initial (config : Config) (hash : Key → UInt64) (size : ℕ) : Reassembler where
  config := config
  hash := hash
  slots := (List.range config.slots).map config.freeSlot
  peerCounts := List.replicate config.maxPeers 0
  keySlots := List.replicate size none
  freeHead := some 0
  nextBorn := 0

def new (config : Config) (hash : Key → UInt64 := hashKey) : Except Error Reassembler :=
  if config.Valid then
    match keyIndexSize config.slots with
    | none => .error .invalidConfig
    | some size => .ok (config.initial hash size)
  else .error .invalidConfig

end Reassembly

namespace Reassembly.Reassembler
variable (r : Reassembler)

/-- The slot at an index. The source indexes the array, which has every index in use. -/
def slot (index : ℕ) : Slot := r.slots.getD index { buf := [] }

def setSlot (index : ℕ) (s : Slot) : Reassembler := { r with slots := r.slots.set index s }

def peerCount (peer : ℕ) : UInt32 := r.peerCounts.getD peer 0

def setPeerCount (peer : ℕ) (n : UInt32) : Reassembler :=
  { r with peerCounts := r.peerCounts.set peer n }

/-! ### The key index -/

def keyPosition (key : Key) : ℕ := (r.hash key).toNat % r.keySlots.length

/-- The home cell of a slot in the index. -/
def home (index : ℕ) : ℕ := r.keyPosition (r.slot index).key

def isActive (key : Key) (index : ℕ) : Bool :=
  !(r.slot index).detached && (r.slot index).state != .free && (r.slot index).key == key

def findKey (key : Key) : Option ℕ :=
  match Probe.search r.keySlots (r.isActive key) r.keySlots.length (r.keyPosition key) with
  | some p => r.keySlots[p]?.join
  | none => none

def insertKey (index : ℕ) : Except Error Reassembler :=
  match Probe.vacancy r.keySlots r.keySlots.length (r.home index) with
  | some p => .ok { r with keySlots := r.keySlots.set p (some index) }
  | none => .error (.panicked .keyIndexExhausted)

def deleteKeyPosition (position : ℕ) : Reassembler :=
  { r with keySlots := Probe.delete r.home r.keySlots position }

def removeKey (key : Key) : Reassembler :=
  match Probe.search r.keySlots (fun i => (r.slot i).key == key) r.keySlots.length
      (r.keyPosition key) with
  | some p => r.deleteKeyPosition p
  | none => r

/-! ### Slots -/

/-- Count one slot less for the peer of a counted slot. -/
def uncount (index : ℕ) : Reassembler :=
  let s := r.slot index
  if s.counted then
    let r := r.setPeerCount s.key.peerID (countDown (r.peerCount s.key.peerID))
    r.setSlot index { s with counted := false }
  else r

def clearSlot (index : ℕ) : Reassembler :=
  if (r.slot index).state = .free then r
  else
    let r := if (r.slot index).detached then r else r.removeKey (r.slot index).key
    let r := r.uncount index
    { r.setSlot index ((r.slot index).cleared r.freeHead) with freeHead := some index }

def dropAssemblingKey (key : Key) : Reassembler :=
  match r.findKey key with
  | some index => if (r.slot index).state = .assembling then r.clearSlot index else r
  | none => r

def expired (s : Slot) (now : Time) : Bool := s.firstSeen + r.config.lifetime ≤ now

/-- First seen earlier, or at the same time and started earlier. -/
def older (s t : Slot) : Bool :=
  s.firstSeen < t.firstSeen || (s.firstSeen == t.firstSeen && s.born < t.born)

/-- One step of the scan for the oldest assembling slot, of `peer` only if one is given. -/
def olderOf (peer : Option ℕ) (oldest : Option ℕ) (index : ℕ) : Option ℕ :=
  let s := r.slot index
  if s.state ≠ .assembling ∨ peer.any (· ≠ s.key.peerID) then oldest
  else if oldest.all fun i => older s (r.slot i) then some index
  else oldest

def oldestAssembling (peer : Option ℕ) : Option ℕ :=
  (List.range r.slots.length).foldl (r.olderOf peer) none

end Reassembly.Reassembler

namespace Reassembly

def takeFreeSlot : Eff Reassembler Error (Option ℕ) := do
  let r ← get
  match r.freeHead with
  | none => pure none
  | some index =>
    if (r.slot index).state ≠ .free then throw (.panicked .nonFreeSlot)
    set { r.setSlot index { r.slot index with freeNext := none } with
      freeHead := (r.slot index).freeNext }
    pure (some index)

def startSlot (index : ℕ) (now : Time) (key : Key) (count : UInt8) :
    Eff Reassembler Error Unit := do
  let r ← get
  let r := { r.setSlot index ((r.slot index).started now key count (r.nextBorn + 1)) with
    nextBorn := r.nextBorn + 1 }
  let r := r.setPeerCount key.peerID (r.peerCount key.peerID + 1)
  set r
  match r.insertKey index with
  | .ok r => set r
  | .error e => throw e

/-- Start a slot for the key over an assembling one, whose key is returned. -/
def replaceSlot (index : ℕ) (now : Time) (key : Key) (count : UInt8) :
    Eff Reassembler Error (ℕ × Option Key) := do
  let evicted := ((← get).slot index).key
  modify (·.clearSlot index)
  if (← takeFreeSlot) ≠ some index then throw (.panicked .evictedSlotMissing)
  startSlot index now key count
  pure (index, some evicted)

/-- A new slot for the key and the key evicted for it; none without a slot to take. -/
def allocateSlot (now : Time) (key : Key) (count : UInt8) :
    Eff Reassembler Error (Option (ℕ × Option Key)) := do
  let r ← get
  if r.config.perPeerSlots ≤ (r.peerCount key.peerID).toNat then
    match r.oldestAssembling (some key.peerID) with
    | none => pure none
    | some oldest => some <$> replaceSlot oldest now key count
  else
    match ← takeFreeSlot with
    | some index =>
      startSlot index now key count
      pure (some (index, none))
    | none =>
      match (← get).oldestAssembling none with
      | none => pure none
      | some oldest => some <$> replaceSlot oldest now key count

/-! ### Accept -/

def validateKey (config : Config) (key : Key) : Except Error Unit :=
  if config.maxPeers ≤ key.peerID then .error .invalidPeer
  else if key.dataSessionID = 0 then .error .invalidKey
  else .ok ()

def validateRecord (config : Config) (key : Key) (record : Record) : Except Error Unit :=
  let h := record.header
  if h.dataSessionID ≠ key.dataSessionID ∨ h.laneID ≠ key.laneID ∨
      h.laneSequence ≠ key.laneSequence then .error .keyMismatch
  else if h.fragmentCount < 1 ∨ 16 < h.fragmentCount ∨ h.fragmentCount ≤ h.fragmentIndex then
    .error .invalidFragment
  else if record.data.length < 1 ∨ config.maxPacketSize < record.data.length then
    .error .invalidRange
  else if config.maxPacketSize - record.data.length < h.offset.toNat then .error .invalidRange
  else .ok ()

def conflict (index : ℕ) (e : Error) : Eff Reassembler Error Result := do
  if ((← get).slot index).state = .completed then throw .completedPacketConflict
  modify (·.clearSlot index)
  throw e

/-- Chain `n` fragments by their offsets, starting at `next`, each used once. -/
def contiguousLoop (frags : List (Option Extent)) : ℕ → List ℕ → ℕ → Option ℕ
  | 0, _, next => some next
  | n + 1, used, next =>
    match (List.range frags.length).find? fun i =>
        i ∉ used ∧ (frags[i]?.join.map Extent.offset) = some next with
    | none => none
    | some i =>
      contiguousLoop frags n (i :: used) (next + (frags[i]?.join.map Extent.length).getD 0)

def contiguousLength (s : Slot) : Option ℕ := contiguousLoop s.frags s.count.toNat [] 0

/-- The bytes of a record as a place in the packet. -/
def extent (record : Record) : Extent := ⟨record.header.offset.toNat, record.data.length⟩

/-- Copy `data` over the buffer from `start` on. -/
def splice (buf : Bytes) (start : ℕ) (data : Bytes) : Bytes :=
  buf.take start ++ data ++ buf.drop (start + data.length)

def overlaps (frags : List (Option Extent)) (x : Extent) : Bool :=
  frags.any fun f => f.any fun y => x.offset < y.stop && y.offset < x.stop

def Slot.store (s : Slot) (record : Record) : Slot :=
  { s with
    buf := splice s.buf record.header.offset.toNat record.data
    frags := s.frags.set record.header.fragmentIndex.toNat (some (extent record)) }

def Slot.completed (s : Slot) (packetLen : ℕ) : Slot :=
  { s with state := .completed, packetLen := packetLen }

/-- The part of `Accept` after the slot of the key is known. -/
def storeRecord (index : ℕ) (evicted : Option Key) (record : Record) :
    Eff Reassembler Error Result := do
  let s := (← get).slot index
  if s.count ≠ record.header.fragmentCount then conflict index .fragmentCountMismatch
  else
    let x := extent record
    match s.frags[record.header.fragmentIndex.toNat]?.join with
    | some y =>
      if y = x ∧ (s.buf.drop x.offset).take x.length = record.data then
        pure ⟨.duplicate, evicted⟩
      else conflict index .fragmentConflict
    | none =>
      if overlaps s.frags x then conflict index .fragmentOverlap
      else
        let s := s.store record
        modify (·.setSlot index s)
        if s.frags.any Option.isNone then pure ⟨.accepted, evicted⟩
        else
          match contiguousLength s with
          | none => conflict index .coverage
          | some packetLen =>
            modify (·.setSlot index (s.completed packetLen))
            pure ⟨.completed ⟨⟨index, s.generation⟩, s.key, packetLen⟩, evicted⟩

/-- The slot of the key; an assembling one past its lifetime is cleared instead. -/
def liveSlot (now : Time) (key : Key) : Eff Reassembler Error (Option ℕ) := do
  let r ← get
  match r.findKey key with
  | none => pure none
  | some index =>
    if (r.slot index).state = .assembling ∧ r.expired (r.slot index) now then
      set (r.clearSlot index)
      pure none
    else pure (some index)

/-- The slot that `Accept` works on, and the key evicted for it. -/
def locate (now : Time) (key : Key) (count : UInt8) :
    Eff Reassembler Error (Option (ℕ × Option Key)) := do
  match ← liveSlot now key with
  | some index => pure (some (index, none))
  | none => allocateSlot now key count

def accept (now : Time) (key : Key) (record : Record) : Eff Reassembler Error Result := do
  let config := (← get).config
  match validateKey config key with
  | .error e => throw e
  | .ok () =>
    match validateRecord config key record with
    | .error e =>
      modify (·.dropAssemblingKey key)
      throw e
    | .ok () =>
      match ← locate now key record.header.fragmentCount with
      | some (index, evicted) => storeRecord index evicted record
      | none =>
        let r ← get
        if r.config.perPeerSlots ≤ (r.peerCount key.peerID).toNat then throw .peerQuota
        else throw .noSlot

end Reassembly

namespace Reassembly.Reassembler
variable (r : Reassembler)

/-- One step of `Expire`, with the number of slots it has cleared. -/
def expireSlot (now : Time) (acc : ℕ × Reassembler) (index : ℕ) : ℕ × Reassembler :=
  let s := acc.2.slot index
  if s.state = .assembling ∧ acc.2.expired s now then (acc.1 + 1, acc.2.clearSlot index) else acc

def expire (now : Time) : ℕ × Reassembler :=
  (List.range r.slots.length).foldl (expireSlot now) (0, r)

def purgeSlot (peer : ℕ) (acc : ℕ × Reassembler) (index : ℕ) : ℕ × Reassembler :=
  let r := acc.2
  let s := r.slot index
  if s.state = .free ∨ s.key.peerID ≠ peer ∨ s.detached then acc
  else if s.state = .completed then
    let r := r.setSlot index { s with detached := true }
    (acc.1 + 1, (r.removeKey s.key).uncount index)
  else (acc.1 + 1, r.clearSlot index)

def purgePeer (peer : ℕ) : ℕ × Reassembler :=
  if r.config.maxPeers ≤ peer then (0, r)
  else (List.range r.slots.length).foldl (purgeSlot peer) (0, r)

def release (handle : SlotHandle) : Except Error Unit × Reassembler :=
  let s := r.slot handle.index
  if s.state ≠ .completed ∨ s.generation ≠ handle.generation then (.error .invalidHandle, r)
  else (.ok (), r.clearSlot handle.index)

/-- The bytes of a completed packet, which alias its slot. -/
def data (packet : Packet) : Bytes := (r.slot packet.handle.index).buf.take packet.length

end Reassembly.Reassembler
end WgFrag.Data
