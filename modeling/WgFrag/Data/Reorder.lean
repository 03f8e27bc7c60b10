import WgFrag.Data.Reassembly
import Mathlib.Data.List.MinMax

/-! The reorder queue of one lane. Packets ahead of the expected sequence wait in it until the
gap before them is filled or given up. -/
namespace WgFrag.Data.Reorder
open WgFrag.Lib
open Reassembly (Packet)

def halfSequenceSpace : UInt32 := 2147483648

inductive Error where
  | invalidConfig
  | wrongLane
  | outputTooSmall
  | panicked
  deriving DecidableEq, Repr

structure Lane where
  peerID : ℕ
  dataSessionID : UInt16
  laneID : UInt8
  deriving DecidableEq, Repr

/-- A disabled queue emits packets in arrival order and drops none. -/
structure Config where
  enabled : Bool
  capacity : ℕ
  maxDelay : Duration
  lane : Lane
  nextSequence : UInt32

inductive Status where
  | delivered
  | queued
  | duplicate
  | late
  | flushed
  deriving DecidableEq, Repr

/-- The packets written to the output stand for their number. -/
structure Result where
  status : Status
  delivered : List Packet
  deriving DecidableEq, Repr

structure Reorderer where
  config : Config
  next : UInt32
  entries : List (Option Packet)
  count : ℕ
  gapStartedAt : Time

def new (config : Config) : Except Error Reorderer :=
  if ¬ config.enabled then .ok ⟨config, config.nextSequence, [], 0, 0⟩
  else if config.capacity = 0 ∨ halfSequenceSpace.toNat ≤ config.capacity ∨
      config.maxDelay ≤ 0 ∨ config.lane.dataSessionID = 0 then .error .invalidConfig
  else .ok ⟨config, config.nextSequence, List.replicate config.capacity none, 0, 0⟩

def aheadOf (sequence expected : UInt32) : Bool :=
  sequence - expected != 0 && sequence - expected < halfSequenceSpace

namespace Reorderer
variable (r : Reorderer)

def matchesLane (packet : Packet) : Bool :=
  !r.config.enabled || (packet.key.peerID == r.config.lane.peerID &&
    packet.key.dataSessionID == r.config.lane.dataSessionID &&
    packet.key.laneID == r.config.lane.laneID)

/-- The packets that wait, in the order of their entries. -/
def pending : List Packet := r.entries.filterMap id

/-- The entries in use, with their indices. -/
def used : List (ℕ × Packet) :=
  (List.range r.entries.length).filterMap fun i => r.entries[i]?.join.map fun p => (i, p)

def insert (packet : Packet) : Reorderer :=
  match r.entries.findIdx? Option.isNone with
  | some i => { r with entries := r.entries.set i (some packet), count := r.count + 1 }
  | none => r

def contains (sequence : UInt32) : Bool :=
  r.entries.any fun e => e.any fun p => p.key.laneSequence == sequence

def take (i : ℕ) : Reorderer :=
  { r with entries := r.entries.set i none, count := r.count - 1 }

/-- Every round takes one entry out; the first argument bounds the rounds. -/
def drainLoop : ℕ → Reorderer → List Packet × Reorderer
  | 0, r => ([], r)
  | n + 1, r =>
    match r.used.find? fun e => e.2.key.laneSequence == r.next with
    | none => ([], r)
    | some (i, packet) =>
      let rest := drainLoop n { r.take i with next := r.next + 1 }
      (packet :: rest.1, rest.2)

def drainContiguous : List Packet × Reorderer := drainLoop r.count r

/-- The first of the entries in use that are closest to the expected sequence. -/
def closestAhead : Option (ℕ × Packet) :=
  r.used.argmin fun e => (e.2.key.laneSequence - r.next).toNat

/-- The virtual packet goes before all entries. -/
def virtualFirst (packet : Packet) : Bool :=
  r.closestAhead.all fun e => packet.key.laneSequence - r.next < e.2.key.laneSequence - r.next

def wouldQueue (sequence : UInt32) : Bool :=
  if ¬ r.config.enabled ∨ sequence = r.next ∨ ¬ aheadOf sequence r.next ∨ r.contains sequence then
    false
  else r.count < r.entries.length

end Reorderer

/-- The loops of `flush` and `flushIncluding`, which differ in the virtual packet only. The
first argument counts the packets to come. -/
def flushLoop : ℕ → Option Packet → Eff Reorderer Error (List Packet)
  | 0, _ => pure []
  | n + 1, virtual => do
    let r ← get
    match virtual.filter r.virtualFirst, r.closestAhead with
    | some packet, _ =>
      set { r with next := packet.key.laneSequence + 1 }
      let rest ← flushLoop n none
      pure (packet :: rest)
    | none, some (i, packet) =>
      set { r.take i with next := packet.key.laneSequence + 1 }
      let rest ← flushLoop n virtual
      pure (packet :: rest)
    -- The source would index the entries with -1.
    | none, none => throw .panicked

def flushWith (virtual : Option Packet) : Eff Reorderer Error (List Packet) := do
  let r ← get
  let out ← flushLoop (r.count + virtual.toList.length) virtual
  modify fun r => { r with gapStartedAt := 0 }
  pure out

/-! In the calls below the last argument is the length of the output slice. -/

def reset (nextSequence : UInt32) (dropped : ℕ) : Eff Reorderer Error (List Packet) := do
  let r ← get
  if dropped < r.count then throw .outputTooSmall
  else
    set { r with
      entries := List.replicate r.entries.length none
      count := 0
      next := nextSequence
      gapStartedAt := 0 }
    pure r.pending

def accept (now : Time) (packet : Packet) (out : ℕ) : Eff Reorderer Error Result := do
  let r ← get
  if ¬ r.matchesLane packet then throw .wrongLane
  else if ¬ r.config.enabled then
    if out < 1 then throw .outputTooSmall
    else pure ⟨.delivered, [packet]⟩
  else if out < r.entries.length + 1 then throw .outputTooSmall
  else if packet.key.laneSequence = r.next then
    let drained := { r with next := r.next + 1 }.drainContiguous
    set (if drained.2.count = 0 then { drained.2 with gapStartedAt := 0 } else drained.2)
    pure ⟨.delivered, packet :: drained.1⟩
  else if ¬ aheadOf packet.key.laneSequence r.next then pure ⟨.late, []⟩
  else if r.contains packet.key.laneSequence then pure ⟨.duplicate, []⟩
  else if r.count = r.entries.length then
    let flushed ← flushWith (some packet)
    pure ⟨.flushed, flushed⟩
  else
    let r := r.insert packet
    set (if r.count = 1 then { r with gapStartedAt := now } else r)
    pure ⟨.queued, []⟩

def tick (now : Time) (out : ℕ) : Eff Reorderer Error (List Packet) := do
  let r ← get
  if ¬ r.config.enabled ∨ r.count = 0 ∨ now < r.gapStartedAt + r.config.maxDelay then pure []
  else if out < r.entries.length then throw .outputTooSmall
  else flushWith none

def flush (out : ℕ) : Eff Reorderer Error (List Packet) := do
  let r ← get
  if ¬ r.config.enabled ∨ r.count = 0 then pure []
  else if out < r.entries.length then throw .outputTooSmall
  else flushWith none

def flushIncluding (packet : Packet) (out : ℕ) : Eff Reorderer Error (List Packet) := do
  let r ← get
  if ¬ r.config.enabled then
    if out < 1 then throw .outputTooSmall
    else pure [packet]
  else if ¬ r.matchesLane packet then throw .wrongLane
  else if out < r.entries.length + 1 then throw .outputTooSmall
  else flushWith (some packet)

end WgFrag.Data.Reorder
