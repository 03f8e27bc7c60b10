import WgFrag.Basic
import WgFrag.Lib.Interleaving
import WgFrag.Lib.Sweep

/-! The cache that makes mutation requests idempotent, and the calls of `execute` as threads: one
step for each region under the lock and for each event between them. -/
namespace WgFrag.Manager
open WgFrag.Lib

abbrev RequestID := BitVec 128

abbrev Digest := BitVec 256

/-- An order in which a map is visited. -/
abbrev Order := List (Σ _ : RequestID, ℕ)

inductive Code where
  | alreadyExists
  | resourceExhausted
  | internal
  deriving DecidableEq, Repr

/-- An error that `execute` returns: that of the operation, one of its own, or the context's. -/
inductive Failure (E : Type) where
  | operation (err : E)
  | manager (code : Code) (message : String)
  | context
  deriving DecidableEq, Repr

/-- How an operation ends: with its results, or by a panic or `Goexit`. -/
inductive Outcome (M E : Type) where
  | returned (result : Option M) (err : Option E)
  | terminated
  deriving DecidableEq, Repr

/-- What the deferred function of `execute` records. -/
def Outcome.settle {M E : Type} : Outcome M E → Option M × Option (Failure E)
  | .returned result err => (result, err.map .operation)
  | .terminated => (none, some (.manager .internal "mutation terminated before completion"))

structure MutationCacheEntry (M E : Type) where
  hash : Digest
  result : Option M := none
  err : Option (Failure E) := none
  done : Bool := false
  finished : Bool := false
  stamp : Time
  deriving DecidableEq, Repr

/-- The map holds pointers into `heap`, where entries stay after they left the map. `starts` lists
the entries whose operation was called, newest first; no step reads it. -/
structure MutationCache (M E : Type) where
  entries : AList fun _ : RequestID => ℕ := ∅
  capacity : ℤ
  lifetime : Duration
  heap : List (MutationCacheEntry M E) := []
  starts : List ℕ := []

def maxDuration : Duration := 9223372036854775807
def minDuration : Duration := -9223372036854775808

/-- `time.Time.Sub`. -/
def elapsed (now stamp : Time) : Duration := max minDuration (min maxDuration (now - stamp))

namespace MutationCache
variable {M E : Type} (c : MutationCache M E)

def entryAt (ref : ℕ) : MutationCacheEntry M E :=
  c.heap.getD ref { hash := 0, stamp := 0 }

def pruneLocked (now : Time) : MutationCache M E :=
  if c.lifetime ≤ 0 then c
  else
    { c with
      entries := sweep
        (fun _ ref => (c.entryAt ref).finished && c.lifetime < elapsed now (c.entryAt ref).stamp)
        c.entries }

/-- The oldest finished entry, as the loop over the map finds it in the given order. -/
def oldest (order : Order) : Option (RequestID × Time) :=
  order.foldl (fun found e =>
    if (c.entryAt e.2).finished = false then found
    else
      match found with
      | none => some (e.1, (c.entryAt e.2).stamp)
      | some (id, oldestAt) =>
        if (c.entryAt e.2).stamp < oldestAt then some (e.1, (c.entryAt e.2).stamp)
        else some (id, oldestAt)) none

/-- Make room for one more entry. `order` is the order in which the map is iterated. -/
def reserveLocked (order : Order) : Option (MutationCache M E) :=
  if c.capacity ≤ 0 ∨ c.entries.entries.length < c.capacity then some c
  else
    match c.oldest order with
    | none => none
    | some (id, _) => some { c with entries := c.entries.erase id }

def insert (id : RequestID) (hash : Digest) (now : Time) : MutationCache M E :=
  { c with
    entries := c.entries.insert id c.heap.length
    heap := c.heap ++ [{ hash := hash, stamp := now }] }

def finish (ref : ℕ) (outcome : Outcome M E) (now : Time) : MutationCache M E :=
  { c with
    heap := c.heap.modify ref fun entry =>
      { entry with
        result := outcome.settle.1
        err := outcome.settle.2
        done := true
        finished := true
        stamp := now } }

end MutationCache

/-- Where a call of `execute` is. The last five places are its ends. -/
inductive Caller (M E : Type) where
  | calling (id : RequestID) (hash : Digest)
  | reserved (ref : ℕ)
  | running (ref : ℕ)
  | finishing (ref : ℕ) (outcome : Outcome M E)
  | waiting (ref : ℕ)
  | ran (ref : ℕ) (outcome : Outcome M E)
  | shared (ref : ℕ) (result : Option M) (err : Option (Failure E))
  | canceled (ref : ℕ)
  | mismatched
  | exhausted
  deriving DecidableEq, Repr

/-- The values that the call returned. A terminated operation unwinds its own caller. -/
def Caller.returns {M E : Type} : Caller M E → Option (Option M × Option (Failure E))
  | .ran _ (.returned result err) => some (result, err.map .operation)
  | .shared _ result err => some (result, err)
  | .canceled _ => some (none, some .context)
  | .mismatched => some (none, some
    (.manager .alreadyExists "request_id was already used for a different mutation"))
  | .exhausted => some (none, some (.manager .resourceExhausted "mutation request cache is full"))
  | _ => none

/-- What the environment decides at a step: clock readings, the order of the map, how the
operation ends, and when the context of a waiting call is done. -/
inductive Choice (M E : Type) where
  | enter (now : Time) (order : Order)
  | start
  | complete (outcome : Outcome M E)
  | finish (now : Time)
  | wake
  | cancel

variable {M E : Type}

/-- The first region of `execute` under the lock. -/
def lookupOrReserve (c : MutationCache M E) (id : RequestID) (hash : Digest) (now : Time)
    (order : Order) : Option (Move (MutationCache M E) (Caller M E)) :=
  let c := c.pruneLocked now
  match c.entries.lookup id with
  | some ref =>
    if (c.entryAt ref).hash ≠ hash then some { shared := c, next := .mismatched }
    else some { shared := c, next := .waiting ref }
  | none =>
    if order.Perm c.entries.entries then
      match c.reserveLocked order with
      | none => some { shared := c, next := .exhausted }
      | some c => some { shared := c.insert id hash now, next := .reserved c.heap.length }
    else none

def execute : Program (MutationCache M E) (Caller M E) (Choice M E)
  | _, c, .calling id hash, .enter now order => lookupOrReserve c id hash now order
  | _, c, .reserved ref, .start =>
    some { shared := { c with starts := ref :: c.starts }, next := .running ref }
  | _, c, .running ref, .complete outcome => some { shared := c, next := .finishing ref outcome }
  | _, c, .finishing ref outcome, .finish now =>
    some { shared := c.finish ref outcome now, next := .ran ref outcome }
  | _, c, .waiting ref, .wake =>
    if (c.entryAt ref).done then
      some { shared := c, next := .shared ref (c.entryAt ref).result (c.entryAt ref).err }
    else none
  | _, c, .waiting ref, .cancel => some { shared := c, next := .canceled ref }
  | _, _, _, _ => none

end WgFrag.Manager
