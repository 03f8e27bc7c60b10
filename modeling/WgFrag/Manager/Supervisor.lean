import WgFrag.Basic
import WgFrag.Lib.Interleaving
import WgFrag.Lib.Sweep

/-! The manager of interfaces and its supervisors. Every operation is a thread: one step for each
region under the manager's lock or a supervisor's lock and for each call of a runtime or an
anchor. An operation on a supervisor holds its `opMu`. -/
namespace WgFrag.Manager
open WgFrag.Lib

abbrev PublicKey := BitVec 256

abbrev InstanceID := BitVec 128

inductive Lifecycle where
  | creating
  | running
  | restarting
  | rollingBack
  | error
  | deleting
  deriving DecidableEq, Repr

/-- Pointers to runtimes are positions in `InterfaceManager.runtimes`. `opMu` is the thread that
holds the operation lock. -/
structure Supervisor (C : Type) where
  name : String
  instanceID : InstanceID
  lifecycle : Lifecycle := .creating
  generation : UInt64 := 0
  config : C
  publicKey : PublicKey
  anchor : Bool := false
  running : Option ℕ := none
  opMu : Option ℕ := none

/-- A data plane that was started for a supervisor. -/
structure Runtime where
  owner : ℕ
  key : PublicKey
  alive : Bool := true
  deriving DecidableEq, Repr

/-- Pointers to supervisors are positions in `supervisors`, which keeps the removed ones. -/
structure InterfaceManager (C : Type) where
  interfaces : AList fun _ : String => ℕ := ∅
  byPublicKey : AList fun _ : PublicKey => ℕ := ∅
  max : ℕ
  supervisors : List (Supervisor C) := []
  runtimes : List Runtime := []

/-- The checks of other packages. `preparePeers` gives the local public key. -/
structure Checks (C : Type) where
  validate : C → Bool
  preparePeers : C → Option PublicKey
  validName : String → Bool

structure InterfaceRef where
  name : String
  instanceID : Option InstanceID

/-- The request id is parsed before. -/
structure MutationContext where
  expectedInstanceID : InstanceID
  expectedGeneration : UInt64

/-- `create` is `controlconfig.Create`, which starts from the present configuration. -/
structure RestartSpec (C : Type) where
  name : String
  create : C → Option C

/-- The local variables of `restartLocked`. -/
structure RestartJob (C : Type) where
  oldConfig : C
  next : C
  oldKey : PublicKey
  newKey : PublicKey
  oldGeneration : UInt64
  oldLifecycle : Lifecycle

namespace InterfaceManager
variable {C : Type} (s : InterfaceManager C) (id : ℕ)

def modify (f : Supervisor C → Supervisor C) : InterfaceManager C :=
  { s with supervisors := s.supervisors.modify id f }

/-- The region of `create` under the manager's lock, once its checks have passed. -/
def register (name : String) (instanceID : InstanceID) (cfg : C)
    (key : PublicKey) : InterfaceManager C :=
  { s with
    interfaces := s.interfaces.insert name s.supervisors.length
    byPublicKey := s.byPublicKey.insert key s.supervisors.length
    supervisors := s.supervisors ++
      [{ name := name, instanceID := instanceID, config := cfg, publicKey := key }] }

def lookup (ref : InterfaceRef) : Option ℕ :=
  if ref.name = "" then none
  else
    match s.interfaces.lookup ref.name with
    | none => none
    | some id =>
      match s.supervisors[id]? with
      | none => none
      | some v => if ref.instanceID.all (· == v.instanceID) then some id else none

/-- Both keys stay reserved until the new runtime has started. -/
def reservePublicKeyChange (oldKey newKey : PublicKey) : Option (InterfaceManager C) :=
  if oldKey = newKey then some s
  else if (s.byPublicKey.lookup newKey).any (· ≠ id) then none
  else if s.byPublicKey.lookup oldKey ≠ some id then none
  else some { s with byPublicKey := (s.byPublicKey.insert newKey id).insert oldKey id }

def commitPublicKeyChange (oldKey newKey : PublicKey) : InterfaceManager C :=
  if oldKey = newKey then s
  else if s.byPublicKey.lookup oldKey = some id then
    { s with byPublicKey := s.byPublicKey.erase oldKey }
  else s

def restorePublicKeyChange (oldKey newKey : PublicKey) : InterfaceManager C :=
  if oldKey = newKey then s
  else
    let keys :=
      if s.byPublicKey.lookup newKey = some id then s.byPublicKey.erase newKey else s.byPublicKey
    { s with
      byPublicKey :=
        if keys.lookup oldKey = none ∨ keys.lookup oldKey = some id then keys.insert oldKey id
        else keys }

def removeSupervisor (name : String) : InterfaceManager C :=
  { s with
    interfaces :=
      if s.interfaces.lookup name = some id then s.interfaces.erase name else s.interfaces
    byPublicKey := sweep (fun _ owner => owner == id) s.byPublicKey }

/-- A runtime stops, by itself or because it was closed. -/
def kill (rt : ℕ) : InterfaceManager C :=
  { s with runtimes := s.runtimes.modify rt fun r => { r with alive := false } }

/-- `startGeneration`: without an anchor or with a bad configuration no runtime starts. `ok` says
whether the rest succeeds. -/
def startGeneration (checks : Checks C) (s : InterfaceManager C) (id : ℕ) (v : Supervisor C)
    (cfg : C) (ok : Bool) : Option (InterfaceManager C) :=
  match checks.preparePeers cfg with
  | none => none
  | some key =>
    if ok = true ∧ v.anchor = true ∧ checks.validate cfg = true then
      some { s with runtimes := s.runtimes ++ [{ owner := id, key := key }] }
    else none

end InterfaceManager

def Supervisor.checkMutation {C : Type} (v : Supervisor C) (mutation : MutationContext) : Bool :=
  mutation.expectedInstanceID == v.instanceID && mutation.expectedGeneration == v.generation

/-- Who calls `stopAndDeleteLocked`: `deleteSupervisor`, or `createInterface` after a failed
status. -/
inductive Stopper where
  | delete
  | create
  deriving DecidableEq, Repr

/-- What follows when `opMu` is released. -/
inductive After where
  | finish
  | cleanup
  | discard
  | status
  deriving DecidableEq, Repr

/-- Where an operation is while it holds `opMu`. -/
inductive Phase (C : Type) where
  | openAnchor
  | startInitial
  | recordInitial (rt : ℕ)
  | closeAnchor
  | checkCleanup
  | checkDelete (mutation : MutationContext)
  | stopCreated
  | closeRuntime (stopper : Stopper)
  | forgetRuntime (stopper : Stopper)
  | stopAnchor (stopper : Stopper) (failed : Bool)
  | stopped (stopper : Stopper) (failed : Bool)
  | remove
  | checkRestart (mutation : MutationContext) (spec : RestartSpec C)
  | reserve (job : RestartJob C)
  | closeOld (job : RestartJob C)
  | forgetOld (job : RestartJob C)
  | unreserve (job : RestartJob C)
  | failRestart
  | startNext (job : RestartJob C)
  | recordNext (job : RestartJob C) (rt : ℕ)
  | commit (job : RestartJob C) (rt : ℕ)
  | restore (job : RestartJob C)
  | rollback (job : RestartJob C)
  | startOld (job : RestartJob C)
  | recordOld (job : RestartJob C) (rt : ℕ)
  | checkCurrent (rt : ℕ)
  | unlock (next : After)

/-- Where an operation is. `crash` is a runtime that stops by itself. -/
inductive Operation (C : Type) where
  | create (name : String) (cfg : C)
  | lookupDelete (ref : InterfaceRef) (mutation : MutationContext)
  | lookupRestart (ref : InterfaceRef) (mutation : MutationContext) (spec : RestartSpec C)
  | crash (rt : ℕ)
  | wait (id rt : ℕ)
  | lock (id : ℕ) (phase : Phase C)
  | start (id : ℕ)
  | cleanup (id : ℕ)
  | discard (id : ℕ)
  | status (id : ℕ)
  | locked (id : ℕ) (phase : Phase C)
  | finished

/-- What the environment decides: the random instance id, and whether a call outside the manager
succeeds. -/
inductive Decision where
  | go
  | instanceID (id : InstanceID)
  | result (ok : Bool)

abbrev OpMove (C : Type) := Move (InterfaceManager C) (Operation C)

variable {C : Type}

def After.place (id : ℕ) : After → Operation C
  | .finish => .finished
  | .cleanup => .cleanup id
  | .discard => .discard id
  | .status => .status id

/-- The thread takes `opMu`, unless another one has it. -/
def acquire (i : ℕ) (s : InterfaceManager C) (id : ℕ) (phase : Phase C) : Option (OpMove C) :=
  match s.supervisors[id]? with
  | none => none
  | some v =>
    if v.opMu = none then
      some { shared := s.modify id fun v => { v with opMu := some i }, next := .locked id phase }
    else none

abbrev goesOn (s : InterfaceManager C) (id : ℕ) (phase : Phase C)
    (spawned : List (Operation C) := []) : OpMove C :=
  { shared := s, next := .locked id phase, spawned := spawned }

/-- The step of an operation that holds `opMu` of the supervisor `v`. -/
def Phase.step (checks : Checks C) (s : InterfaceManager C) (id : ℕ) (v : Supervisor C) :
    Phase C → Decision → Option (OpMove C)
  | .openAnchor, .result true =>
    some (goesOn (s.modify id fun v => { v with anchor := true }) id .startInitial)
  | .openAnchor, .result false => some (goesOn s id (.unlock .cleanup))
  | .startInitial, .result ok =>
    match s.startGeneration checks id v v.config ok with
    | some s' => some (goesOn s' id (.recordInitial s.runtimes.length))
    | none => some (goesOn s id .closeAnchor)
  | .recordInitial rt, .go =>
    some (goesOn (s.modify id fun v => { v with running := some rt, lifecycle := .running }) id
      (.unlock .status) [.wait id rt])
  | .closeAnchor, .result ok =>
    some (goesOn (s.modify id fun v => { v with anchor := !ok, lifecycle := .error }) id
      (.unlock .cleanup))
  | .checkCleanup, .go =>
    if v.anchor = false ∧ v.running = none then some (goesOn s id (.unlock .discard))
    else some (goesOn s id (.unlock .finish))
  | .checkDelete mutation, .go =>
    if v.checkMutation mutation = false ∨ v.lifecycle = .deleting then
      some (goesOn s id (.unlock .finish))
    else
      some (goesOn (s.modify id fun v => { v with lifecycle := .deleting }) id
        (.closeRuntime .delete))
  | .stopCreated, .go =>
    some (goesOn (s.modify id fun v => { v with lifecycle := .deleting }) id
      (.closeRuntime .create))
  | .closeRuntime stopper, .result ok =>
    match v.running with
    | none => some (goesOn s id (.stopAnchor stopper false))
    | some rt =>
      if ok then some (goesOn (s.kill rt) id (.forgetRuntime stopper))
      else some (goesOn s id (.stopAnchor stopper true))
  | .forgetRuntime stopper, .go =>
    some (goesOn (s.modify id fun v => { v with running := none }) id (.stopAnchor stopper false))
  | .stopAnchor stopper failed, .result ok =>
    if v.anchor = false then some (goesOn s id (.stopped stopper failed))
    else if ok then
      some (goesOn (s.modify id fun v => { v with anchor := false }) id (.stopped stopper failed))
    else some (goesOn s id (.stopped stopper true))
  | .stopped stopper failed, .go =>
    if failed then
      some (goesOn (s.modify id fun v => { v with lifecycle := .error }) id (.unlock .finish))
    else
      match stopper with
      | .delete => some (goesOn s id .remove)
      | .create => some (goesOn s id (.unlock .discard))
  | .remove, .go => some (goesOn (s.removeSupervisor id v.name) id (.unlock .finish))
  | .checkRestart mutation spec, .go =>
    if spec.name ≠ v.name ∨ v.checkMutation mutation = false ∨
        (v.lifecycle ≠ .running ∧ v.lifecycle ≠ .error) then
      some (goesOn s id (.unlock .finish))
    else
      match spec.create v.config with
      | none => some (goesOn s id (.unlock .finish))
      | some next =>
        match checks.preparePeers next with
        | none => some (goesOn s id (.unlock .finish))
        | some newKey =>
          some (goesOn (s.modify id fun v => { v with lifecycle := .restarting }) id (.reserve
            { oldConfig := v.config, next := next, oldKey := v.publicKey, newKey := newKey,
              oldGeneration := v.generation, oldLifecycle := v.lifecycle }))
  | .reserve job, .go =>
    match s.reservePublicKeyChange id job.oldKey job.newKey with
    | none =>
      some (goesOn (s.modify id fun v => { v with lifecycle := job.oldLifecycle }) id
        (.unlock .finish))
    | some s' => some (goesOn s' id (.closeOld job))
  | .closeOld job, .result ok =>
    match v.running with
    | none => some (goesOn s id (.startNext job))
    | some rt =>
      if ok then some (goesOn (s.kill rt) id (.forgetOld job))
      else some (goesOn s id (.unreserve job))
  | .forgetOld job, .go =>
    some (goesOn (s.modify id fun v => { v with running := none }) id (.startNext job))
  | .unreserve job, .go =>
    some (goesOn (s.restorePublicKeyChange id job.oldKey job.newKey) id .failRestart)
  | .failRestart, .go =>
    some (goesOn (s.modify id fun v => { v with lifecycle := .error }) id (.unlock .finish))
  | .startNext job, .result ok =>
    match s.startGeneration checks id v job.next ok with
    | some s' => some (goesOn s' id (.recordNext job s.runtimes.length))
    | none => some (goesOn s id (.restore job))
  | .recordNext job rt, .go =>
    some (goesOn (s.modify id fun v =>
      { v with
        running := some rt, config := job.next, publicKey := job.newKey
        generation := job.oldGeneration + 1, lifecycle := .running }) id (.commit job rt))
  | .commit job rt, .go =>
    some (goesOn (s.commitPublicKeyChange id job.oldKey job.newKey) id (.unlock .finish)
      [.wait id rt])
  | .restore job, .go =>
    some (goesOn (s.restorePublicKeyChange id job.oldKey job.newKey) id (.rollback job))
  | .rollback job, .go =>
    some (goesOn (s.modify id fun v => { v with lifecycle := .rollingBack }) id (.startOld job))
  | .startOld job, .result ok =>
    match s.startGeneration checks id v job.oldConfig ok with
    | some s' => some (goesOn s' id (.recordOld job s.runtimes.length))
    | none =>
      some (goesOn (s.modify id fun v => { v with running := none, lifecycle := .error }) id
        (.unlock .finish))
  | .recordOld job rt, .go =>
    some (goesOn (s.modify id fun v =>
      { v with
        running := some rt, config := job.oldConfig
        generation := job.oldGeneration + 1, lifecycle := .running }) id (.unlock .finish)
      [.wait id rt])
  | .checkCurrent rt, .go =>
    if v.running = some rt ∧ v.lifecycle = .running then
      some (goesOn (s.modify id fun v => { v with running := none, lifecycle := .error }) id
        (.unlock .finish))
    else some (goesOn s id (.unlock .finish))
  | .unlock next, .go =>
    some { shared := s.modify id fun v => { v with opMu := none }, next := next.place id }
  | _, _ => none

def operate (checks : Checks C) : Program (InterfaceManager C) (Operation C) Decision
  | _, s, .create name cfg, .instanceID instanceID =>
    match checks.preparePeers cfg with
    | none => some { shared := s, next := .finished }
    | some key =>
      if checks.validate cfg = false ∨ checks.validName name = false ∨
          s.max ≤ s.interfaces.entries.length ∨ (s.interfaces.lookup name).isSome ∨
          (s.byPublicKey.lookup key).isSome then
        some { shared := s, next := .finished }
      else
        some { shared := s.register name instanceID cfg key
               next := .start s.supervisors.length }
  | i, s, .start id, .go => acquire i s id .openAnchor
  | i, s, .cleanup id, .go => acquire i s id .checkCleanup
  | _, s, .discard id, .go =>
    match s.supervisors[id]? with
    | none => none
    | some v => some { shared := s.removeSupervisor id v.name, next := .finished }
  | _, s, .status _, .result true => some { shared := s, next := .finished }
  | i, s, .status id, .result false => acquire i s id .stopCreated
  | _, s, .lookupDelete ref mutation, .go =>
    match s.lookup ref with
    | none => some { shared := s, next := .finished }
    | some id => some { shared := s, next := .lock id (.checkDelete mutation) }
  | _, s, .lookupRestart ref mutation spec, .go =>
    match s.lookup ref with
    | none => some { shared := s, next := .finished }
    | some id => some { shared := s, next := .lock id (.checkRestart mutation spec) }
  | i, s, .lock id phase, .go => acquire i s id phase
  | _, s, .crash rt, .go => some { shared := s.kill rt, next := .finished }
  | _, s, .wait id rt, .go =>
    match s.runtimes[rt]? with
    | none => none
    | some r =>
      if r.alive then none else some { shared := s, next := .lock id (.checkCurrent rt) }
  | _, s, .locked id phase, choice =>
    match s.supervisors[id]? with
    | none => none
    | some v => phase.step checks s id v choice
  | _, _, _, _ => none

end WgFrag.Manager
