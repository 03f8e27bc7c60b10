import WgFrag.Manager.Ownership

/-! What an operation on an interface knows at each of its places. -/
namespace WgFrag.Manager
open WgFrag.Lib InterfaceManager
variable {C : Type}

/-- What holds of a locked supervisor: its fields, the key change in progress, and every live
runtime it has. -/
structure Claim (C : Type) where
  fits : Supervisor C → Prop
  change : Option (RestartJob C) := none
  runtime : Supervisor C → ℕ → PublicKey → Prop

/-- The keys that may be reserved for the supervisor. -/
def Claim.Keys (c : Claim C) (v : Supervisor C) (k : PublicKey) : Prop :=
  match c.change with
  | none => k = v.publicKey
  | some job => k = job.oldKey ∨ k = job.newKey

/-- The keys that a change has reserved. -/
def Claim.Pinned (c : Claim C) (k : PublicKey) : Prop :=
  match c.change with
  | none => False
  | some job => job.oldKey ≠ job.newKey ∧ (k = job.oldKey ∨ k = job.newKey)

def quiet (_ : Supervisor C) (_ : ℕ) (_ : PublicKey) : Prop := False

def recorded (v : Supervisor C) (rt : ℕ) (key : PublicKey) : Prop :=
  v.running = some rt ∧ key = v.publicKey

structure JobFits (checks : Checks C) (job : RestartJob C) (v : Supervisor C) : Prop where
  key : v.publicKey = job.oldKey
  old : checks.preparePeers job.oldConfig = some job.oldKey
  next : checks.preparePeers job.next = some job.newKey

def Phase.claim (checks : Checks C) : Phase C → Claim C
  | .openAnchor => { fits := fun v => v.anchor = false ∧ v.running = none, runtime := quiet }
  | .startInitial => { fits := fun v => v.anchor = true ∧ v.running = none, runtime := quiet }
  | .recordInitial rt =>
    { fits := fun v => v.anchor = true
      runtime := fun v rt' key => rt' = rt ∧ key = v.publicKey }
  | .closeAnchor => { fits := fun v => v.anchor = true ∧ v.running = none, runtime := quiet }
  | .checkCleanup => { fits := fun _ => True, runtime := recorded }
  | .checkDelete _ => { fits := fun _ => True, runtime := recorded }
  | .stopCreated => { fits := fun _ => True, runtime := recorded }
  | .closeRuntime _ => { fits := fun v => v.lifecycle = .deleting, runtime := recorded }
  | .forgetRuntime _ => { fits := fun v => v.lifecycle = .deleting, runtime := quiet }
  | .stopAnchor _ failed =>
    { fits := fun v => v.lifecycle = .deleting ∧ (failed = false → v.running = none)
      runtime := recorded }
  | .stopped _ failed =>
    { fits := fun v => v.lifecycle = .deleting ∧
        (failed = false → v.running = none ∧ v.anchor = false)
      runtime := recorded }
  | .remove =>
    { fits := fun v => v.lifecycle = .deleting ∧ v.running = none ∧ v.anchor = false
      runtime := recorded }
  | .checkRestart _ _ => { fits := fun _ => True, runtime := recorded }
  | .reserve job =>
    { fits := fun v => v.lifecycle = .restarting ∧ JobFits checks job v, runtime := recorded }
  | .closeOld job =>
    { fits := fun v => v.lifecycle = .restarting ∧ JobFits checks job v
      change := some job, runtime := recorded }
  | .forgetOld job =>
    { fits := fun v => v.lifecycle = .restarting ∧ JobFits checks job v
      change := some job, runtime := quiet }
  | .unreserve job =>
    { fits := fun v => v.lifecycle = .restarting ∧ JobFits checks job v
      change := some job, runtime := recorded }
  | .failRestart => { fits := fun v => v.lifecycle = .restarting, runtime := recorded }
  | .startNext job =>
    { fits := fun v => v.lifecycle = .restarting ∧ JobFits checks job v ∧ v.running = none
      change := some job, runtime := quiet }
  | .recordNext job rt =>
    { fits := fun v => v.lifecycle = .restarting ∧ JobFits checks job v ∧ v.anchor = true
      change := some job, runtime := fun _ rt' key => rt' = rt ∧ key = job.newKey }
  | .commit job rt =>
    { fits := fun v => v.lifecycle = .running ∧ v.publicKey = job.newKey ∧ v.running = some rt
      change := some job, runtime := fun _ rt' key => rt' = rt ∧ key = job.newKey }
  | .restore job =>
    { fits := fun v => v.lifecycle = .restarting ∧ JobFits checks job v ∧ v.running = none
      change := some job, runtime := quiet }
  | .rollback job =>
    { fits := fun v => v.lifecycle = .restarting ∧ JobFits checks job v ∧ v.running = none
      runtime := quiet }
  | .startOld job =>
    { fits := fun v => v.lifecycle = .rollingBack ∧ JobFits checks job v ∧ v.running = none
      runtime := quiet }
  | .recordOld job rt =>
    { fits := fun v => v.lifecycle = .rollingBack ∧ JobFits checks job v ∧ v.anchor = true
      runtime := fun v rt' key => rt' = rt ∧ key = v.publicKey }
  | .checkCurrent _ => { fits := fun _ => True, runtime := recorded }
  | .unlock next =>
    { fits := fun v => next = .discard → v.anchor = false ∧ v.running = none
      runtime := recorded }

/-- A new interface is registered until its anchor is open; a watcher's runtime has stopped. -/
def Phase.Extra (s : InterfaceManager C) (id : ℕ) (v : Supervisor C) : Phase C → Prop
  | .openAnchor => s.interfaces.lookup v.name = some id
  | .checkCurrent rt => s.Dead rt
  | _ => True

variable {checks : Checks C} {i : ℕ} {s : InterfaceManager C} {id : ℕ} {v : Supervisor C}

/-- Thread `i` holds the operation lock of `v` at `phase`. -/
structure Hold (checks : Checks C) (i : ℕ) (s : InterfaceManager C) (id : ℕ) (phase : Phase C)
    (v : Supervisor C) : Prop where
  sup : s.supervisors[id]? = some v
  locked : v.opMu = some i
  fits : (phase.claim checks).fits v
  keys : ∀ k, s.byPublicKey.lookup k = some id → (phase.claim checks).Keys v k
  pinned : ∀ k, (phase.claim checks).Pinned k → s.byPublicKey.lookup k = some id
  live : ∀ rt key, s.Alive rt id key → (phase.claim checks).runtime v rt key
  extra : phase.Extra s id v

/-- The phases that an operation on a looked-up supervisor begins with. -/
def Phase.Begins (s : InterfaceManager C) : Phase C → Prop
  | .checkDelete _ => True
  | .checkRestart _ _ => True
  | .checkCurrent rt => s.Dead rt
  | _ => False

/-- What the call that created an interface knows of it until it takes the lock. -/
structure Starts (s : InterfaceManager C) (id : ℕ) (v : Supervisor C) : Prop where
  sup : s.supervisors[id]? = some v
  lifecycle : v.lifecycle = .creating
  anchor : v.anchor = false
  running : v.running = none
  name : s.interfaces.lookup v.name = some id
  quiet : s.Quiet id

/-- What the call that removes an interface knows of it. -/
structure Discards (s : InterfaceManager C) (id : ℕ) (v : Supervisor C) : Prop where
  sup : s.supervisors[id]? = some v
  anchor : v.anchor = false
  running : v.running = none
  clean : s.OnlyKey id v.publicKey
  quiet : s.Quiet id

def Assured (checks : Checks C) (i : ℕ) (s : InterfaceManager C) : Operation C → Prop
  | .locked id phase => ∃ v, Hold checks i s id phase v
  | .lock _ phase => phase.Begins s
  | .start id => ∃ v, Starts s id v
  | .discard id => ∃ v, Discards s id v
  | .cleanup id => id < s.supervisors.length
  | .status id => id < s.supervisors.length
  | _ => True

/-- What a step of thread `i` leaves: a permitted update and what the thread knows next. -/
structure Advances (checks : Checks C) (i : ℕ) (held gone : Option ℕ) (s : InterfaceManager C)
    (m : OpMove C) : Prop where
  effect : Effect checks i held gone s m.shared
  next : Assured checks i m.shared m.next

namespace InterfaceManager

variable (hs : Sound checks s) (hv : s.supervisors[id]? = some v)
include hs hv

theorem Sound.own (hn : s.interfaces.lookup v.name = some id) :
    s.byPublicKey.lookup v.publicKey = some id := by
  obtain ⟨_, hw, -, hr⟩ := hs.names hn
  obtain rfl := Option.mem_unique hv hw
  exact hr

/-- An update that keeps the identity of a locked supervisor. -/
theorem Sound.retouch (hlk : v.opMu = some i) {f : Supervisor C → Supervisor C} {gone : Option ℕ}
    (hna : (f v).name = v.name) (hc : (f v).config = v.config)
    (hkey : (f v).publicKey = v.publicKey) (hopMu : (f v).opMu = v.opMu)
    (hb : (f v).anchor = true ∨ (f v).running ≠ none → s.interfaces.lookup v.name = some id) :
    Effect checks i (some id) gone s (s.modify id f) := by
  refine .update f rfl hv hna ?_ (fun hn => ?_) hb fun hfr => ?_
  · rw [hc, hkey]
    exact hs.plan hv
  · rw [hkey]
    exact hs.own hv hn
  · rw [hopMu, hlk] at hfr
    cases hfr

/-- The same, when the supervisor gets neither anchor nor runtime. -/
theorem Sound.shrink (hlk : v.opMu = some i) {f : Supervisor C → Supervisor C} {gone : Option ℕ}
    (hn : (f v).name = v.name) (hc : (f v).config = v.config)
    (hkey : (f v).publicKey = v.publicKey) (hopMu : (f v).opMu = v.opMu)
    (hb : (f v).anchor = true ∨ (f v).running ≠ none → v.anchor = true ∨ v.running ≠ none) :
    Effect checks i (some id) gone s (s.modify id f) :=
  hs.retouch hv hlk hn hc hkey hopMu fun h => hs.busy hv (hb h)

/-- A supervisor whose lock is free has only its own key and its recorded runtime. -/
theorem Sound.settled (hfr : v.opMu = none) : s.OnlyKey id v.publicKey ∧
    ∀ rt key, s.Alive rt id key → recorded v rt key := by
  have hc : s.OnlyKey id v.publicKey := by
    intro k hk
    obtain ⟨_, hw, -, ho⟩ := hs.keys hk
    obtain rfl := Option.mem_unique hv hw
    exact ho hfr
  refine ⟨hc, fun rt key ha => ?_⟩
  obtain ⟨hk, hrun⟩ := hs.live ha
  exact ⟨hrun v hv hfr, hc key hk⟩

end InterfaceManager

/-- A new runtime of a locked supervisor that had none. -/
theorem startGeneration_some {cfg : C} {ok : Bool} {s' : InterfaceManager C}
    (h : s.startGeneration checks id v cfg ok = some s') :
    ∃ key, checks.preparePeers cfg = some key ∧ v.anchor = true ∧ s' = s.launch id key := by
  unfold startGeneration at h
  split at h
  · cases h
  rename_i key hkey
  split at h
  · next hok =>
    cases h
    exact ⟨key, hkey, hok.2.1, rfl⟩
  · cases h

/-! ### The steps under the lock -/

section
variable (checks s id v)

/-- The steps of an operation that holds the lock of `v`. -/
inductive Stepped : Phase C → OpMove C → Prop
  | opened : Stepped .openAnchor
    (goesOn (s.modify id fun v => { v with anchor := true }) id .startInitial)
  | notOpened : Stepped .openAnchor (goesOn s id (.unlock .cleanup))
  | started {key : PublicKey} : checks.preparePeers v.config = some key → v.anchor = true →
    Stepped .startInitial
      (goesOn (s.launch id key) id (.recordInitial s.runtimes.length))
  | notStarted : Stepped .startInitial (goesOn s id .closeAnchor)
  | recordedInitial (rt : ℕ) : Stepped (.recordInitial rt)
    (goesOn (s.modify id fun v => { v with running := some rt, lifecycle := .running })
      id (.unlock .status) [.wait id rt])
  | closedAnchor (ok : Bool) : Stepped .closeAnchor
    (goesOn (s.modify id fun v => { v with anchor := !ok, lifecycle := .error })
      id (.unlock .cleanup))
  | clean : v.anchor = false → v.running = none → Stepped .checkCleanup
    (goesOn s id (.unlock .discard))
  | notClean : Stepped .checkCleanup (goesOn s id (.unlock .finish))
  | deleteRefused (mutation : MutationContext) : Stepped (.checkDelete mutation)
    (goesOn s id (.unlock .finish))
  | deletes {mutation : MutationContext} : v.checkMutation mutation = true →
    Stepped (.checkDelete mutation)
      (goesOn (s.modify id fun v => { v with lifecycle := .deleting }) id (.closeRuntime .delete))
  | stopsCreated : Stepped .stopCreated
    (goesOn (s.modify id fun v => { v with lifecycle := .deleting }) id (.closeRuntime .create))
  | noRuntime (stopper : Stopper) : v.running = none → Stepped
    (.closeRuntime stopper) (goesOn s id (.stopAnchor stopper false))
  | closedRuntime (stopper : Stopper) {rt : ℕ} : v.running = some rt → Stepped
    (.closeRuntime stopper) (goesOn (s.kill rt) id (.forgetRuntime stopper))
  | notClosed (stopper : Stopper) {rt : ℕ} : v.running = some rt → Stepped
    (.closeRuntime stopper) (goesOn s id (.stopAnchor stopper true))
  | forgotRuntime (stopper : Stopper) : Stepped (.forgetRuntime stopper)
    (goesOn (s.modify id fun v => { v with running := none }) id (.stopAnchor stopper false))
  | noAnchor (stopper : Stopper) (failed : Bool) : v.anchor = false → Stepped
    (.stopAnchor stopper failed) (goesOn s id (.stopped stopper failed))
  | stoppedAnchor (stopper : Stopper) (failed : Bool) : v.anchor = true → Stepped
    (.stopAnchor stopper failed)
      (goesOn (s.modify id fun v => { v with anchor := false }) id (.stopped stopper failed))
  | notStopped (stopper : Stopper) (failed : Bool) : v.anchor = true → Stepped
    (.stopAnchor stopper failed) (goesOn s id (.stopped stopper true))
  | stopFailed (stopper : Stopper) : Stepped (.stopped stopper true)
    (goesOn (s.modify id fun v => { v with lifecycle := .error }) id (.unlock .finish))
  | deleted : Stepped (.stopped .delete false) (goesOn s id .remove)
  | abandoned : Stepped (.stopped .create false) (goesOn s id (.unlock .discard))
  | removed : Stepped .remove
    (goesOn (s.removeSupervisor id v.name) id (.unlock .finish))
  | restartRefused (mutation : MutationContext) (spec : RestartSpec C) :
    Stepped (.checkRestart mutation spec) (goesOn s id (.unlock .finish))
  | restarts {mutation : MutationContext} {spec : RestartSpec C} {next : C}
    {newKey : PublicKey} : v.lifecycle = .running ∨ v.lifecycle = .error →
    checks.preparePeers next = some newKey → Stepped (.checkRestart mutation spec)
      (goesOn (s.modify id fun v => { v with lifecycle := .restarting }) id (.reserve
          { oldConfig := v.config, next := next, oldKey := v.publicKey, newKey := newKey,
            oldGeneration := v.generation, oldLifecycle := v.lifecycle }))
  | notReserved (job : RestartJob C) : Stepped (.reserve job)
    (goesOn (s.modify id fun v => { v with lifecycle := job.oldLifecycle }) id (.unlock .finish))
  | reserved {job : RestartJob C} {s' : InterfaceManager C} :
    s.reservePublicKeyChange id job.oldKey job.newKey = some s' →
    Stepped (.reserve job) (goesOn s' id (.closeOld job))
  | noOld (job : RestartJob C) : v.running = none → Stepped (.closeOld job)
    (goesOn s id (.startNext job))
  | closedOld (job : RestartJob C) {rt : ℕ} : v.running = some rt →
    Stepped (.closeOld job) (goesOn (s.kill rt) id (.forgetOld job))
  | notClosedOld (job : RestartJob C) {rt : ℕ} : v.running = some rt →
    Stepped (.closeOld job) (goesOn s id (.unreserve job))
  | forgotOld (job : RestartJob C) : Stepped (.forgetOld job)
    (goesOn (s.modify id fun v => { v with running := none }) id (.startNext job))
  | unreserved (job : RestartJob C) : Stepped (.unreserve job)
    (goesOn (s.restorePublicKeyChange id job.oldKey job.newKey) id .failRestart)
  | failedRestart : Stepped .failRestart
    (goesOn (s.modify id fun v => { v with lifecycle := .error }) id (.unlock .finish))
  | startedNext {job : RestartJob C} {key : PublicKey} :
    checks.preparePeers job.next = some key → v.anchor = true →
    Stepped (.startNext job)
      (goesOn (s.launch id key) id (.recordNext job s.runtimes.length))
  | notStartedNext (job : RestartJob C) : Stepped (.startNext job)
    (goesOn s id (.restore job))
  | recordedNext (job : RestartJob C) (rt : ℕ) : Stepped (.recordNext job rt)
    (goesOn (s.modify id fun v =>
        { v with
          running := some rt, config := job.next, publicKey := job.newKey
          generation := job.oldGeneration + 1, lifecycle := .running }) id (.commit job rt))
  | committed (job : RestartJob C) (rt : ℕ) : Stepped (.commit job rt)
    (goesOn (s.commitPublicKeyChange id job.oldKey job.newKey) id (.unlock .finish) [.wait id rt])
  | restored (job : RestartJob C) : Stepped (.restore job)
    (goesOn (s.restorePublicKeyChange id job.oldKey job.newKey) id (.rollback job))
  | rollsBack (job : RestartJob C) : Stepped (.rollback job)
    (goesOn (s.modify id fun v => { v with lifecycle := .rollingBack }) id (.startOld job))
  | startedOld {job : RestartJob C} {key : PublicKey} :
    checks.preparePeers job.oldConfig = some key → v.anchor = true →
    Stepped (.startOld job)
      (goesOn (s.launch id key) id (.recordOld job s.runtimes.length))
  | notStartedOld (job : RestartJob C) : Stepped (.startOld job)
    (goesOn (s.modify id fun v => { v with running := none, lifecycle := .error })
      id (.unlock .finish))
  | recordedOld (job : RestartJob C) (rt : ℕ) : Stepped (.recordOld job rt)
    (goesOn (s.modify id fun v =>
        { v with
          running := some rt, config := job.oldConfig
          generation := job.oldGeneration + 1, lifecycle := .running })
      id (.unlock .finish) [.wait id rt])
  | failedRuntime {rt : ℕ} : v.running = some rt → Stepped (.checkCurrent rt)
    (goesOn (s.modify id fun v => { v with running := none, lifecycle := .error })
      id (.unlock .finish))
  | notCurrent (rt : ℕ) : Stepped (.checkCurrent rt) (goesOn s id (.unlock .finish))
  | unlocked (next : After) : Stepped (.unlock next)
    { shared := s.modify id fun v => { v with opMu := none }, next := next.place id }

end

theorem Phase.step_stepped {phase : Phase C} {c : Decision} {m : OpMove C}
    (h : phase.step checks s id v c = some m) : Stepped checks s id v phase m := by
  unfold Phase.step at h
  split at h
  · cases h
    exact .opened
  · cases h
    exact .notOpened
  · split at h
    · next s' hs =>
      cases h
      obtain ⟨key, hpl, ha, rfl⟩ := startGeneration_some hs
      exact .started hpl ha
    · cases h
      exact .notStarted
  · cases h
    exact .recordedInitial _
  · cases h
    exact .closedAnchor _
  · split at h
    · next hcl =>
      cases h
      exact .clean hcl.1 hcl.2
    · cases h
      exact .notClean
  · split at h
    · cases h
      exact .deleteRefused _
    · next hc =>
      cases h
      exact .deletes (Bool.not_eq_false _ ▸ (not_or.mp hc).1)
  · cases h
    exact .stopsCreated
  · split at h
    · next hrun =>
      cases h
      exact .noRuntime _ hrun
    · next rt hrun =>
      split at h
      · cases h
        exact .closedRuntime _ hrun
      · cases h
        exact .notClosed _ hrun
  · cases h
    exact .forgotRuntime _
  · split at h
    · next ha =>
      cases h
      exact .noAnchor _ _ ha
    · next ha =>
      split at h
      · cases h
        exact .stoppedAnchor _ _ (Bool.not_eq_false _ ▸ ha)
      · cases h
        exact .notStopped _ _ (Bool.not_eq_false _ ▸ ha)
  · next stopper failed =>
    cases failed with
    | true =>
      cases h
      exact .stopFailed _
    | false =>
      cases stopper with
      | delete =>
        cases h
        exact .deleted
      | create =>
        cases h
        exact .abandoned
  · cases h
    exact .removed
  · split at h
    · cases h
      exact .restartRefused _ _
    · next hc =>
      split at h
      · cases h
        exact .restartRefused _ _
      split at h
      · cases h
        exact .restartRefused _ _
      rename_i newKey hpl
      cases h
      refine .restarts ?_ hpl
      have hl := (not_or.mp (not_or.mp hc).2).2
      by_cases hrun : v.lifecycle = .running
      · exact .inl hrun
      · exact .inr (not_not.mp fun he => hl ⟨hrun, he⟩)
  · split at h
    · cases h
      exact .notReserved _
    · next s' hr =>
      cases h
      exact .reserved hr
  · split at h
    · next hrun =>
      cases h
      exact .noOld _ hrun
    · next rt hrun =>
      split at h
      · cases h
        exact .closedOld _ hrun
      · cases h
        exact .notClosedOld _ hrun
  · cases h
    exact .forgotOld _
  · cases h
    exact .unreserved _
  · cases h
    exact .failedRestart
  · split at h
    · next s' hs =>
      cases h
      obtain ⟨key, hpl, ha, rfl⟩ := startGeneration_some hs
      exact .startedNext hpl ha
    · cases h
      exact .notStartedNext _
  · cases h
    exact .recordedNext _ _
  · cases h
    exact .committed _ _
  · cases h
    exact .restored _
  · cases h
    exact .rollsBack _
  · split at h
    · next s' hs =>
      cases h
      obtain ⟨_, hpl, ha, rfl⟩ := startGeneration_some hs
      exact .startedOld hpl ha
    · cases h
      exact .notStartedOld _
  · cases h
    exact .recordedOld _ _
  · split at h
    · next hcu =>
      cases h
      exact .failedRuntime hcu.1
    · cases h
      exact .notCurrent _
  · cases h
    exact .unlocked _
  · cases h

namespace Hold
variable {m : OpMove C} {phase : Phase C} {key : PublicKey} {rt : ℕ} {job : RestartJob C}

theorem launch (h : Hold checks i s id phase v)
    (hkey : s.byPublicKey.lookup key = some id) (hqt : s.Quiet id) :
    Effect checks i (some id) none s (s.launch id key) :=
  .launch rfl h.sup h.locked hkey hqt

/-- Without an old runtime, the new one is the only live one. -/
theorem launched {key' : PublicKey} (hqt : s.Quiet id)
    (ha : (s.launch id key).Alive rt id key') : rt = s.runtimes.length ∧ key' = key := by
  rcases launch_alive.mp ha with ha | ⟨rfl, -, rfl⟩
  · exact absurd ha (hqt rt key')
  · exact ⟨rfl, rfl⟩

theorem quiet_kill (hl : ∀ rt key, s.Alive rt id key → recorded v rt key)
    (hrun : v.running = some rt) (rt' : ℕ) (key : PublicKey) : ¬ (s.kill rt).Alive rt' id key := by
  intro ha
  obtain ⟨hne, ha⟩ := kill_alive.mp ha
  exact hne (Option.mem_unique (hl rt' key ha).1 hrun)

theorem quiet_of_recorded (hl : ∀ rt key, s.Alive rt id key → recorded v rt key)
    (hrun : v.running = none) (rt : ℕ) (key : PublicKey) : ¬ s.Alive rt id key := by
  intro ha
  cases hrun.symm.trans (hl rt key ha).1

theorem refused (h : Hold checks i s id phase v) (hks : s.OnlyKey id v.publicKey)
    (hl : ∀ rt key, s.Alive rt id key → recorded v rt key) :
    Advances checks i (some id) none s (goesOn s id (.unlock .finish)) :=
  ⟨.same, v, h.sup, h.locked, nofun, hks, nofun, hl, trivial⟩

theorem concluded (h : Hold checks i s id phase v) (hs : Sound checks s)
    (hks : s.OnlyKey id v.publicKey)
    (hl : ∀ rt key, s.Alive rt id key → recorded v rt key) (l : Lifecycle) :
    Advances checks i (some id) none s
      (goesOn (s.modify id fun v => { v with lifecycle := l }) id (.unlock .finish)) :=
  ⟨hs.shrink h.sup h.locked rfl rfl rfl rfl fun hb => hb, _, modify_self h.sup, h.locked,
    nofun, hks, nofun, hl, trivial⟩

theorem stopped_runtime (h : Hold checks i s id phase v) (hs : Sound checks s)
    (hks : s.OnlyKey id v.publicKey) (hqt : s.Quiet id) :
    Advances checks i (some id) none s
      (goesOn (s.modify id fun v => { v with running := none, lifecycle := .error })
        id (.unlock .finish)) :=
  ⟨hs.shrink h.sup h.locked rfl rfl rfl rfl fun hb =>
      .inl (hb.resolve_right fun hne => hne rfl), _, modify_self h.sup, h.locked,
    nofun, hks, nofun,
    fun rt key ha => absurd ha (hqt rt key), trivial⟩

/-! #### Creation -/

theorem opened (h : Hold checks i s id .openAnchor v) (hs : Sound checks s) :
    Advances checks i (some id) none s
      (goesOn (s.modify id fun v => { v with anchor := true }) id .startInitial) :=
  ⟨hs.retouch h.sup h.locked rfl rfl rfl rfl fun _ => h.extra, _, modify_self h.sup, h.locked,
    ⟨rfl, h.fits.2⟩, h.keys, nofun, h.live, trivial⟩

theorem started (h : Hold checks i s id .startInitial v) (hs : Sound checks s)
    (hpl : checks.preparePeers v.config = some key) (han : v.anchor = true) :
    Advances checks i (some id) none s
      (goesOn (s.launch id key) id (.recordInitial s.runtimes.length)) := by
  obtain rfl : v.publicKey = key := Option.mem_unique (hs.plan h.sup) hpl
  have hr := hs.own h.sup (hs.busy h.sup (.inl han))
  exact ⟨h.launch hr h.live, v, h.sup, h.locked, han, h.keys, nofun,
    fun rt key ha => launched h.live ha, trivial⟩

/-- The started runtime is recorded, by `startInitial` or by a rollback. -/
theorem recordedInitial (h : Hold checks i s id (.recordInitial rt) v)
    (hs : Sound checks s) : Advances checks i (some id) none s
      (goesOn (s.modify id fun v => { v with running := some rt, lifecycle := .running })
        id (.unlock .status) [.wait id rt]) := by
  refine ⟨hs.retouch h.sup h.locked rfl rfl rfl rfl fun _ => hs.busy h.sup (.inl h.fits), _,
    modify_self h.sup, h.locked, nofun, h.keys, nofun,
    fun rt' key ha => ?_, trivial⟩
  obtain ⟨rfl, rfl⟩ := h.live rt' key ha
  exact ⟨rfl, rfl⟩

/-! #### Key changes -/

theorem reserved {s' : InterfaceManager C}
    (h : Hold checks i s id (.reserve job) v) (hs : Sound checks s)
    (hr : s.reservePublicKeyChange id job.oldKey job.newKey = some s') :
    Advances checks i (some id) none s (goesOn s' id (.closeOld job)) := by
  obtain ⟨hv, hlk, ⟨hli, hj⟩, hks, -, hl, -⟩ := h
  rcases reservePublicKeyChange_some hr with ⟨heq, rfl⟩ | ⟨_, hold, keys, rfl, ho, how⟩
  · exact ⟨.same, v, hv, hlk, ⟨hli, hj⟩,
      fun k hk => .inl ((hks k hk).trans hj.key), fun k hk => absurd heq hk.1, hl, trivial⟩
  have hna : s.interfaces.lookup v.name = some id := by
    obtain ⟨_, hw, hn, -⟩ := hs.keys hold
    obtain rfl := Option.mem_unique hv hw
    exact hn
  have hkp : keys.lookup v.publicKey = some id := (how _).mpr (.inl hj.key)
  refine ⟨.rekey rfl hv hlk ho (fun _ _ => hna) (fun _ => hkp)
    fun rt key ha => ?_, v, hv, hlk, ⟨hli, hj⟩, fun k hk => ?_,
    fun k hk => ?_, hl, trivial⟩
  · rw [(hl rt key ha).2]
    exact hkp
  · rcases (how k).mp hk with hk | hk | hk
    · exact .inl hk
    · exact .inr hk
    · exact .inl ((hks k hk).trans hj.key)
  · exact (how k).mpr (hk.2.imp_right .inl)

/-- Giving the new key back: the old key is the only one left. -/
theorem restores (h : Hold checks i s id phase v)
    (hs : Sound checks s) (hj : JobFits checks job v)
    (hc : (phase.claim checks).change = some job)
    (hl : ∀ rt key, s.Alive rt id key → key = v.publicKey) :
    ∃ keys, s.restorePublicKeyChange id job.oldKey job.newKey = { s with byPublicKey := keys } ∧
      Effect checks i (some id) none s { s with byPublicKey := keys } ∧
      ∀ k, keys.lookup k = some id → k = v.publicKey := by
  obtain ⟨hv, hlk, -, hks, hp, -, -⟩ := h
  unfold Claim.Keys at hks
  unfold Claim.Pinned at hp
  rw [hc] at hks hp
  obtain ⟨keys, heq, ho, how⟩ :=
    restorePublicKeyChange_eq (s := s) fun hne => hp _ ⟨hne, .inl rfl⟩
  have hkp : s.byPublicKey.lookup v.publicKey = some id → keys.lookup v.publicKey = some id := by
    intro hr
    refine (how _).mpr ⟨hr, ?_⟩
    rw [hj.key]
    exact em _
  refine ⟨keys, heq, .rekey rfl hv hlk ho (fun k hk => ?_)
    (fun hn => hkp (hs.own hv hn)) fun rt key ha => ?_, fun k hk => ?_⟩
  · obtain ⟨_, hw, hn, -⟩ := hs.keys ((how k).mp hk).1
    obtain rfl := Option.mem_unique hv hw
    exact hn
  · obtain rfl := hl rt key ha
    exact hkp (hs.live ha).1
  · obtain ⟨hk, hne⟩ := (how k).mp hk
    rw [hj.key]
    rcases hks k hk with rfl | rfl
    · rfl
    · exact (hne.resolve_right fun h => h rfl).symm

/-- Both keys of a change are reserved for a registered supervisor. -/
theorem newKey_reserved (hs : Sound checks s)
    (hv : s.supervisors[id]? = some v) (hkey : v.publicKey = job.oldKey)
    (hp : job.oldKey ≠ job.newKey → s.byPublicKey.lookup job.newKey = some id)
    (hn : s.interfaces.lookup v.name = some id) : s.byPublicKey.lookup job.newKey = some id := by
  by_cases heq : job.oldKey = job.newKey
  · rw [← heq, ← hkey]
    exact hs.own hv hn
  · exact hp heq

theorem startedNext (h : Hold checks i s id (.startNext job) v)
    (hs : Sound checks s) (hpl : checks.preparePeers job.next = some key)
    (han : v.anchor = true) : Advances checks i (some id) none s
      (goesOn (s.launch id key) id (.recordNext job s.runtimes.length)) := by
  have ⟨hv, hlk, ⟨hli, hj, _⟩, hks, hp, hl, _⟩ := h
  obtain rfl : job.newKey = key := Option.mem_unique hj.next hpl
  have hr := newKey_reserved hs hv hj.key (fun hne => hp _ ⟨hne, .inr rfl⟩)
    (hs.busy hv (.inl han))
  exact ⟨h.launch hr hl, v, hv, hlk, ⟨hli, hj, han⟩, hks, hp,
    fun rt key ha => launched hl ha, trivial⟩

theorem recordedNext (h : Hold checks i s id (.recordNext job rt) v) (hs : Sound checks s) :
    Advances checks i (some id) none s
      (goesOn (s.modify id fun v =>
        { v with
          running := some rt, config := job.next, publicKey := job.newKey
          generation := job.oldGeneration + 1, lifecycle := .running }) id (.commit job rt)) := by
  obtain ⟨hv, hlk, ⟨-, hj, ha⟩, hks, hp, hl, -⟩ := h
  refine ⟨.update _ rfl hv rfl hj.next (fun hn => ?_) (fun _ => hs.busy hv (.inl ha))
    fun hfr => ?_, _, modify_self hv, hlk, ⟨rfl, rfl, rfl⟩, hks, hp, hl, trivial⟩
  · exact newKey_reserved hs hv hj.key (fun hne => hp _ ⟨hne, .inr rfl⟩) hn
  · cases hlk.symm.trans hfr

theorem committed (h : Hold checks i s id (.commit job rt) v)
    (hs : Sound checks s) : Advances checks i (some id) none s
      (goesOn (s.commitPublicKeyChange id job.oldKey job.newKey) id (.unlock .finish)
        [.wait id rt]) := by
  obtain ⟨hv, hlk, ⟨-, hkey, hrun⟩, hks, -, hl, -⟩ := h
  obtain ⟨keys, heq, ho, how⟩ := commitPublicKeyChange_eq s id job.oldKey job.newKey
  have hkp : s.byPublicKey.lookup job.newKey = some id → keys.lookup job.newKey = some id := by
    intro hr
    exact (how _).mpr ⟨hr, (em _).imp_right Ne.symm⟩
  rw [heq]
  refine ⟨.rekey rfl hv hlk ho (fun k hk => ?_) (fun hn => ?_) fun rt' key ha => ?_,
    v, hv, hlk, nofun, fun k hk => ?_, nofun,
    fun rt' key ha => ?_, trivial⟩
  · obtain ⟨_, hw, hn, -⟩ := hs.keys ((how k).mp hk).1
    obtain rfl := Option.mem_unique hv hw
    exact hn
  · have hr := hs.own hv hn
    rw [hkey] at hr ⊢
    exact hkp hr
  · obtain ⟨-, rfl⟩ := hl rt' key ha
    exact hkp (hs.live ha).1
  · obtain ⟨hk, hne⟩ := (how k).mp hk
    show k = v.publicKey
    rw [hkey]
    rcases hks k hk with rfl | rfl
    · exact hne.resolve_right fun h => h rfl
    · rfl
  · obtain ⟨rfl, rfl⟩ := hl rt' key ha
    exact ⟨hrun, hkey.symm⟩

/-! #### Rollback and release -/

theorem startedOld (h : Hold checks i s id (.startOld job) v)
    (hs : Sound checks s) (hpl : checks.preparePeers job.oldConfig = some key)
    (han : v.anchor = true) : Advances checks i (some id) none s
      (goesOn (s.launch id key) id (.recordOld job s.runtimes.length)) := by
  have ⟨hv, hlk, ⟨hli, hj, _⟩, hks, _, hl, _⟩ := h
  obtain rfl : v.publicKey = key := hj.key.trans (Option.mem_unique hj.old hpl)
  have hr := hs.own hv (hs.busy hv (.inl han))
  exact ⟨h.launch hr hl, v, hv, hlk, ⟨hli, hj, han⟩, hks,
    nofun, fun rt key ha => launched hl ha, trivial⟩

theorem recordedOld (h : Hold checks i s id (.recordOld job rt) v) (hs : Sound checks s) :
    Advances checks i (some id) none s
      (goesOn (s.modify id fun v =>
        { v with
          running := some rt, config := job.oldConfig
          generation := job.oldGeneration + 1, lifecycle := .running })
        id (.unlock .finish) [.wait id rt]) := by
  obtain ⟨hv, hlk, ⟨-, hj, han⟩, hks, -, hl, -⟩ := h
  have hpl : checks.preparePeers job.oldConfig = some v.publicKey := by
    rw [hj.key]
    exact hj.old
  have ho := hs.own hv
  refine ⟨.update _ rfl hv rfl hpl ho (fun _ => hs.busy hv (.inl han)) fun hfr => ?_,
    _, modify_self hv, hlk, nofun, hks, nofun,
    fun rt' key ha => ?_, trivial⟩
  · cases hlk.symm.trans hfr
  · obtain ⟨rfl, rfl⟩ := hl rt' key ha
    exact ⟨rfl, rfl⟩

theorem quiet_of_dead (h : Hold checks i s id (.checkCurrent rt) v)
    (hrun : v.running = some rt) (rt' : ℕ) (key : PublicKey) : ¬ s.Alive rt' id key := by
  intro ha
  obtain ⟨_, hr, hd⟩ := h.extra
  obtain rfl : rt' = rt := Option.mem_unique (h.live rt' key ha).1 hrun
  rw [Option.mem_unique hr ha] at hd
  cases hd

theorem unlocked {next : After} (h : Hold checks i s id (.unlock next) v) (hs : Sound checks s) :
    Advances checks i (some id) none s
      { shared := s.modify id fun v => { v with opMu := none }, next := next.place id } := by
  obtain ⟨hv, _, hf, hks, -, hl, -⟩ := h
  have hpl := hs.plan hv
  have ho := hs.own hv
  have hb := hs.busy hv
  refine ⟨.update _ rfl hv rfl hpl ho hb
    fun _ => ⟨hks, fun rt key ha => (hl rt key ha).1⟩, ?_⟩
  have hsf := modify_self (f := fun v => { v with opMu := none }) hv
  have hlt := lt_of_get hsf
  cases next with
  | finish => trivial
  | cleanup | status => exact hlt
  | discard =>
    obtain ⟨han, hrun⟩ := hf rfl
    exact ⟨_, hsf, han, hrun, hks, quiet_of_recorded hl hrun⟩

theorem advances (h : Hold checks i s id phase v) (hs : Sound checks s)
    (hst : Stepped checks s id v phase m) : Advances checks i (some id) none s m := by
  have ⟨hv, hlk, hf, hks, hp, hl, _⟩ := h
  cases hst with
  | opened => exact h.opened hs
  | notOpened =>
    exact ⟨.same, v, hv, hlk, nofun, hks, nofun,
      fun rt key ha => (hl rt key ha).elim, trivial⟩
  | started hpl han => exact h.started hs hpl han
  | notStarted =>
    exact ⟨.same, v, hv, hlk, hf, hks, nofun, hl, trivial⟩
  | recordedInitial => exact h.recordedInitial hs
  | closedAnchor =>
    exact ⟨hs.shrink hv hlk rfl rfl rfl rfl fun _ => .inl hf.1, _, modify_self hv, hlk,
      nofun, hks, nofun,
      fun rt key ha => (hl rt key ha).elim, trivial⟩
  | clean han hrun =>
    exact ⟨.same, v, hv, hlk, fun _ => ⟨han, hrun⟩, hks, nofun, hl, trivial⟩
  | notClean | deleteRefused => exact h.refused hks hl
  | deletes | stopsCreated =>
    exact ⟨hs.shrink hv hlk rfl rfl rfl rfl fun hb => hb, _, modify_self hv, hlk,
      rfl, hks, nofun, hl, trivial⟩
  | noRuntime _ hrun =>
    exact ⟨.same, v, hv, hlk, ⟨hf, fun _ => hrun⟩, hks, nofun, hl, trivial⟩
  | closedRuntime _ hrun =>
    exact ⟨.kill _, v, hv, hlk, hf, hks, nofun, quiet_kill hl hrun, trivial⟩
  | notClosed =>
    exact ⟨.same, v, hv, hlk, ⟨hf, nofun⟩, hks, nofun, hl, trivial⟩
  | forgotRuntime =>
    exact ⟨hs.shrink hv hlk rfl rfl rfl rfl fun hb =>
        .inl (hb.resolve_right fun hne => hne rfl), _, modify_self hv, hlk, ⟨hf, fun _ => rfl⟩,
      hks, nofun,
      fun rt key ha => (hl rt key ha).elim, trivial⟩
  | noAnchor _ _ han =>
    exact ⟨.same, v, hv, hlk, ⟨hf.1, fun hok => ⟨hf.2 hok, han⟩⟩, hks,
      nofun, hl, trivial⟩
  | stoppedAnchor _ _ han =>
    exact ⟨hs.shrink hv hlk rfl rfl rfl rfl fun _ => .inl han, _, modify_self hv, hlk,
      ⟨hf.1, fun hok => ⟨hf.2 hok, rfl⟩⟩, hks, nofun, hl, trivial⟩
  | notStopped =>
    exact ⟨.same, v, hv, hlk, ⟨hf.1, nofun⟩, hks, nofun, hl, trivial⟩
  | stopFailed | notReserved | failedRestart => exact h.concluded hs hks hl _
  | deleted =>
    exact ⟨.same, v, hv, hlk, ⟨hf.1, hf.2 rfl⟩, hks, nofun, hl, trivial⟩
  | abandoned =>
    exact ⟨.same, v, hv, hlk, fun _ => (hf.2 rfl).symm, hks, nofun, hl,
      trivial⟩
  | removed =>
    exact ⟨.remove (.inl rfl) hv hf.2.2 hf.2.1 (quiet_of_recorded hl hf.2.1), v, hv,
      hlk, nofun, fun k hk =>
        absurd rfl (removeSupervisor_keys.mp hk).2, nofun, hl, trivial⟩
  | restartRefused => exact h.refused hks hl
  | restarts _ hpl =>
    have hold := hs.plan hv
    exact ⟨hs.shrink hv hlk rfl rfl rfl rfl fun hb => hb, _, modify_self hv, hlk,
      ⟨rfl, rfl, hold, hpl⟩, hks, nofun, hl, trivial⟩
  | reserved hr => exact h.reserved hs hr
  | noOld _ hrun =>
    exact ⟨.same, v, hv, hlk, ⟨hf.1, hf.2, hrun⟩, hks, hp,
      quiet_of_recorded hl hrun, trivial⟩
  | closedOld _ hrun =>
    exact ⟨.kill _, v, hv, hlk, hf, hks, hp, quiet_kill hl hrun, trivial⟩
  | notClosedOld | notStartedNext =>
    exact ⟨.same, v, hv, hlk, hf, hks, hp, hl, trivial⟩
  | forgotOld job =>
    have hj : JobFits checks job v := hf.2
    exact ⟨hs.shrink hv hlk rfl rfl rfl rfl fun hb =>
        .inl (hb.resolve_right fun hne => hne rfl), _, modify_self hv, hlk,
      ⟨hf.1, ⟨hj.key, hj.old, hj.next⟩, rfl⟩, hks, hp,
      hl, trivial⟩
  | unreserved =>
    obtain ⟨_, heq, he, hc⟩ := h.restores hs hf.2 rfl fun rt key ha =>
      (hl rt key ha).2
    rw [heq]
    exact ⟨he, v, hv, hlk, hf.1, hc, nofun, hl, trivial⟩
  | startedNext hpl han => exact h.startedNext hs hpl han
  | recordedNext => exact h.recordedNext hs
  | committed => exact h.committed hs
  | restored =>
    obtain ⟨_, heq, he, hc⟩ := h.restores hs hf.2.1 rfl fun rt key ha =>
      (hl rt key ha).elim
    rw [heq]
    exact ⟨he, v, hv, hlk, hf, hc, nofun, hl, trivial⟩
  | rollsBack job =>
    have hj : JobFits checks job v := hf.2.1
    exact ⟨hs.shrink hv hlk rfl rfl rfl rfl fun hb => hb, _, modify_self hv, hlk,
      ⟨rfl, ⟨hj.key, hj.old, hj.next⟩, hf.2.2⟩, hks, nofun, hl,
      trivial⟩
  | startedOld hpl han => exact h.startedOld hs hpl han
  | notStartedOld => exact h.stopped_runtime hs hks hl
  | recordedOld => exact h.recordedOld hs
  | failedRuntime hrun => exact h.stopped_runtime hs hks (h.quiet_of_dead hrun)
  | notCurrent => exact h.refused hks hl
  | unlocked => exact h.unlocked hs

end Hold

end WgFrag.Manager
