import WgFrag.Manager.Operations

/-! Operations on interfaces in any interleaving: a running runtime is registered under its name
and its key, and no two have one key. -/
namespace WgFrag.Manager
open WgFrag.Lib InterfaceManager List
variable {C : Type}

namespace Operation

/-- The supervisor whose operation lock is held. -/
def holds : Operation C → Option ℕ
  | .locked id _ => some id
  | _ => none

/-- The supervisor that is removed without its lock. -/
def gone : Operation C → Option ℕ
  | .discard id => some id
  | _ => none

end Operation

/-- The phases of the call that created the interface. -/
def Phase.creator : Phase C → Bool
  | .openAnchor => true
  | .startInitial => true
  | .recordInitial _ => true
  | .closeAnchor => true
  | .checkCleanup => true
  | .stopCreated => true
  | .closeRuntime .create => true
  | .forgetRuntime .create => true
  | .stopAnchor .create _ => true
  | .stopped .create _ => true
  | .unlock .cleanup => true
  | .unlock .discard => true
  | .unlock .status => true
  | _ => false

/-- The interface that this call has created. -/
def Operation.creates : Operation C → Option ℕ
  | .start id => some id
  | .cleanup id => some id
  | .discard id => some id
  | .status id => some id
  | .locked id phase => if phase.creator then some id else none
  | _ => none

variable {checks : Checks C} {i j id : ℕ} {s : InterfaceManager C} {v : Supervisor C}
  {c : Decision} {m : OpMove C}
variable {phase : Phase C}

/-- Where a call waits for the operation lock of an interface, and what it does with it. -/
inductive Enters : Operation C → ℕ → Phase C → Prop
  | start (id : ℕ) : Enters (.start id) id .openAnchor
  | cleanup (id : ℕ) : Enters (.cleanup id) id .checkCleanup
  | status (id : ℕ) : Enters (.status id) id .stopCreated
  | lock (id : ℕ) (phase : Phase C) : Enters (.lock id phase) id phase

section
variable (checks i s)

inductive Operated : Operation C → OpMove C → Prop
  | ended {p : Operation C} : p.holds = none →
    Operated p { shared := s, next := .finished }
  | created {name : String} {cfg : C} {key : PublicKey} (instanceID : InstanceID) :
    checks.preparePeers cfg = some key → s.interfaces.lookup name = none →
    s.byPublicKey.lookup key = none → Operated (.create name cfg)
      { shared := s.register name instanceID cfg key, next := .start s.supervisors.length }
  | acquired {p : Operation C} {id : ℕ} {phase : Phase C} {v : Supervisor C} :
    Enters p id phase → s.supervisors[id]? = some v → v.opMu = none → Operated p
      { shared := s.modify id fun v => { v with opMu := some i }, next := .locked id phase }
  | discarded {id : ℕ} {v : Supervisor C} : s.supervisors[id]? = some v →
    Operated (.discard id)
      { shared := s.removeSupervisor id v.name, next := .finished }
  | foundDelete {ref : InterfaceRef} {id : ℕ} (mutation : MutationContext) :
    s.lookup ref = some id → Operated (.lookupDelete ref mutation)
      { shared := s, next := .lock id (.checkDelete mutation) }
  | foundRestart {ref : InterfaceRef} {id : ℕ} (mutation : MutationContext)
    (spec : RestartSpec C) : s.lookup ref = some id →
    Operated (.lookupRestart ref mutation spec)
      { shared := s, next := .lock id (.checkRestart mutation spec) }
  | crashed (rt : ℕ) : Operated (.crash rt) { shared := s.kill rt, next := .finished }
  | woke (id : ℕ) {rt : ℕ} : s.Dead rt → Operated (.wait id rt)
    { shared := s, next := .lock id (.checkCurrent rt) }
  | stepped {id : ℕ} {phase : Phase C} {v : Supervisor C} {m : OpMove C} :
    s.supervisors[id]? = some v → Stepped checks s id v phase m → Operated (.locked id phase) m

end

theorem acquire_operated {p : Operation C} (he : Enters p id phase)
    (h : acquire i s id phase = some m) : Operated checks i s p m := by
  unfold acquire at h
  split at h
  · cases h
  rename_i v hv
  split at h
  · next hfr =>
    cases h
    exact .acquired he hv hfr
  · cases h

theorem operate_operated {p : Operation C} (h : operate checks i s p c = some m) :
    Operated checks i s p m := by
  unfold operate at h
  split at h
  · -- create
    split at h
    · cases h
      exact .ended rfl
    rename_i key hpl
    split at h
    · cases h
      exact .ended rfl
    rename_i hfr
    cases h
    simp only [not_or, Bool.not_eq_true, Option.isSome_eq_false_iff,
      Option.isNone_iff_eq_none] at hfr
    exact .created _ hpl hfr.2.2.2.1 hfr.2.2.2.2
  · exact acquire_operated (.start _) h
  · exact acquire_operated (.cleanup _) h
  · -- discard
    split at h
    · cases h
    · next v hv =>
      cases h
      exact .discarded hv
  · cases h
    exact .ended rfl
  · exact acquire_operated (.status _) h
  · -- lookups
    split at h
    · cases h
      exact .ended rfl
    · next id hid =>
      cases h
      exact .foundDelete _ hid
  · split at h
    · cases h
      exact .ended rfl
    · next id hid =>
      cases h
      exact .foundRestart _ _ hid
  · exact acquire_operated (.lock _ _) h
  · cases h
    exact .crashed _
  · -- wait
    split at h
    · cases h
    rename_i r hr
    split at h
    · cases h
    · next hd =>
      cases h
      exact .woke _ ⟨r, hr, Bool.not_eq_true _ ▸ hd⟩
  · -- under the lock
    split at h
    · cases h
    · next v hv => exact .stepped hv (Phase.step_stepped h)
  · cases h

theorem Enters.advances {p : Operation C} {held gone : Option ℕ}
    (he : Enters p id phase) (hs : Sound checks s) (hp : Assured checks i s p)
    (hv : s.supervisors[id]? = some v) (hfr : v.opMu = none) :
    Advances checks i held gone s
      { shared := s.modify id fun v => { v with opMu := some i }, next := .locked id phase } := by
  obtain ⟨hc, hl⟩ := hs.settled hv hfr
  refine ⟨.acquire hv hfr, { v with opMu := some i }, ?_⟩
  cases he with
  | start =>
    obtain ⟨_, hw⟩ := hp
    obtain rfl := Option.mem_unique hw.sup hv
    exact ⟨modify_self hv, rfl, ⟨hw.anchor, hw.running⟩, hc, fun _ hk => hk.elim, hw.quiet,
      hw.name⟩
  | cleanup | status =>
    exact ⟨modify_self hv, rfl, trivial, hc, fun _ hk => hk.elim, hl, trivial⟩
  | lock =>
    cases phase with
    | checkDelete | checkRestart =>
      exact ⟨modify_self hv, rfl, trivial, hc, fun _ hk => hk.elim, hl, trivial⟩
    | checkCurrent =>
      exact ⟨modify_self hv, rfl, trivial, hc, fun _ hk => hk.elim, hl, hp⟩
    | _ => exact hp.elim

theorem operate_advances {p : Operation C} (hs : Sound checks s) (hp : Assured checks i s p)
    (hst : Operated checks i s p m) : Advances checks i p.holds p.gone s m := by
  cases hst with
  | ended => exact ⟨.same, trivial⟩
  | created _ hpl hn hkey =>
    refine ⟨.register hpl hn hkey, _, register_new, rfl, rfl, rfl,
      AList.lookup_insert _, fun rt key ha => ?_⟩
    obtain ⟨w, hw⟩ := hs.lt_of_alive ha
    exact absurd (lt_of_get hw) (Nat.lt_irrefl _)
  | acquired he hv hfr => exact he.advances hs hp hv hfr
  | discarded hv =>
    obtain ⟨_, hd⟩ := hp
    obtain rfl := Option.mem_unique hd.sup hv
    exact ⟨.remove (.inr rfl) hv hd.anchor hd.running hd.quiet, trivial⟩
  | foundDelete | foundRestart => exact ⟨.same, trivial⟩
  | crashed => exact ⟨.kill _, trivial⟩
  | woke _ hdd => exact ⟨.same, hdd⟩
  | stepped hv hst =>
    obtain ⟨_, hh⟩ := hp
    obtain rfl := Option.mem_unique hh.sup hv
    exact hh.advances hs hst

/-! ### Calls that disturb a creation -/

/-- No delete is let through while the call that created the interface has yet to take its lock,
and no restart reserves a new key while that call is about to remove it. -/
def Undisturbed (s : InterfaceManager C) (p : Operation C) (_ : Decision) (q : Operation C) :
    Prop :=
  match p, q with
  | .locked id (.checkDelete mutation), .start id' =>
    id = id' → ∀ v ∈ s.supervisors[id]?, v.checkMutation mutation = false
  | .locked id (.reserve job), .discard id' => id = id' → job.oldKey = job.newKey
  | _, _ => True

instance decidableUndisturbed (s : InterfaceManager C) (p : Operation C) (c : Decision)
    (q : Operation C) : Decidable (Undisturbed s p c q) := by
  unfold Undisturbed
  split <;> infer_instance

/-- A new interface stays as it was registered until its own call goes on. -/
theorem Hold.start_kept (h : Hold checks i s id phase v)
    (hst : Stepped checks s id v phase m) (hfo : phase.creator = false)
    (hcr : v.lifecycle = .creating) (hrun : v.running = none)
    (hm : ∀ mutation, phase = .checkDelete mutation → v.checkMutation mutation = false) :
    m.shared = s ∨ m.shared = s.modify id fun v => { v with opMu := none } := by
  have hf := h.fits
  have ho : ∀ {l : Lifecycle} {P : Prop}, v.lifecycle = l → l ≠ .creating → P :=
    fun heq hne => absurd (heq.symm.trans hcr) hne
  cases hst with
  | opened | notOpened | started | notStarted | recordedInitial | closedAnchor | clean
  | notClean | stopsCreated => cases hfo
  | deleteRefused => exact .inl rfl
  | deletes hc => cases (hm _ rfl).symm.trans hc
  | restartRefused => exact .inl rfl
  | restarts hl =>
    rw [hcr] at hl
    rcases hl with h | h <;> cases h
  | failedRuntime hcu => cases hrun.symm.trans hcu
  | notCurrent => exact .inl rfl
  | unlocked => exact .inr rfl
  | noRuntime | closedRuntime | notClosed | forgotRuntime | failedRestart =>
    exact ho hf (by decide)
  | _ => exact ho hf.1 (by decide)

theorem Discards.modify (h : Discards s id v) {f : Supervisor C → Supervisor C}
    (ha : (f v).anchor = v.anchor) (hrun : v.running = none → (f v).running = none)
    (hkey : (f v).publicKey = v.publicKey) : Discards (s.modify id f) id (f v) := by
  refine ⟨modify_self h.sup, ha.trans h.anchor, hrun h.running, fun k hk => ?_, h.quiet⟩
  rw [hkey]
  exact h.clean k hk

/-- A change that has reserved two keys is not one of an interface with one key. -/
theorem Discards.same_key (h : Discards s id v) {job : RestartJob C}
    (hp : ∀ k, job.oldKey ≠ job.newKey ∧ (k = job.oldKey ∨ k = job.newKey) →
      s.byPublicKey.lookup k = some id) : job.oldKey = job.newKey := by
  by_contra hne
  have hold := h.clean _ (hp _ ⟨hne, .inl rfl⟩)
  have hn := h.clean _ (hp _ ⟨hne, .inr rfl⟩)
  exact hne (hold.trans hn.symm)

/-- An interface that is about to be removed stays without anchor, runtime and further keys. -/
theorem Hold.discard_kept (h : Hold checks i s id phase v)
    (hst : Stepped checks s id v phase m) (hfo : phase.creator = false) (hd : Discards s id v)
    (hm : ∀ job, phase = .reserve job → job.oldKey = job.newKey) :
    ∃ w, Discards m.shared id w := by
  have hf := h.fits
  have hp := h.pinned
  have hkp : ∀ (l : Lifecycle), Discards (s.modify id fun v => { v with lifecycle := l }) id
      { v with lifecycle := l } := fun l => hd.modify rfl (fun hr => hr) rfl
  have ha : ∀ {P : Prop}, v.anchor = true → P := fun han => by
    cases hd.anchor.symm.trans han
  have hra : ∀ {rt : ℕ} {P : Prop}, v.running = some rt → P := fun hrun => by
    cases hd.running.symm.trans hrun
  cases hst with
  | opened | notOpened | started | notStarted | recordedInitial | closedAnchor | clean
  | notClean | stopsCreated | abandoned => cases hfo
  | deletes | stopFailed | restarts | notReserved | failedRestart | rollsBack => exact ⟨_, hkp _⟩
  | forgotRuntime | forgotOld | notStartedOld => exact ⟨_, hd.modify rfl (fun _ => rfl) rfl⟩
  | unlocked => exact ⟨_, hd.modify rfl (fun hr => hr) rfl⟩
  | closedRuntime _ hrun | closedOld _ hrun | failedRuntime hrun => exact hra hrun
  | committed => exact hra hf.2.2
  | stoppedAnchor _ _ han | startedNext _ han | startedOld _ han => exact ha han
  | recordedNext | recordedOld => exact ha hf.2.2
  | removed =>
    exact ⟨v, hd.sup, hd.anchor, hd.running, fun k hk =>
      absurd rfl (removeSupervisor_keys.mp hk).2, hd.quiet⟩
  | reserved hre =>
    unfold InterfaceManager.reservePublicKeyChange at hre
    rw [if_pos (hm _ rfl)] at hre
    cases hre
    exact ⟨v, hd⟩
  | unreserved | restored =>
    unfold InterfaceManager.restorePublicKeyChange
    rw [if_pos (hd.same_key hp)]
    exact ⟨v, hd⟩
  | _ => exact ⟨v, hd⟩

/-! ### The outline -/

variable {p q : Operation C}

theorem Operation.eq_locked (h : p.holds = some id) : ∃ phase, p = .locked id phase := by
  cases p with
  | locked =>
    cases h
    exact ⟨_, rfl⟩
  | _ => cases h

theorem Operation.eq_discard (h : p.gone = some id) : p = .discard id := by
  cases p with
  | discard =>
    cases h
    rfl
  | _ => cases h

theorem Hold.other (h : Hold checks j s id phase v) (hij : i ≠ j)
    (hp : Assured checks i s p) (hap : p.creates = some id → phase.creator = false)
    (hfr : Frame i p.holds p.gone s m.shared) : ∃ w, Hold checks j m.shared id phase w := by
  have hh : p.holds ≠ some id := by
    intro hh
    obtain ⟨_, rfl⟩ := Operation.eq_locked hh
    obtain ⟨w, hw⟩ := hp
    obtain rfl := Option.mem_unique h.sup hw.sup
    exact hij (Option.mem_unique hw.locked h.locked)
  have hs : m.shared.supervisors[id]? = some v := by
    rcases hfr.sup h.sup hh with hs | ⟨hn, -⟩
    · exact hs
    · cases h.locked.symm.trans hn
  refine ⟨v, hs, h.locked, h.fits, fun k hk => h.keys k (hfr.keys h.sup hh hk),
    fun k hk => ?_, fun rt key ha => h.live rt key (hfr.live hh ha), ?_⟩
  · by_cases hg : p.gone = some id
    · -- An interface that is being removed has one key, so no change is going on.
      obtain rfl := Operation.eq_discard hg
      obtain ⟨_, hd⟩ := hp
      have hpi := h.pinned
      unfold Claim.Pinned at hk hpi
      cases hc : (phase.claim checks).change with
      | none =>
        rw [hc] at hk
        exact hk.elim
      | some =>
        rw [hc] at hk hpi
        exact absurd (hd.same_key hpi) hk.1
    · exact hfr.pinned hh hg (h.pinned k hk)
  · have he := h.extra
    cases phase with
    | openAnchor =>
      refine hfr.names hh (fun hg => ?_) he
      obtain rfl := Operation.eq_discard hg
      cases hap rfl
    | checkCurrent => exact hfr.dead he
    | _ => trivial

/-- The calls that create interfaces are at different ones. -/
def Apart (p q : Operation C) : Prop := ∀ id, p.creates = some id → q.creates ≠ some id

/-- Beside the call that created the interface, the lock is held by another call. -/
theorem Apart.foreign (h : Apart (.locked id phase) q)
    (hq : q.creates = some id) : phase.creator = false := by
  cases hp : phase.creator with
  | false => rfl
  | true =>
    refine absurd hq (h id ?_)
    unfold Operation.creates
    dsimp only
    rw [hp]
    rfl

theorem Operated.under (h : Operated checks i s (.locked id phase) m)
    (hv : s.supervisors[id]? = some v) : Stepped checks s id v phase m := by
  cases h with
  | ended hfr => cases hfr
  | acquired he => cases he
  | stepped hw hst =>
    obtain rfl := Option.mem_unique hv hw
    exact hst

theorem Starts.other {held gone : Option ℕ} {s' : InterfaceManager C} (h : Starts s id v)
    (hfr : Frame i held gone s s') (hh : held ≠ some id) (hg : gone ≠ some id) :
    ∃ w, Starts s' id w := by
  have hn := hfr.names hh hg h.name
  have hqt : s'.Quiet id := fun rt key ha =>
    h.quiet rt key (hfr.live hh ha)
  rcases hfr.sup h.sup hh with hs | ⟨-, hs⟩
  · exact ⟨v, hs, h.lifecycle, h.anchor, h.running, hn, hqt⟩
  · exact ⟨_, hs, h.lifecycle, h.anchor, h.running, hn, hqt⟩

theorem Discards.other {held gone : Option ℕ} {s' : InterfaceManager C} (h : Discards s id v)
    (hfr : Frame i held gone s s') (hh : held ≠ some id) : ∃ w, Discards s' id w := by
  have hc : s'.OnlyKey id v.publicKey :=
    fun k hk => h.clean k (hfr.keys h.sup hh hk)
  have hqt : s'.Quiet id := fun rt key ha =>
    h.quiet rt key (hfr.live hh ha)
  rcases hfr.sup h.sup hh with hs | ⟨-, hs⟩
  · exact ⟨v, hs, h.anchor, h.running, hc, hqt⟩
  · exact ⟨_, hs, h.anchor, h.running, hc, hqt⟩

theorem Assured.other (hij : i ≠ j) (hs : Sound checks s) (hp : Assured checks i s p)
    (hq : Assured checks j s q) (ha : Apart p q) (hm : Undisturbed s p c q)
    (hsp : Operated checks i s p m) : Assured checks j m.shared q := by
  have hfr := (operate_advances hs hp hsp).effect.frame
  have hlen := (operate_advances hs hp hsp).effect.length_le
  cases q with
  | locked =>
    obtain ⟨v, hhd⟩ := hq
    exact hhd.other hij hp (fun hc => Apart.foreign (fun _ h h' => ha _ h' h) hc)
      hfr
  | lock _ phase =>
    cases phase with
    | checkDelete | checkRestart => trivial
    | checkCurrent => exact hfr.dead hq
    | _ => exact hq.elim
  | start id =>
    obtain ⟨v, hst⟩ := hq
    by_cases hh : p.holds = some id
    · obtain ⟨_, rfl⟩ := Operation.eq_locked hh
      obtain ⟨w, hhd⟩ := hp
      obtain rfl := Option.mem_unique hhd.sup hst.sup
      rcases hhd.start_kept (hsp.under hst.sup) (ha.foreign rfl) hst.lifecycle hst.running
        (fun mutation hph => by
          subst hph
          exact hm rfl w hst.sup) with heq | heq
      · rw [heq]
        exact ⟨w, hst⟩
      · rw [heq]
        exact ⟨_, { hst with sup := modify_self hst.sup }⟩
    · refine hst.other hfr hh fun hg => ?_
      obtain rfl := Operation.eq_discard hg
      exact ha id rfl rfl
  | discard id =>
    obtain ⟨v, hd⟩ := hq
    by_cases hh : p.holds = some id
    · obtain ⟨_, rfl⟩ := Operation.eq_locked hh
      obtain ⟨_, hhd⟩ := hp
      obtain rfl := Option.mem_unique hhd.sup hd.sup
      exact hhd.discard_kept (hsp.under hd.sup) (ha.foreign rfl) hd fun job hph => by
        subst hph
        exact hm rfl
    · exact hd.other hfr hh
  | cleanup | status => exact Nat.lt_of_lt_of_le hq hlen
  | _ => trivial

theorem Assured.creates_lt (h : Assured checks i s p) (hc : p.creates = some id) :
    id < s.supervisors.length := by
  cases p with
  | start | discard =>
    cases hc
    obtain ⟨_, hv⟩ := h
    exact lt_of_get hv.sup
  | cleanup | status =>
    cases hc
    exact h
  | locked =>
    obtain ⟨_, hh⟩ := h
    unfold Operation.creates at hc
    dsimp only at hc
    split at hc
    · cases hc
      exact lt_of_get hh.sup
    · cases hc
  | _ => cases hc

def LocksSame (before after : List (Supervisor C)) : Prop :=
  ∀ (id : ℕ) w, after[id]? = some w → ∃ v, before[id]? = some v ∧ w.opMu = v.opMu

theorem LocksSame.refl (l : List (Supervisor C)) : LocksSame l l := fun _ w hw => ⟨w, hw, rfl⟩

theorem LocksSame.modify {f : Supervisor C → Supervisor C} (hf : ∀ v, (f v).opMu = v.opMu)
    (id : ℕ) : LocksSame s.supervisors (s.modify id f).supervisors := by
  intro id' w hw
  by_cases hid : id' = id
  · subst hid
    cases hv : s.supervisors[id']? with
    | none =>
      have hn : (s.modify id' f).supervisors[id']? = none := by
        show (s.supervisors.modify id' f)[id']? = none
        rw [getElem?_modify_eq, hv]
        rfl
      cases hn.symm.trans hw
    | some v =>
      obtain rfl := Option.mem_unique (modify_self hv) hw
      exact ⟨v, rfl, hf v⟩
  · rw [modify_ne hid] at hw
    exact ⟨w, hw, rfl⟩

/-- A step under the lock goes on under it and leaves every lock as it is, or releases it. -/
theorem Stepped.lock (hst : Stepped checks s id v phase m) :
    (∃ phase', m.next = .locked id phase' ∧ (phase'.creator = true → phase.creator = true) ∧
      LocksSame s.supervisors m.shared.supervisors) ∨
    ∃ next, phase = .unlock next ∧ m.next = next.place id ∧
      m.shared = s.modify id fun v => { v with opMu := none } := by
  have heq := LocksSame.refl s.supervisors
  have hm : ∀ {f : Supervisor C → Supervisor C}, (∀ v, (f v).opMu = v.opMu) →
      LocksSame s.supervisors (s.modify id f).supervisors := fun hf => .modify hf id
  cases hst with
  | unlocked next => exact .inr ⟨next, rfl, rfl, rfl⟩
  | opened | recordedInitial | closedAnchor | stopsCreated =>
    exact .inl ⟨_, rfl, fun _ => rfl, hm fun _ => rfl⟩
  | deletes => exact .inl ⟨_, rfl, fun h => h, hm fun _ => rfl⟩
  | forgotRuntime stopper | stoppedAnchor stopper =>
    exact .inl ⟨_, rfl, by cases stopper <;> exact fun h => h, hm fun _ => rfl⟩
  | stopFailed => exact .inl ⟨_, rfl, nofun, hm fun _ => rfl⟩
  | restarts | notReserved | forgotOld | failedRestart | recordedNext | rollsBack
  | notStartedOld | recordedOld | failedRuntime =>
    exact .inl ⟨_, rfl, fun h => h, hm fun _ => rfl⟩
  | noRuntime stopper | closedRuntime stopper | notClosed stopper | noAnchor stopper
  | notStopped stopper =>
    exact .inl ⟨_, rfl, by cases stopper <;> exact fun h => h, heq⟩
  | notOpened | started | notStarted | clean | notClean | abandoned =>
    exact .inl ⟨_, rfl, fun _ => rfl, heq⟩
  | reserved hr =>
    refine .inl ⟨_, rfl, fun h => h, ?_⟩
    rw [reservePublicKeyChange_supervisors hr]
    exact heq
  | committed =>
    refine .inl ⟨_, rfl, fun h => h, ?_⟩
    rw [commitPublicKeyChange_supervisors]
    exact heq
  | unreserved | restored =>
    refine .inl ⟨_, rfl, fun h => h, ?_⟩
    rw [restorePublicKeyChange_supervisors]
    exact heq
  | _ => exact .inl ⟨_, rfl, fun h => h, heq⟩

theorem Phase.Begins.foreign (h : phase.Begins s) : phase.creator = false := by
  cases phase <;> first | rfl | exact h.elim

theorem After.place_creates {next : After} (h : (next.place id : Operation C).creates = some j) :
    (Operation.locked id (.unlock next) : Operation C).creates = some j := by
  cases next <;> cases h <;> rfl

theorem Enters.creates {p : Operation C} (he : Enters p id phase)
    (hp : Assured checks i s p) (h : (Operation.locked id phase).creates = some j) :
    p.creates = some j := by
  cases he with
  | lock =>
    -- An operation on a looked-up interface is not the one that created it.
    unfold Operation.creates at h
    dsimp only at h
    rw [Phase.Begins.foreign hp] at h
    cases h
  | _ => exact h

/-- A step keeps the interface that the call creates, or registers a new one. -/
theorem operate_creates (hp : Assured checks i s p) (hst : Operated checks i s p m)
    (h : m.next.creates = some id) : p.creates = some id ∨ id = s.supervisors.length := by
  cases hst with
  | ended => cases h
  | created => exact .inr (Option.some.inj h).symm
  | acquired he => exact .inl (he.creates hp h)
  | discarded | foundDelete | foundRestart | crashed | woke => cases h
  | stepped hv hst =>
    rcases hst.lock with ⟨_, hnx, hc, -⟩ | ⟨next, rfl, hnx, -⟩
    · rw [hnx] at h
      unfold Operation.creates at h ⊢
      dsimp only at h ⊢
      split at h
      · next hph =>
        rw [hc hph]
        exact .inl h
      · cases h
    · rw [hnx] at h
      exact .inl (After.place_creates h)

/-- The only threads that an operation starts wait for a runtime. -/
theorem operate_spawned (hst : Operated checks i s p m) (hq : q ∈ m.spawned) :
    ∃ id rt, q = .wait id rt := by
  cases hst with
  | stepped _ hst =>
    cases hst with
    | recordedInitial | committed | recordedOld => exact ⟨_, _, mem_singleton.mp hq⟩
    | _ => cases hq
  | _ => cases hq

/-- The calls of a client, and runtimes that stop by themselves. -/
def Operation.Begins : Operation C → Prop
  | .create _ _ => True
  | .lookupDelete _ _ => True
  | .lookupRestart _ _ _ => True
  | .crash _ => True
  | _ => False

instance decidableOperationBegins : DecidablePred (Operation.Begins : Operation C → Prop)
  | .create _ _ | .lookupDelete _ _ | .lookupRestart _ _ _ | .crash _ => isTrue trivial
  | .wait _ _ | .lock _ _ | .start _ | .cleanup _ | .discard _ | .status _ | .locked _ _
  | .finished => isFalse fun h => h

theorem Operation.Begins.assured (h : p.Begins) : Assured checks i s p := by
  cases p <;> trivial

theorem Operation.Begins.creates (h : p.Begins) : p.creates = none := by
  cases p <;> first | rfl | exact h.elim

def ownershipOutline (checks : Checks C) :
    Outline (operate checks) Operation.Begins Undisturbed where
  shared := Sound checks
  own := Assured checks
  apart := Apart
  symm h id hq hp := h id hp hq
  entry_own h := h.assured
  entry_apart h id hp := by
    rw [h.creates] at hp
    cases hp
  step_shared hs hp hstep := (operate_advances hs hp (operate_operated hstep)).effect.sound hs
  step_own hs hp hstep := (operate_advances hs hp (operate_operated hstep)).next
  step_other hs hp hq hij hapart hmay hstep :=
    Assured.other hij hs hp hq hapart hmay (operate_operated hstep)
  step_apart _ hp hq _ hapart _ hstep id hnext hcreates := by
    rcases operate_creates hp (operate_operated hstep) hnext with hsame | rfl
    · exact hapart id hsame hcreates
    · exact Nat.lt_irrefl _ (hq.creates_lt hcreates)
  spawned_own _ _ hstep hmem := by
    obtain ⟨id, _, rfl⟩ := operate_spawned (operate_operated hstep) hmem
    trivial
  spawned_apart hstep hmem id hcreates := by
    obtain ⟨_, _, rfl⟩ := operate_spawned (operate_operated hstep) hmem
    cases hcreates

/-! ### Locks and their holders -/

/-- A lock that is held after a step was taken by it, or was held before. -/
theorem Operated.locks {k : ℕ} {w : Supervisor C} (h : Operated checks i s p m)
    (hw : m.shared.supervisors[id]? = some w) (hh : w.opMu = some k) :
    (k = i ∧ ∃ phase, m.next = .locked id phase) ∨
      ∃ v, s.supervisors[id]? = some v ∧ v.opMu = some k ∧
        (p.holds = some id → ∃ phase, m.next = .locked id phase) := by
  cases h with
  | ended hp => exact .inr ⟨w, hw, hh, fun hid => (by cases hp.symm.trans hid)⟩
  | created =>
    rcases register_cases hw with hw | ⟨-, rfl⟩
    · exact .inr ⟨w, hw, hh, nofun⟩
    · cases hh
  | @acquired _ id' phase _ he hv =>
    by_cases hid : id = id'
    · subst hid
      obtain rfl := Option.mem_unique (modify_self hv) hw
      exact .inl ⟨(Option.some.inj hh).symm, phase, rfl⟩
    · rw [modify_ne hid] at hw
      refine .inr ⟨w, hw, hh, fun hp => ?_⟩
      cases he <;> cases hp
  | discarded | foundDelete | foundRestart | crashed | woke => exact .inr ⟨w, hw, hh, nofun⟩
  | @stepped id' _ _ _ hv hst =>
    rcases hst.lock with ⟨phase', hnx, -, heq⟩ | ⟨_, -, -, hs⟩
    · obtain ⟨u, hu, hopMu⟩ := heq id w hw
      refine .inr ⟨u, hu, hopMu ▸ hh, fun hid => ?_⟩
      obtain rfl := Option.some.inj hid
      exact ⟨phase', hnx⟩
    · rw [hs] at hw
      by_cases hid : id = id'
      · subst hid
        obtain rfl := Option.mem_unique (modify_self hv) hw
        cases hh
      · rw [modify_ne hid] at hw
        exact .inr ⟨w, hw, hh, fun hp => absurd (Option.some.inj hp).symm hid⟩

/-- Every lock that is held is held by the operation it names. -/
def LocksHeld (s : Pool (InterfaceManager C) (Operation C)) : Prop :=
  ∀ {id k : ℕ} {v}, s.shared.supervisors[id]? = some v → v.opMu = some k →
    ∃ phase, s.threads[k]? = some (.locked id phase)

theorem LocksHeld.step {s s' : Pool (InterfaceManager C) (Operation C)}
    {t : Turn (Operation C) Decision} (h : LocksHeld s)
    (hst : s.step (operate checks) t = some s') : LocksHeld s' := by
  intro id k w hw hh
  cases t with
  | spawn =>
    cases hst
    obtain ⟨phase, hk⟩ := h hw hh
    have hlt := lt_of_get hk
    exact ⟨phase, (getElem?_append_left hlt).trans hk⟩
  | act i c =>
    obtain ⟨_, m, hp, hm, hsh, ht⟩ := Pool.step_act hst
    have hlt := lt_of_get hp
    have hs : s'.threads[i]? = some m.next := by
      rw [ht, getElem?_append_left (by rw [length_set]; exact hlt)]
      exact getElem?_set_self hlt
    rw [hsh] at hw
    rcases (operate_operated hm).locks hw hh with ⟨rfl, phase, hnx⟩ | ⟨_, hv, hopMu, hkp⟩
    · exact ⟨phase, hs.trans (congrArg some hnx)⟩
    obtain ⟨phase, hk⟩ := h hv hopMu
    by_cases hki : k = i
    · subst hki
      obtain rfl := Option.mem_unique hp hk
      obtain ⟨phase', hnx⟩ := hkp rfl
      exact ⟨phase', hs.trans (congrArg some hnx)⟩
    · refine ⟨phase, ?_⟩
      have hkl := lt_of_get hk
      rw [ht, getElem?_append_left (by rw [length_set]; exact hkl),
        getElem?_set_ne (Ne.symm hki)]
      exact hk

/-! ### Ownership of public keys -/

/-- The operation has ended, or it waits for a runtime to stop. -/
def Operation.Rests : Operation C → Prop
  | .finished => True
  | .wait _ _ => True
  | _ => False

instance decidableRests : DecidablePred (Operation.Rests : Operation C → Prop)
  | .finished | .wait _ _ => isTrue trivial
  | .create _ _ | .lookupDelete _ _ | .lookupRestart _ _ _ | .crash _ | .lock _ _ | .start _
  | .cleanup _ | .discard _ | .status _ | .locked _ _ => isFalse fun h => h

def Idle (s : Pool (InterfaceManager C) (Operation C)) : Prop := ∀ p ∈ s.threads, p.Rests

structure KeyOwnership (s : Pool (InterfaceManager C) (Operation C)) : Prop where
  registered : ∀ {rt id key}, s.shared.Alive rt id key → ∃ v,
    s.shared.supervisors[id]? = some v ∧ s.shared.interfaces.lookup v.name = some id ∧
      s.shared.byPublicKey.lookup key = some id ∧
      s.shared.byPublicKey.lookup v.publicKey = some id ∧
      (v.opMu = none → v.running = some rt ∧ key = v.publicKey)
  exclusive : ∀ {rt rt' id id' key}, s.shared.Alive rt id key → s.shared.Alive rt' id' key →
    rt = rt'
  reserved : Idle s → ∀ key, (∃ id, s.shared.byPublicKey.lookup key = some id) ↔
    ∃ n id v, s.shared.interfaces.lookup n = some id ∧ s.shared.supervisors[id]? = some v ∧
      v.publicKey = key

theorem InterfaceManager.Sound.keyOwnership {s : Pool (InterfaceManager C) (Operation C)}
    (h : Sound checks s.shared) (hl : LocksHeld s) : KeyOwnership s where
  registered ha := by
    obtain ⟨hkey, hrun⟩ := h.live ha
    obtain ⟨v, hv, hn, hc⟩ := h.keys hkey
    exact ⟨v, hv, hn, hkey, h.own hv hn, fun hfr => ⟨hrun v hv hfr, hc hfr⟩⟩
  exclusive ha ha' := by
    obtain rfl := Option.mem_unique (h.live ha).1 (h.live ha').1
    exact h.single ha ha'
  reserved hid key := by
    constructor
    · rintro ⟨id, hkey⟩
      obtain ⟨v, hv, hn, hc⟩ := h.keys hkey
      refine ⟨v.name, id, v, hn, hv, (hc ?_).symm⟩
      cases hopMu : v.opMu with
      | none => rfl
      | some =>
        obtain ⟨_, hk⟩ := hl hv hopMu
        exact (hid _ (mem_of_getElem? hk)).elim
    · rintro ⟨_, id, _, hn, hv, rfl⟩
      obtain ⟨_, hw, -, hkey⟩ := h.names hn
      obtain rfl := Option.mem_unique hv hw
      exact ⟨id, hkey⟩

theorem InterfaceManager.Sound.init (max : ℕ) :
    Sound checks ({ max := max } : InterfaceManager C) where
  names hn := by cases hn
  keys hk := by cases hk
  busy hv := by cases hv
  live h := by cases h
  single h := by cases h
  plan hv := by cases hv

/-- After every interleaving in which nothing disturbs a creation, the runtimes own their keys. -/
theorem run_keyOwnership {max : ℕ} {turns : List (Turn (Operation C) Decision)}
    {s : Pool (InterfaceManager C) (Operation C)}
    (hadmits : Pool.AdmitsRun (operate checks) Operation.Begins Undisturbed ⟨{ max := max }, []⟩
      turns)
    (hrun : Pool.run (operate checks) ⟨{ max := max }, []⟩ turns = some s) : KeyOwnership s := by
  have hinit : Sound checks ({ max := max } : InterfaceManager C) := Sound.init max
  have hhol := Outline.Holds.run (O := ownershipOutline checks) (.init hinit) hadmits hrun
  refine hhol.shared.keyOwnership ?_
  exact Pool.run_keeps (I := LocksHeld) Operation.Begins Undisturbed
    (fun _ _ _ _ hstep h => h.step hstep) hadmits hrun fun hv => by cases hv

/-- A configuration is its key here, and every check passes. -/
def sampleChecks : Checks PublicKey where
  validate _ := true
  preparePeers := some
  validName _ := true

/-- The call at `i` goes on without a decision of the environment. -/
abbrev go (i : ℕ) : Turn (Operation PublicKey) Decision := .act i .go

abbrev succeeds (i : ℕ) : Turn (Operation PublicKey) Decision := .act i (.result true)

abbrev fails (i : ℕ) : Turn (Operation PublicKey) Decision := .act i (.result false)

/-- The call at `i` takes the lock of its new interface, starts it and reads its status. -/
def completes (i : ℕ) : List (Turn (Operation PublicKey) Decision) :=
  [go i, succeeds i, succeeds i, go i, go i, succeeds i]

/-- An interface changes its key while a second one is created, and then the second is deleted. -/
def keyChangeTurns : List (Turn (Operation PublicKey) Decision) :=
  [.spawn (.create "a" 5), .act 0 (.instanceID 1)] ++ completes 0 ++
  [.spawn (.lookupRestart ⟨"a", none⟩ ⟨1, 0⟩ ⟨"a", fun _ => some 6⟩), go 2, go 2, go 2, go 2,
    .spawn (.create "b" 7), .act 3 (.instanceID 2), succeeds 2, go 2, succeeds 2] ++
  completes 3 ++ [go 2, go 2, go 2] ++
  [.spawn (.lookupDelete ⟨"b", none⟩ ⟨2, 0⟩), go 6, go 6, go 6, succeeds 6, go 6, succeeds 6, go 6,
    go 6, go 6]

theorem run_keyOwnership_sample : ∃ s,
    Pool.run (operate sampleChecks) ⟨{ max := 2 }, []⟩ keyChangeTurns = some s ∧ KeyOwnership s ∧
      Idle s ∧ s.shared.Alive 1 0 6 ∧ s.shared.byPublicKey.lookup 5 = none := by
  have hsome : (Pool.run (operate sampleChecks) ⟨{ max := 2 }, []⟩ keyChangeTurns).any (fun s =>
      decide ((∀ p ∈ s.threads, p.Rests) ∧ s.shared.runtimes[1]? = some ⟨0, 6, true⟩ ∧
        s.shared.byPublicKey.lookup 5 = none)) = true := by decide +kernel
  obtain ⟨s, hrun, hs⟩ := (Option.any_eq_true _ _).mp hsome
  obtain ⟨hidle, hali, hfree⟩ := of_decide_eq_true hs
  have hadm : Pool.AdmitsRun (operate sampleChecks) Operation.Begins Undisturbed
      ⟨{ max := 2 }, []⟩ keyChangeTurns := by decide +kernel
  exact ⟨s, hrun, run_keyOwnership hadm hrun, hidle, hali, hfree⟩

/-- A delete overtakes the call that has registered the interface: it finds nothing to stop and
removes the interface, which that call then starts. -/
def overtaken : List (Turn (Operation PublicKey) Decision) :=
  [.spawn (.create "a" 5), .act 0 (.instanceID 1),
    .spawn (.lookupDelete ⟨"a", none⟩ ⟨1, 0⟩), go 1, go 1, go 1, succeeds 1, succeeds 1, go 1,
    go 1, go 1] ++ completes 0 ++
  [.spawn (.create "b" 5), .act 3 (.instanceID 2)] ++ completes 3

/-- The start of a new interface fails. Before its call removes it, a restart reserves another
key, and the rollback reserves the first key again for the interface that is gone. -/
def restartedAfterFailure : List (Turn (Operation PublicKey) Decision) :=
  [.spawn (.create "a" 5), .act 0 (.instanceID 1), go 0, succeeds 0, fails 0, succeeds 0, go 0,
    go 0, go 0, go 0,
    .spawn (.lookupRestart ⟨"a", none⟩ ⟨1, 0⟩ ⟨"a", fun _ => some 6⟩), go 1, go 1, go 1, go 1,
    go 0, succeeds 1, succeeds 1, go 1, go 1, succeeds 1, go 1]

/-- Two runtimes run with one key, the first of them not registered; and a key stays reserved when
no interface is left. -/
theorem keyOwnership_fails :
    (∃ s, Pool.AdmitsRun (operate sampleChecks) Operation.Begins (fun _ _ _ _ => True)
        ⟨{ max := 2 }, []⟩ overtaken ∧
      Pool.run (operate sampleChecks) ⟨{ max := 2 }, []⟩ overtaken = some s ∧
      s.shared.interfaces.lookup "a" = none ∧ s.shared.Alive 0 0 5 ∧ s.shared.Alive 1 1 5) ∧
    ∃ s, Pool.AdmitsRun (operate sampleChecks) Operation.Begins (fun _ _ _ _ => True)
        ⟨{ max := 2 }, []⟩ restartedAfterFailure ∧
      Pool.run (operate sampleChecks) ⟨{ max := 2 }, []⟩ restartedAfterFailure = some s ∧
      Idle s ∧ s.shared.interfaces.keys = [] ∧ s.shared.byPublicKey.lookup 5 = some 0 := by
  constructor
  · have hsome : (Pool.run (operate sampleChecks) ⟨{ max := 2 }, []⟩ overtaken).any (fun s =>
        decide (s.shared.interfaces.lookup "a" = none ∧ s.shared.runtimes[0]? = some ⟨0, 5, true⟩ ∧
          s.shared.runtimes[1]? = some ⟨1, 5, true⟩)) = true := by decide +kernel
    obtain ⟨s, hrun, hs⟩ := (Option.any_eq_true _ _).mp hsome
    obtain ⟨hname, hfst, hsec⟩ := of_decide_eq_true hs
    exact ⟨s, by decide +kernel, hrun, hname, hfst, hsec⟩
  · have hsome : (Pool.run (operate sampleChecks) ⟨{ max := 2 }, []⟩ restartedAfterFailure).any
        (fun s => decide ((∀ p ∈ s.threads, p.Rests) ∧ s.shared.interfaces.keys = [] ∧
          s.shared.byPublicKey.lookup 5 = some 0)) = true := by decide +kernel
    obtain ⟨s, hrun, hs⟩ := (Option.any_eq_true _ _).mp hsome
    obtain ⟨hidle, hnam, hkey⟩ := of_decide_eq_true hs
    exact ⟨s, by decide +kernel, hrun, hidle, hnam, hkey⟩

end WgFrag.Manager
