import WgFrag.Control.Retirement
import Mathlib.Order.Monotone.Defs

/-! Epochs and sessions that were replaced are not used again while they are retired, whatever
calls are made, and full tables refuse more. -/
namespace WgFrag.Control
open WgFrag.Wire
namespace State
variable {s t : State}

/-! ### Runs -/

structure Tabled (s : State) : Prop where
  epochs : s.retiredEpochs.Wf
  remote : s.retiredSessions.Wf
  own : s.localRetiredSessions.Wf
  fresh : s.remoteEpoch = 0 → s.retiredEpochs.entries = []
  limits : s.retiredEpochs.limit = maxRetiredEpochEntries ∧
    s.retiredSessions.limit = maxRetiredSessionEntries ∧
    s.localRetiredSessions.limit = maxRetiredSessionEntries

theorem call_moves (h : Tabled s) (c : StateCall) : Moves s (s.call c) := by
  cases c with
  | beginLocalExchange => exact s.beginLocalExchange_outcome.moves h.own
  | restartLocalExchange => exact restartLocalExchange_moves h.own
  | isRemoteEpochRetired epoch => exact isRemoteEpochRetired_moves epoch
  | observeCapabilitiesHello control =>
    exact (s.observeCapabilitiesHello_outcome control).moves h.epochs h.remote h.fresh
  | observeResetSequence control => exact (s.observeResetSequence_outcome control).moves h.remote
  | _ => exact (call_untouched rfl).moves

theorem Moves.tabled (hm : Moves s t) (h : Tabled s) : Tabled t := by
  refine ⟨hm.epoch.wf h.epochs, hm.remote.wf h.remote, hm.own.wf h.own, fun hz => ?_,
    (hm.epoch.limit h.epochs).trans h.limits.1, (hm.remote.limit h.remote).trans h.limits.2.1,
    (hm.own.limit h.own).trans h.limits.2.2⟩
  have he := h.fresh (hm.known hz)
  have hp : (s.retiredEpochs.prune t.lastRead).entries = [] := by
    have hpm := (h.epochs.prune t.lastRead).2.perm
    rw [he] at hpm
    exact hpm.eq_nil
  have hst := hm.epoch
  cases ht : t.epochIdentifier with
  | mk _ retired =>
    have hr : t.retiredEpochs = retired := congrArg Identifier.retired ht
    rw [ht] at hst
    rw [hr]
    cases hst with
    | keep => exact he
    | prune | adopt => exact hp
    | replace hne => exact absurd (hm.known hz) hne

/-- The time of a call is the last reading of the clock that it makes. -/
def timeOf (s : State) (c : StateCall) : Time := (s.call c).lastRead

theorem Moves.lastRead_le (hm : Moves s t) (hc : Monotone s.config.clock) :
    s.lastRead ≤ t.lastRead := by
  unfold lastRead
  rw [hm.config]
  exact hc (Nat.sub_le_sub_right hm.reads 1)

/-- A property of the identifiers that holds until a deadline holds along a run until then. -/
theorem runCalls_until {I : State → Prop} {w : Time}
    (hst : ∀ {s t}, Tabled s → Moves s t → I s → I t ∨ w ≤ t.lastRead) (h : Tabled s)
    (hc : Monotone s.config.clock) (hI : I s ∨ w ≤ s.lastRead) (calls : List StateCall) :
    Tabled (s.runCalls calls) ∧ (I (s.runCalls calls) ∨ w ≤ (s.runCalls calls).lastRead) := by
  induction calls generalizing s with
  | nil => exact ⟨h, hI⟩
  | cons c _ ih =>
    have hm := call_moves h c
    refine ih (hm.tabled h) (hm.config ▸ hc) ?_
    rcases hI with hI | hw
    · exact hst h hm hI
    · exact .inr (hw.trans (hm.lastRead_le hc))

theorem runCalls_tabled (h : Tabled s) (calls : List StateCall) : Tabled (s.runCalls calls) := by
  induction calls generalizing s with
  | nil => exact h
  | cons c _ ih => exact ih ((call_moves h c).tabled h)

theorem runCalls_config (h : Tabled s) (calls : List StateCall) :
    (s.runCalls calls).config = s.config := by
  induction calls generalizing s with
  | nil => rfl
  | cons c _ ih => exact (ih ((call_moves h c).tabled h)).trans (call_moves h c).config

theorem runCalls_append (calls : List StateCall) (d : StateCall) :
    s.runCalls (calls ++ [d]) = (s.runCalls calls).call d := by
  induction calls generalizing s with
  | nil => rfl
  | cons _ _ ih => exact ih

/-- An identifier that a call replaces is not in use again before its time is over. -/
theorem replaced_window {K : Type} [DecidableEq K] [Zero K] (slot : State → Identifier K)
    (life : State → Time) (hsl : ∀ {s t}, Moves s t → (slot s).Step t.lastRead (life s) (slot t))
    (hwf : ∀ {s}, Tabled s → (slot s).retired.Wf) (h : Tabled s)
    (hc : Monotone s.config.clock) {c : StateCall} (hu : (slot s).current ≠ 0)
    (hl : (slot (s.call c)).current ≠ (slot s).current) (after : List StateCall) (d : StateCall)
    (hb : (slot (((s.call c).runCalls after).call d)).current = (slot s).current) :
    s.timeOf c + life s ≤ ((s.call c).runCalls after).timeOf d := by
  have hm := call_moves h c
  have hba := (hsl hm).bars (hwf h) hu hl
  have hrun := runCalls_until
    (I := fun s' => (slot s').Barred (slot s).current (s.timeOf c + life s))
    (fun hs hm hI => hI.step hu (hwf hs) (hsl hm)) (hm.tabled h) (hm.config ▸ hc)
    (.inl hba) (after ++ [d])
  rw [runCalls_append] at hrun
  rcases hrun.2 with hba | hw
  · exact absurd hb hba.unused
  · exact hw

/-! ### Windows -/

def begun (s : State) : StateCall → Option LocalExchange
  | .beginLocalExchange => s.beginLocalExchange.1.toOption
  | .restartLocalExchange => s.restartLocalExchange.1.toOption
  | _ => none

/-- What a call replaces or clears is not taken again by a later call before its window is
over. -/
structure Windows (s : State) (c : StateCall) (u : State) (d : StateCall) : Prop where
  epoch : s.remoteEpoch ≠ 0 → (s.call c).remoteEpoch ≠ s.remoteEpoch → ∀ control,
    d = .observeCapabilitiesHello control →
    (u.observeCapabilitiesHello control).1.result = .accepted →
    control.controlEpoch = s.remoteEpoch → s.timeOf c + 4 * minute ≤ u.timeOf d
  remote : s.remoteSessionID ≠ 0 → (s.call c).remoteSessionID ≠ s.remoteSessionID → ∀ control,
    d = .observeResetSequence control → (u.observeResetSequence control).1.result = .accepted →
    (u.observeResetSequence control).1.dataSessionID = s.remoteSessionID →
    s.timeOf c + lifetime s.config.reassemblyLifetimeMs ≤ u.timeOf d
  own : s.localSessionID ≠ 0 → (s.call c).localSessionID ≠ s.localSessionID → ∀ exchange,
    u.begun d = some exchange → exchange.dataSessionID = s.localSessionID →
    s.timeOf c + max (lifetime s.config.reassemblyLifetimeMs)
      (lifetime s.remoteReassemblyLifetimeMs) ≤ u.timeOf d

theorem HelloOutcome.installed {m : Control} {out : CapabilityDecision × State}
    (h : HelloOutcome s m out) (hok : out.1.result = .accepted) :
    out.2.remoteEpoch = m.controlEpoch := by
  cases h with
  | invalid hno => exact absurd hok hno
  | refused => cases hok
  | accepted => rfl

theorem ResetOutcome.installed {m : Control} {out : ResetDecision × State}
    (h : ResetOutcome s m out) (hok : out.1.result = .accepted) :
    out.2.remoteSessionID = out.1.dataSessionID := by
  cases h with
  | invalid | collision => cases hok
  | accepted => rfl

structure Begins (s t : State) (x : LocalExchange) : Prop where
  session : t.localSessionID = x.dataSessionID
  nonzero : x.dataSessionID ≠ 0
  changed : x.dataSessionID ≠ s.localSessionID
  room : s.localSessionID ≠ 0 →
    (s.localRetiredSessions.prune t.lastRead).contains s.localSessionID = true ∨
      (s.localRetiredSessions.prune t.lastRead).full = false

theorem BeginOutcome.begins {x : LocalExchange} {t : State} (h : BeginOutcome s (.ok x, t)) :
    Begins s t x := by
  cases h with
  | begun hx hne _ hrm => exact ⟨rfl, hx.session_ne, hne, hrm⟩

theorem begun_begins {c : StateCall} {x : LocalExchange}
    (hx : s.begun c = some x) : Begins s (s.call c) x := by
  cases c with
  | beginLocalExchange =>
    have ho := s.beginLocalExchange_outcome
    show Begins s s.beginLocalExchange.2 x
    unfold begun at hx
    rcases hbe : s.beginLocalExchange with ⟨_ | y, t⟩
    · rw [hbe] at hx
      cases hx
    · rw [hbe] at hx ho
      obtain rfl : y = x := Option.some.inj hx
      exact ho.begins
  | restartLocalExchange =>
    have ho := s.now.2.beginLocalExchange_outcome
    show Begins s s.restartLocalExchange.2 x
    unfold begun at hx
    rcases s.restartLocalExchange_outcome with
      ⟨err, he, -⟩ | ⟨err, he, -⟩ | ⟨y, t, hy, heq, hu, hr⟩
    · rw [he] at hx
      cases hx
    · rw [he] at hx
      cases hx
    rw [hy] at hx
    obtain rfl : y = x := Option.some.inj hx
    rw [heq] at ho
    have hl : s.restartLocalExchange.2.lastRead = t.lastRead := by
      unfold lastRead
      rw [hu.config, hr]
    have hb := ho.begins
    exact ⟨(congrArg Identifier.current hu.own).trans hb.session, hb.nonzero, hb.changed,
      by rw [hl]; exact hb.room⟩
  | _ => cases hx

private theorem lifetime_le {a b : UInt32} (h : a ≤ b) : lifetime a ≤ lifetime b := by
  have hle : (a.toNat : ℤ) ≤ b.toNat := Int.ofNat_le.mpr (UInt32.le_iff_toNat_le.mp h)
  exact Int.mul_le_mul_of_nonneg_right hle (by decide)

private theorem localSessionLifetime_eq (s : State) : s.localSessionLifetime =
    max (lifetime s.config.reassemblyLifetimeMs) (lifetime s.remoteReassemblyLifetimeMs) := by
  unfold localSessionLifetime
  split
  · next hlt => exact (max_eq_right (lifetime_le (UInt32.le_of_lt hlt))).symm
  · next hle => exact (max_eq_left (lifetime_le (UInt32.not_lt.mp hle))).symm

theorem windows (h : Tabled s) (hc : Monotone s.config.clock) (c : StateCall)
    (after : List StateCall) (d : StateCall) : Windows s c ((s.call c).runCalls after) d := by
  have hu := runCalls_tabled ((call_moves h c).tabled h) after
  refine ⟨?_, ?_, ?_⟩
  · rintro hus hl control rfl hok heq
    have hb := (observeCapabilitiesHello_outcome _ control).installed hok
    exact replaced_window epochIdentifier (fun _ => retiredEpochLifetime) (fun hm => hm.epoch)
      (fun hs => hs.epochs) h hc hus hl after _ (hb.trans heq)
  · rintro hus hl control rfl hok heq
    have hb := (observeResetSequence_outcome _ control).installed hok
    exact replaced_window remoteIdentifier (fun s => lifetime s.config.reassemblyLifetimeMs)
      (fun hm => hm.remote) (fun hs => hs.remote) h hc hus hl after _ (hb.trans heq)
  · intro hus hl exchange hx heq
    have hb := (begun_begins hx).session
    rw [← localSessionLifetime_eq]
    exact replaced_window localIdentifier localSessionLifetime (fun hm => hm.own)
      (fun hs => hs.own) h hc hus hl after d (hb.trans heq)

/-! ### Full tables and refusals -/

/-- The unexpired entries fill the table, and none of them is for the key. -/
structure Full {K : Type} (now : Time) (table : ExpirySet K) (k : K) : Prop where
  absent : ∀ u, table.Holds k u → u ≤ now
  entries : table.limit ≤ (table.entries.filter fun e => decide (now < e.expires)).length

theorem Full.no_room {K : Type} [DecidableEq K] {now : Time} {table : ExpirySet K} {k : K}
    (h : Full now table k) (hwf : table.Wf) :
    ¬ ((table.prune now).contains k = true ∨ (table.prune now).full = false) := by
  have hp := hwf.prune now
  rintro (hc | hrm)
  · obtain ⟨u, hu⟩ := (ExpirySet.contains_iff hp.1.indexed).mp hc
    obtain ⟨hh, hl⟩ := hp.2.holds_iff.mp hu
    exact absurd (h.absent u hh) (not_le.mpr hl)
  · unfold ExpirySet.full at hrm
    rw [decide_eq_false_iff_not, hp.2.limit, hp.2.perm.length_eq] at hrm
    exact hrm h.entries

/-- Nothing is changed but that clock and entropy may be read and tables pruned. -/
def OnlyPruned (s t : State) : Prop :=
  ∃ reads draws epochs remote own, t = { s with
      clockReads := reads, entropyReads := draws, retiredEpochs := epochs
      retiredSessions := remote, localRetiredSessions := own } ∧
    (epochs = s.retiredEpochs ∨ ExpirySet.Pruned s.nextRead s.retiredEpochs epochs) ∧
    (remote = s.retiredSessions ∨ ExpirySet.Pruned s.nextRead s.retiredSessions remote) ∧
    (own = s.localRetiredSessions ∨ ExpirySet.Pruned s.nextRead s.localRetiredSessions own)

theorem Tabled.onlyPruned (h : Tabled s) (draws : ℕ) : OnlyPruned s (s.pruned.drew draws) :=
  ⟨_, _, _, _, _, rfl, .inr (h.epochs.prune _).2, .inr (h.remote.prune _).2, .inr (h.own.prune _).2⟩

theorem beginLocalExchange_refused (h : Tabled s) {err : StateError}
    (he : s.beginLocalExchange.1 = .error err) : OnlyPruned s s.beginLocalExchange.2 := by
  have ho := s.beginLocalExchange_outcome
  rcases hb : s.beginLocalExchange with ⟨_, _⟩
  rw [hb] at ho he
  cases ho with
  | backoff => exact ⟨_, _, _, _, _, rfl, .inl rfl, .inl rfl, .inl rfl⟩
  | refused hr =>
    rw [hr h.own]
    exact h.onlyPruned _
  | begun => cases he

theorem observeCapabilitiesHello_refused (h : Tabled s) {control : Control}
    (hno : (s.observeCapabilitiesHello control).1.result ≠ .accepted) :
    OnlyPruned s (s.observeCapabilitiesHello control).2 := by
  have ho := s.observeCapabilitiesHello_outcome control
  rcases hb : s.observeCapabilitiesHello control with ⟨_, _⟩
  rw [hb] at ho hno
  cases ho with
  | invalid => exact ⟨_, _, _, _, _, rfl, .inl rfl, .inl rfl, .inl rfl⟩
  | refused hr =>
    obtain ⟨rfl, rfl⟩ := hr h.epochs h.remote
    exact h.onlyPruned s.entropyReads
  | accepted _ _ _ hok => exact absurd hok hno

/-- The tables never give up an unexpired entry, and what would need one more is refused. -/
structure Careful (s : State) : Prop where
  limits : s.retiredEpochs.limit = maxRetiredEpochEntries ∧
    s.retiredSessions.limit = maxRetiredSessionEntries ∧
    s.localRetiredSessions.limit = maxRetiredSessionEntries
  bounded : s.retiredEpochs.entries.length ≤ s.retiredEpochs.limit ∧
    s.retiredSessions.entries.length ≤ s.retiredSessions.limit ∧
    s.localRetiredSessions.entries.length ≤ s.localRetiredSessions.limit
  keptEpochs : ∀ c k u, s.retiredEpochs.Holds k u → s.timeOf c < u →
    ∃ u', u ≤ u' ∧ (s.call c).retiredEpochs.Holds k u'
  keptRemote : ∀ c k u, s.retiredSessions.Holds k u → s.timeOf c < u →
    ∃ u', u ≤ u' ∧ (s.call c).retiredSessions.Holds k u'
  keptOwn : ∀ c k u, s.localRetiredSessions.Holds k u → s.timeOf c < u →
    ∃ u', u ≤ u' ∧ (s.call c).localRetiredSessions.Holds k u'
  fullOwn : ∀ c, s.localSessionID ≠ 0 →
    Full (s.timeOf c) s.localRetiredSessions s.localSessionID → s.begun c = none
  fullEpochs : ∀ control, s.remoteEpoch ≠ 0 → control.controlEpoch ≠ s.remoteEpoch →
    Full (s.timeOf (.observeCapabilitiesHello control)) s.retiredEpochs s.remoteEpoch ∨
      s.remoteSessionID ≠ 0 ∧
        Full (s.timeOf (.observeCapabilitiesHello control)) s.retiredSessions s.remoteSessionID →
    (s.observeCapabilitiesHello control).1.result ≠ .accepted
  fullRemote : ∀ control, s.remoteSessionID ≠ 0 →
    Full (s.timeOf (.observeResetSequence control)) s.retiredSessions s.remoteSessionID →
    (s.observeResetSequence control).1.result ≠ .accepted
  begunFresh : ∀ c x, s.begun c = some x →
    x.dataSessionID ≠ 0 ∧ x.dataSessionID ≠ s.localSessionID
  refusedBegin : ∀ err, s.beginLocalExchange.1 = .error err → OnlyPruned s s.beginLocalExchange.2
  refusedHello : ∀ control, (s.observeCapabilitiesHello control).1.result ≠ .accepted →
    OnlyPruned s (s.observeCapabilitiesHello control).2

theorem Tabled.careful (h : Tabled s) : Careful s where
  limits := h.limits
  bounded := ⟨h.epochs.bounded, h.remote.bounded, h.own.bounded⟩
  keptEpochs c _ _ hk hu := (call_moves h c).epoch.kept h.epochs hk hu
  keptRemote c _ _ hk hu := (call_moves h c).remote.kept h.remote hk hu
  keptOwn c _ _ hk hu := (call_moves h c).own.kept h.own hk hu
  fullOwn := by
    intro c hus hfu
    cases hx : s.begun c with
    | none => rfl
    | some => exact absurd ((begun_begins hx).room hus) (hfu.no_room h.own)
  fullEpochs := by
    intro control hus ho hfu hok
    have hou := s.observeCapabilitiesHello_outcome control
    have ht : s.timeOf (.observeCapabilitiesHello control) =
      (s.observeCapabilitiesHello control).2.lastRead := rfl
    rw [ht] at hfu
    rcases hb : s.observeCapabilitiesHello control with ⟨_, _⟩
    rw [hb] at hou hok hfu
    cases hou with
    | invalid hno => exact hno hok
    | refused => cases hok
    | accepted _ _ _ _ hc =>
      cases hc with
      | same heq => exact heq ⟨hus, Ne.symm ho⟩
      | rotated _ _ hsp hrm =>
        rcases hfu with hfu | ⟨hs, hfu⟩
        · exact hfu.no_room h.epochs (.inr hsp)
        · exact hfu.no_room h.remote (hrm hs)
  fullRemote := by
    intro control hus hfu hok
    have hou := s.observeResetSequence_outcome control
    have ht : s.timeOf (.observeResetSequence control) =
      (s.observeResetSequence control).2.lastRead := rfl
    rw [ht] at hfu
    rcases hb : s.observeResetSequence control with ⟨_, _⟩
    rw [hb] at hou hok hfu
    cases hou with
    | invalid | collision => cases hok
    | accepted _ _ _ _ _ hrm => exact hfu.no_room h.remote (hrm hus)
  begunFresh _ _ hx := ⟨(begun_begins hx).nonzero, (begun_begins hx).changed⟩
  refusedBegin _ he := beginLocalExchange_refused h he
  refusedHello _ hno := observeCapabilitiesHello_refused h hno

theorem new_tabled {config : StateConfig} (hn : State.new config = .ok s) :
    Tabled s ∧ s.config = config := by
  unfold State.new at hn
  split at hn
  · obtain rfl := Except.ok.inj hn
    exact ⟨⟨ExpirySet.empty_wf _, ExpirySet.empty_wf _, ExpirySet.empty_wf _, fun _ => rfl, rfl, rfl,
      rfl⟩, rfl⟩
  · cases hn

/-- In every run, identifiers that were replaced stay unused for their windows, whatever calls
come in between, and the tables that keep them lose no unexpired entry. -/
theorem retirement_windows {config : StateConfig} (hclock : Monotone config.clock) {s₀ : State}
    (hnew : State.new config = .ok s₀) (before : List StateCall) :
    (s₀.runCalls before).Careful ∧ ∀ c after d,
      Windows (s₀.runCalls before) c (((s₀.runCalls before).call c).runCalls after) d := by
  obtain ⟨htab, hcfg⟩ := new_tabled hnew
  have h := runCalls_tabled htab before
  have hsame := (runCalls_config htab before).trans hcfg
  exact ⟨h.careful, fun c after d => windows h (hsame ▸ hclock) c after d⟩

/-- A clock that advances by a second with every reading. -/
def sampleConfig : StateConfig where
  maxCarrierPayload := 1452
  minCarrierPayload := 613
  supportedFeatureBits := 0
  requiredFeatureBits := 0
  reassemblyLifetimeMs := 1000
  localPeerMTU := 1500
  stateSyncMinInterval := second
  clock := fun n => n * second
  entropy := fun n => some (UInt64.ofNat (n + 1))

def sampleHello (epoch : UInt64) : StateCall :=
  .observeCapabilitiesHello {
    messageID := 1, replyTo := 0, controlEpoch := epoch, padding := none
    body := some (.capabilitiesHello sampleConfig.capabilities) }

/-- The epoch 1 is replaced by the epoch 2 and offered again. -/
theorem retirement_windows_sample : ∃ s₀, State.new sampleConfig = .ok s₀ ∧
    Monotone sampleConfig.clock ∧ (s₀.runCalls [sampleHello 1]).Careful ∧
    (s₀.runCalls [sampleHello 1]).remoteEpoch = 1 ∧
    ((s₀.runCalls [sampleHello 1]).call (sampleHello 2)).remoteEpoch = 2 ∧
    Windows (s₀.runCalls [sampleHello 1]) (sampleHello 2)
      ((s₀.runCalls [sampleHello 1]).call (sampleHello 2)) (sampleHello 1) := by
  have hclo : Monotone sampleConfig.clock := fun m n hle =>
    Int.mul_le_mul_of_nonneg_right (Int.ofNat_le.mpr hle) (by decide)
  obtain ⟨s₀, hnew⟩ : ∃ s₀, State.new sampleConfig = .ok s₀ := ⟨_, rfl⟩
  obtain ⟨hcar, hwin⟩ := retirement_windows hclo hnew [sampleHello 1]
  obtain rfl : { config := sampleConfig } = s₀ := Except.ok.inj hnew
  exact ⟨_, hnew, hclo, hcar, by decide +kernel, by decide +kernel,
    hwin (sampleHello 2) [] (sampleHello 1)⟩

end State
end WgFrag.Control
