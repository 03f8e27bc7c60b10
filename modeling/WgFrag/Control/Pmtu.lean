import WgFrag.Basic

/-! One direction of the carrier payload search (DPLPMTUD), and the bound on the confirmed
size that every operation keeps. -/
namespace WgFrag.Control.Pmtu

def confirmationFailureLimit : ℕ := 3
def searchAttemptLimit : ℕ := 3
def minimumProbeTimeout : Duration := 100 * millisecond
def maxDuration : Duration := 9223372036854775807

/-- The transport's canonical form of a candidate; `none` is the identity. -/
structure Config where
  base : UInt32
  ceiling : UInt32
  canonicalize : Option (UInt32 → UInt32)
  probeTimeout : Duration
  refreshInterval : Duration
  confirmationInterval : Duration

structure Probe where
  attempt : UInt64
  payloadSize : UInt32
  deriving DecidableEq, Repr

/-- `bad` is the first known failing size, zero until one is observed. A write past the end of
`rounds`, at which the source panics, is recorded in `panicked`. -/
structure State where
  config : Config
  confirmed : UInt32
  low : UInt32 := 0
  bad : UInt32 := 0
  candidate : UInt32 := 0
  rounds : List UInt32 := [0, 0, 0]
  results : ℕ := 0
  attempt : UInt64 := 0
  inFlight : Bool := false
  pending : Bool := false
  deadline : Time := 0
  nextRefresh : Time := 0
  candidateTries : ℕ := 0
  confirming : Bool := false
  refreshing : Bool := false
  confirmationCandidate : UInt32 := 0
  confirmFailures : ℕ := 0
  nextConfirmation : Time := 0
  blackholed : Bool := false
  srtt : Duration := 0
  searchHint : UInt32 := 0
  panicked : Bool := false

def Config.Valid (config : Config) : Prop :=
  Limits.defaultCarrierPayload ≤ config.base.toNat ∧ config.base ≤ config.ceiling ∧
  minimumProbeTimeout ≤ config.probeTimeout ∧ 0 < config.refreshInterval ∧
  0 < config.confirmationInterval

instance (config : Config) : Decidable config.Valid := inferInstanceAs (Decidable (_ ∧ _))

def median (a b c : UInt32) : UInt32 :=
  let (a, b) := if b < a then (b, a) else (a, b)
  let b := if c < b then c else b
  if b < a then a else b

/-- The largest carrier payload that fills the same 16-byte padding bucket. -/
def canonicalCarrierPayload (payload : UInt32) : UInt32 :=
  if payload < 40 then payload else (payload + 40) / 16 * 16 - 40

namespace State

/-- `none` is the configuration error. -/
def new (config : Config) : Option State :=
  if config.Valid then some { config := config, confirmed := config.base } else none

section Operations
variable (s : State) (now : Time)

def searching : Bool := s.pending || s.inFlight

def outstanding : Option Probe :=
  if s.inFlight then some ⟨s.attempt, s.candidate⟩ else none

def adjustCurrent (attempt : UInt64) (payloadSize : UInt32) : Bool × State :=
  if s.inFlight = false ∨ attempt ≠ s.attempt ∨ payloadSize < s.config.base ∨
      s.config.ceiling < payloadSize then (false, s)
  else (true, { s with candidate := payloadSize })

def canonicalCandidate (payload : UInt32) : UInt32 :=
  let candidate := match s.config.canonicalize with
    | some f => f payload
    | none => payload
  if candidate < s.config.base ∨ s.config.ceiling < candidate then 0 else candidate

def nextCandidate : UInt32 :=
  if s.bad ≠ 0 then
    let candidate := s.canonicalCandidate (s.low + (s.bad - s.low) / 2)
    if candidate ≤ s.low ∨ s.bad ≤ candidate then 0 else candidate
  else if s.config.ceiling ≤ s.low then 0
  else
    let candidate := if s.config.ceiling / 2 < s.low then s.config.ceiling else s.low * 2
    let candidate := s.canonicalCandidate candidate
    if candidate ≤ s.low then 0 else candidate

/-- Schedule the next refresh and confirmation probes. -/
def schedule : State :=
  { s with
    nextRefresh := now + s.config.refreshInterval
    nextConfirmation := now + s.config.confirmationInterval }

/-- The end of a round; `again` opens the next one. -/
def finishRound (again : State → State) (s : State) (now : Time) : State :=
  let s := { s with
    pending := false
    inFlight := false
    rounds := s.rounds.set s.results s.low
    results := s.results + 1
    panicked := s.panicked || s.rounds.length ≤ s.results }
  let round := fun i => s.rounds.getD i 0
  if s.results = 1 then again s
  else if s.results = 2 ∧ round 0 ≠ round 1 then again s
  else
    let candidate := if s.results = 2 then round 0 else median (round 0) (round 1) (round 2)
    if s.confirmed < candidate then
      { s with
        confirmationCandidate := candidate
        confirming := true
        candidate := candidate
        candidateTries := 0
        pending := true }
    else { s with searchHint := 0, refreshing := false }.schedule now

/-- Open a round. At most two more can open before the results decide, so three
levels are enough. -/
def beginRound (now : Time) : ℕ → State → State
  | 0, s => s
  | rounds + 1, s =>
    let s := { s with low := s.config.base, bad := 0, candidateTries := 0 }
    let s := { s with candidate := s.nextCandidate }
    let hinted := s.canonicalCandidate s.searchHint
    let s := if s.low < hinted then { s with candidate := hinted } else s
    let s := { s with searchHint := 0, inFlight := false }
    if s.candidate = 0 then finishRound (beginRound now rounds) s now
    else { s with pending := true }

/-- Move to the next candidate of the round, or end the round. -/
def advance : State :=
  let s := { s with candidateTries := 0, candidate := s.nextCandidate }
  if s.candidate = 0 then finishRound (beginRound now 3) s now else { s with pending := true }

def success : State := { s with low := s.candidate }.advance now

def failure (definitive : Bool) : State :=
  if definitive = false ∧ s.candidateTries < searchAttemptLimit then { s with pending := true }
  else { s with bad := s.candidate }.advance now

def startSearch (refreshing : Bool) : State :=
  let s := { s with
    searchHint := if refreshing then 0 else s.searchHint
    results := 0
    confirming := false
    refreshing := refreshing
    confirmationCandidate := 0
    confirmFailures := 0
    nextConfirmation := 0 }
  if s.config.ceiling = s.config.base then
    { s with
      confirmed := s.config.base, pending := false, inFlight := false, searchHint := 0 }.schedule now
  else beginRound now 3 s

def start : State := { s with searchHint := 0 }.startSearch now false

def startWithHint (hint : UInt32) : State :=
  { s with searchHint := hint }.startSearch now false

def refreshDue : Bool × State :=
  if s.searching ∨ s.nextRefresh = 0 ∨ now < s.nextRefresh then (false, s)
  else (true, s.startSearch now true)

def confirmationDue : Bool × State :=
  if s.searching ∨ s.nextConfirmation = 0 ∨ now < s.nextConfirmation then (false, s)
  else
    (true, { s with
      confirming := true
      confirmationCandidate := 0
      candidate := s.confirmed
      candidateTries := 0
      pending := true })

def probeTimeout (s : State) : Duration :=
  if s.srtt ≤ 0 then s.config.probeTimeout
  else if maxDuration / 4 < s.srtt then maxDuration
  else max minimumProbeTimeout (4 * s.srtt)

def next : Option Probe × State :=
  if s.pending = false then (none, s)
  else
    let s := { s with
      pending := false
      inFlight := true
      attempt := s.attempt + 1
      candidateTries := s.candidateTries + 1
      deadline := now + s.probeTimeout }
    (some ⟨s.attempt, s.candidate⟩, s)

def confirmSuccess : State :=
  if s.confirmationCandidate ≠ 0 then
    { s with
      confirmed := s.confirmationCandidate
      confirmationCandidate := 0
      refreshing := false
      confirming := false
      pending := false
      confirmFailures := 0 }.schedule now
  else
    { s with
      confirming := false
      pending := false
      confirmFailures := 0
      nextConfirmation := now + s.config.confirmationInterval }

def confirmFailure : State :=
  if s.confirmationCandidate ≠ 0 then
    { s with
      confirmationCandidate := 0
      refreshing := false
      confirming := false
      pending := false
      confirmFailures := 0 }.schedule now
  else
    let s := { s with
      confirming := false
      pending := false
      confirmFailures := s.confirmFailures + 1 }
    if s.confirmFailures < confirmationFailureLimit then
      { s with nextConfirmation := now + s.config.confirmationInterval }
    else { s with confirmed := s.config.base, blackholed := true }.start now

def acknowledge (attempt : UInt64) (payloadSize : UInt32) (now : Time) : Bool × State :=
  if s.inFlight = false ∨ attempt ≠ s.attempt ∨ payloadSize ≠ s.candidate then (false, s)
  else
    let s := { s with inFlight := false }
    (true, if s.confirming then s.confirmSuccess now else s.success now)

/-- The common end of `Fail`, `SoftFailCurrent` and `Tick`. -/
def failInFlight (definitive : Bool) : State :=
  let s := { s with inFlight := false }
  if s.confirming then s.confirmFailure now else s.failure now definitive

def fail (attempt : UInt64) (now : Time) : Bool × State :=
  if s.inFlight = false ∨ attempt ≠ s.attempt then (false, s) else (true, s.failInFlight now true)

def failCurrent : Bool × State :=
  if s.inFlight = false then (false, s) else s.fail s.attempt now

def softFailCurrent : Bool × State :=
  if s.inFlight = false then (false, s) else (true, s.failInFlight now false)

def tick : Bool × State :=
  if s.inFlight = false ∨ now < s.deadline then (false, s) else (true, s.failInFlight now false)

def reportBlackhole : State :=
  { s with confirmed := s.config.base }.start now

def observeRTT (sample : Duration) : State :=
  if sample ≤ 0 then s
  else if s.srtt = 0 then { s with srtt := sample }
  else { s with srtt := s.srtt + (sample - s.srtt).tdiv 8 }

def takeBlackhole : Bool × State := (s.blackholed, { s with blackholed := false })

/-! ### Rounds -/

/-- A new round with its first candidate, zero if there is none. -/
def opened : State :=
  let t := { s with low := s.config.base, bad := 0, candidateTries := 0 }
  let hinted := s.canonicalCandidate s.searchHint
  { t with
    candidate := if s.config.base < hinted then hinted else t.nextCandidate
    searchHint := 0
    inFlight := false }

/-- The round with its result written down. -/
def closed : State :=
  { s with
    pending := false
    inFlight := false
    rounds := s.rounds.set s.results s.low
    results := s.results + 1
    panicked := s.panicked || s.rounds.length ≤ s.results }

def round (i : ℕ) : UInt32 := s.rounds.getD i 0

def Undecided : Prop := s.results = 1 ∨ s.results = 2 ∧ s.round 0 ≠ s.round 1

instance decidableUndecided : Decidable s.Undecided :=
  inferInstanceAs (Decidable (_ ∨ _))

def verdict : UInt32 :=
  if s.results = 2 then s.round 0 else median (s.round 0) (s.round 1) (s.round 2)

/-- The search ends, or its result is confirmed first. -/
def decided : State :=
  if s.confirmed < s.verdict then
    { s with
      confirmationCandidate := s.verdict
      confirming := true
      candidate := s.verdict
      candidateTries := 0
      pending := true }
  else { s with searchHint := 0, refreshing := false }.schedule now

end Operations

variable {s t : State} {now : Time}

/-- Probe the candidate that was chosen, or end the round. -/
def resume (now : Time) (n : ℕ) (s : State) : State :=
  if s.candidate = 0 then finishRound (beginRound now n) s now else { s with pending := true }

private theorem finishRound_eq (again : State → State) :
    finishRound again s now = if s.closed.Undecided then again s.closed else s.closed.decided now := by
  by_cases h1 : s.results + 1 = 1
  · have hu : s.closed.Undecided := .inl h1
    rw [if_pos hu]
    exact if_pos h1
  · by_cases h2 : s.results + 1 = 2 ∧ s.closed.round 0 ≠ s.closed.round 1
    · have hu : s.closed.Undecided := .inr h2
      rw [if_pos hu]
      exact (if_neg h1).trans (if_pos h2)
    · have hu : ¬ s.closed.Undecided := fun h => h.elim h1 h2
      rw [if_neg hu]
      exact (if_neg h1).trans (if_neg h2)

theorem beginRound_eq (n : ℕ) : beginRound now (n + 1) s = resume now n s.opened := by
  unfold resume opened
  rw [beginRound]
  dsimp only
  split_ifs <;> first | rfl | contradiction

/-- How the search goes on once a candidate is chosen. -/
inductive Settles (now : Time) : State → State → Prop
  | probe {s : State} : s.candidate ≠ 0 → Settles now s { s with pending := true }
  | again {s t : State} : s.candidate = 0 → s.closed.Undecided → Settles now s.closed.opened t →
    Settles now s t
  | done {s : State} : s.candidate = 0 → ¬ s.closed.Undecided → Settles now s (s.closed.decided now)

/-- At most two rounds follow the first, so the levels of `beginRound` suffice. -/
theorem resume_settles (now : Time) (s : State) (n : ℕ) (h : 2 ≤ s.results + n) :
    Settles now s (resume now n s) := by
  unfold resume
  induction n generalizing s with
  | zero =>
    split
    · next hz =>
      have hu : ¬ s.closed.Undecided := by
        rintro (h1 | ⟨h2, -⟩)
        · have : s.results + 1 = 1 := h1
          omega
        · have : s.results + 1 = 2 := h2
          omega
      rw [finishRound_eq, if_neg hu]
      exact .done hz hu
    · next hne => exact .probe hne
  | succ n ih =>
    split
    · next hz =>
      rw [finishRound_eq]
      split
      · next hu =>
        rw [beginRound_eq]
        have hr : s.closed.opened.results = s.results + 1 := rfl
        exact .again hz hu (ih s.closed.opened (by omega))
      · next hu => exact .done hz hu
    · next hne => exact .probe hne

theorem advance_settles (s : State) (now : Time) :
    Settles now { s with candidateTries := 0, candidate := s.nextCandidate } (s.advance now) :=
  resume_settles now _ 3 (by omega)

/-- DATA never uses less than BASE, now or after a pending confirmation. -/
structure Ok (s : State) : Prop where
  confirmed : s.config.base ≤ s.confirmed
  candidate : s.confirmationCandidate ≠ 0 → s.config.base ≤ s.confirmationCandidate

/-- What every operation on a search keeps. -/
structure Evolves (s t : State) : Prop where
  config : t.config = s.config
  ok : s.Ok → t.Ok

namespace Evolves

theorem refl (s : State) : Evolves s s := ⟨rfl, id⟩

theorem trans {u : State} (h : Evolves s t) (h' : Evolves t u) : Evolves s u :=
  ⟨h'.config.trans h.config, fun hs => h'.ok (h.ok hs)⟩

theorem after {u : State} (h : Evolves t u) (h' : Evolves s t) : Evolves s u := h'.trans h

theorem of_same (hc : t.config = s.config) (h : t.confirmed = s.confirmed)
    (h' : t.confirmationCandidate = s.confirmationCandidate) : Evolves s t := by
  refine ⟨hc, fun hs => ⟨?_, ?_⟩⟩
  · rw [hc, h]
    exact hs.confirmed
  · rw [hc, h']
    exact hs.candidate

theorem of_dropped (hc : t.config = s.config)
    (h : t.confirmed = s.confirmed ∨ t.confirmed = s.config.base)
    (h' : t.confirmationCandidate = 0) : Evolves s t := by
  refine ⟨hc, fun hs => ⟨?_, fun hne => absurd h' hne⟩⟩
  rcases h with h | h
  · rw [hc, h]
    exact hs.confirmed
  · rw [hc, h]
    exact UInt32.le_refl _

end Evolves

theorem Settles.evolves (h : Settles now s t) : Evolves s t := by
  induction h with
  | probe => exact .of_same rfl rfl rfl
  | again _ _ _ ih => exact ih.after (.of_same rfl rfl rfl)
  | done =>
    unfold decided
    split
    · next hlt =>
      refine ⟨rfl, fun hs => ⟨hs.confirmed, fun _ => ?_⟩⟩
      exact UInt32.le_trans hs.confirmed (UInt32.le_of_lt hlt)
    · exact .of_same rfl rfl rfl

section
variable (s now)

theorem advance_evolves : Evolves s (s.advance now) :=
  (advance_settles s now).evolves.after (.of_same rfl rfl rfl)

theorem startSearch_evolves (refreshing : Bool) : Evolves s (s.startSearch now refreshing) := by
  unfold startSearch
  extract_lets t
  have ht : Evolves s t := .of_dropped rfl (.inl rfl) rfl
  split_ifs
  · exact .of_dropped rfl (.inr rfl) rfl
  · rw [beginRound_eq]
    have hop : Evolves t t.opened := .of_same rfl rfl rfl
    exact ht.trans (hop.trans (resume_settles now t.opened 2 (by omega)).evolves)

theorem start_evolves : Evolves s (s.start now) :=
  (startSearch_evolves _ now false).after (.of_same rfl rfl rfl)

theorem startWithHint_evolves (hint : UInt32) : Evolves s (s.startWithHint now hint) :=
  (startSearch_evolves _ now false).after (.of_same rfl rfl rfl)

theorem confirmSuccess_evolves : Evolves s (s.confirmSuccess now) := by
  unfold confirmSuccess
  split_ifs with h
  · exact ⟨rfl, fun hs => ⟨hs.candidate h, fun hne => absurd rfl hne⟩⟩
  · exact .of_same rfl rfl rfl

private theorem confirmFailure_evolves : Evolves s (s.confirmFailure now) := by
  unfold confirmFailure
  extract_lets t
  split_ifs with h
  · exact .of_dropped rfl (.inl rfl) rfl
  · exact .of_same rfl rfl rfl
  · have hc : s.confirmationCandidate = 0 := by simpa using h
    exact (start_evolves _ now).after (.of_dropped rfl (.inr rfl) hc)

private theorem failure_evolves (definitive : Bool) : Evolves s (s.failure now definitive) := by
  unfold failure
  split_ifs
  · exact .of_same rfl rfl rfl
  · exact (advance_evolves _ now).after (.of_same rfl rfl rfl)

theorem failInFlight_evolves (definitive : Bool) : Evolves s (s.failInFlight now definitive) := by
  unfold failInFlight
  extract_lets t
  have ht : Evolves s t := .of_same rfl rfl rfl
  split_ifs
  · exact ht.trans (confirmFailure_evolves t now)
  · exact ht.trans (failure_evolves t now definitive)

end

/-! ### Calls -/

end State

def Config.Within (c : Config) (x : UInt32) : Prop := c.base ≤ x ∧ x ≤ c.ceiling

inductive Call where
  | start (now : Time)
  | startWithHint (now : Time) (hint : UInt32)
  | refreshDue (now : Time)
  | confirmationDue (now : Time)
  | next (now : Time)
  | adjustCurrent (attempt : UInt64) (payloadSize : UInt32)
  | acknowledge (attempt : UInt64) (payloadSize : UInt32) (now : Time)
  | fail (attempt : UInt64) (now : Time)
  | failCurrent (now : Time)
  | softFailCurrent (now : Time)
  | tick (now : Time)
  | reportBlackhole (now : Time)
  | observeRTT (sample : Duration)
  | takeBlackhole

def State.call (s : State) : Call → State
  | .start now => s.start now
  | .startWithHint now hint => s.startWithHint now hint
  | .refreshDue now => (s.refreshDue now).2
  | .confirmationDue now => (s.confirmationDue now).2
  | .next now => (s.next now).2
  | .adjustCurrent attempt size => (s.adjustCurrent attempt size).2
  | .acknowledge attempt size now => (s.acknowledge attempt size now).2
  | .fail attempt now => (s.fail attempt now).2
  | .failCurrent now => (s.failCurrent now).2
  | .softFailCurrent now => (s.softFailCurrent now).2
  | .tick now => (s.tick now).2
  | .reportBlackhole now => s.reportBlackhole now
  | .observeRTT sample => s.observeRTT sample
  | .takeBlackhole => s.takeBlackhole.2

/-- The call reports a failure of the probe in flight. -/
def State.fails (s : State) : Call → Bool
  | .fail attempt now => (s.fail attempt now).1
  | .failCurrent now => (s.failCurrent now).1
  | .softFailCurrent now => (s.softFailCurrent now).1
  | .tick now => (s.tick now).1
  | _ => false

/-- Calls that neither start a search nor send a probe. -/
def Call.answers : Call → Bool
  | .start _ => false
  | .startWithHint _ _ => false
  | .reportBlackhole _ => false
  | .next _ => false
  | .adjustCurrent _ _ => false
  | _ => true

/-- A failure that these calls report is final: the others ask for the probe again at first. -/
def Call.definitive : Call → Bool
  | .softFailCurrent _ => false
  | .tick _ => false
  | _ => true

/-- The answer of a call that reports a failure. -/
def State.Reports (s : State) (definitive : Bool) (out : Bool × State) : Prop :=
  out = (false, s) ∨
    s.inFlight = true ∧ ∃ now, out = (true, s.failInFlight now definitive)

namespace State

section Reports
variable (s : State) (now : Time)

theorem fail_reports (attempt : UInt64) : s.Reports true (s.fail attempt now) := by
  unfold fail
  split
  · exact .inl rfl
  · next h =>
    rw [not_or, Bool.not_eq_false] at h
    exact .inr ⟨h.1, now, rfl⟩

theorem failCurrent_reports : s.Reports true (s.failCurrent now) := by
  unfold failCurrent
  split
  · exact .inl rfl
  · exact s.fail_reports now s.attempt

theorem softFailCurrent_reports : s.Reports false (s.softFailCurrent now) := by
  unfold softFailCurrent
  split
  · exact .inl rfl
  · next h => exact .inr ⟨Bool.of_not_eq_false h, now, rfl⟩

theorem tick_reports : s.Reports false (s.tick now) := by
  unfold tick
  split
  · exact .inl rfl
  · next h =>
    rw [not_or, Bool.not_eq_false] at h
    exact .inr ⟨h.1, now, rfl⟩

end Reports

theorem fails_reports {s : State} {c : Call} (h : s.fails c = true) :
    s.inFlight = true ∧ ∃ now, s.call c = s.failInFlight now c.definitive := by
  have hout : ∀ {out : Bool × State}, s.Reports c.definitive out → out.1 = true →
      s.inFlight = true ∧ ∃ now, out.2 = s.failInFlight now c.definitive := by
    intro out hre hok
    rcases hre with rfl | ⟨hf, now, rfl⟩
    · cases hok
    · exact ⟨hf, now, rfl⟩
  cases c with
  | fail attempt now => exact hout (s.fail_reports now attempt) h
  | failCurrent now => exact hout (s.failCurrent_reports now) h
  | softFailCurrent now => exact hout (s.softFailCurrent_reports now) h
  | tick now => exact hout (s.tick_reports now) h
  | _ => cases h

/-- The probe in flight at the size at which it was sent. -/
def sending (s : State) (now : Time) (size : UInt32) : State :=
  { s with
    candidate := size
    pending := false
    inFlight := true
    attempt := s.attempt + 1
    candidateTries := s.candidateTries + 1
    deadline := now + s.probeTimeout }

/-- The end of `Acknowledge` for the probe in flight. -/
def succeed (s : State) (now : Time) : State :=
  let s := { s with inFlight := false }
  if s.confirming then s.confirmSuccess now else s.success now

inductive Acts (s : State) : Call → State → Prop
  | noted {c : Call} (srtt : Duration) (blackholed : Bool) : s.fails c = false →
    Acts s c { s with srtt := srtt, blackholed := blackholed }
  | searched {c : Call} (now : Time) (hint : UInt32) (refreshing : Bool) :
    (c.answers = true → s.searching = false) →
    Acts s c ({ s with searchHint := hint }.startSearch now refreshing)
  | fell (now : Time) : Acts s (.reportBlackhole now) (s.reportBlackhole now)
  | confirms (now : Time) : s.searching = false → Acts s (.confirmationDue now) { s with
      confirming := true
      confirmationCandidate := 0
      candidate := s.confirmed
      candidateTries := 0
      pending := true }
  | sent (now : Time) : s.pending = true → Acts s (.next now) (s.sending now s.candidate)
  | sized {size : UInt32} : s.inFlight = true → s.config.Within size →
    Acts s (.adjustCurrent s.attempt size) { s with candidate := size }
  | acked (now : Time) : s.inFlight = true →
    Acts s (.acknowledge s.attempt s.candidate now) (s.succeed now)
  | failed {c : Call} (now : Time) (definitive : Bool) : s.inFlight = true → s.fails c = true →
    Acts s c (s.failInFlight now definitive)

theorem Reports.acts {out : Bool × State} {c : Call} {definitive : Bool}
    (h : s.Reports definitive out) (hc : s.fails c = out.1) : Acts s c out.2 := by
  rcases h with rfl | ⟨hf, now, rfl⟩
  · exact .noted s.srtt s.blackholed hc
  · exact .failed now definitive hf hc

theorem call_acts (s : State) (c : Call) : Acts s c (s.call c) := by
  have hk : s.fails c = false → Acts s c s := .noted s.srtt s.blackholed
  cases c with
  | start now => exact .searched now 0 false nofun
  | startWithHint now hint => exact .searched now hint false nofun
  | refreshDue now =>
    unfold call refreshDue
    dsimp only
    split
    · exact hk rfl
    · next h => exact .searched now s.searchHint true fun _ => Bool.of_not_eq_true (not_or.mp h).1
  | confirmationDue now =>
    unfold call confirmationDue
    dsimp only
    split
    · exact hk rfl
    · next h => exact .confirms now (Bool.of_not_eq_true (not_or.mp h).1)
  | next now =>
    unfold call next
    dsimp only
    split
    · exact hk rfl
    · next h => exact .sent now (Bool.of_not_eq_false h)
  | adjustCurrent attempt size =>
    unfold call adjustCurrent
    dsimp only
    split
    · exact hk rfl
    · next h =>
      rw [not_or, not_or, not_or, not_not, UInt32.not_lt, UInt32.not_lt, Bool.not_eq_false] at h
      obtain ⟨hf, rfl, hw⟩ := h
      exact .sized hf hw
  | acknowledge attempt size now =>
    unfold call acknowledge
    dsimp only
    split
    · exact hk rfl
    · next h =>
      rw [not_or, not_or, not_not, not_not, Bool.not_eq_false] at h
      obtain ⟨hf, rfl, rfl⟩ := h
      exact .acked now hf
  | fail attempt now => exact (s.fail_reports now attempt).acts rfl
  | failCurrent now => exact (s.failCurrent_reports now).acts rfl
  | softFailCurrent now => exact (s.softFailCurrent_reports now).acts rfl
  | tick now => exact (s.tick_reports now).acts rfl
  | reportBlackhole now => exact .fell now
  | observeRTT sample =>
    unfold call observeRTT
    dsimp only
    split_ifs
    · exact hk rfl
    · exact .noted sample s.blackholed rfl
    · exact .noted _ s.blackholed rfl
  | takeBlackhole => exact .noted s.srtt false rfl

theorem Acts.evolves {c : Call} (h : Acts s c t) : Evolves s t := by
  cases h with
  | noted | sent | sized => exact .of_same rfl rfl rfl
  | searched now _ refreshing =>
    exact (startSearch_evolves _ now refreshing).after (.of_same rfl rfl rfl)
  | fell now => exact (start_evolves _ now).after ⟨rfl, fun hs => ⟨UInt32.le_refl _, hs.candidate⟩⟩
  | confirms => exact .of_dropped rfl (.inl rfl) rfl
  | acked now =>
    unfold succeed
    extract_lets u
    have hu : Evolves s u := .of_same rfl rfl rfl
    split_ifs
    · exact hu.trans (confirmSuccess_evolves u now)
    · exact (advance_evolves _ now).after (.of_same rfl rfl rfl)
  | failed now definitive => exact failInFlight_evolves s now definitive

theorem call_evolves (s : State) (c : Call) : Evolves s (s.call c) := (s.call_acts c).evolves

theorem new_ok {config : Config} {s : State} (h : new config = some s) :
    s.config = config ∧ s.Ok := by
  unfold new at h
  split_ifs at h
  cases h
  exact ⟨rfl, UInt32.le_refl _, fun hne => absurd rfl hne⟩

end State
end WgFrag.Control.Pmtu
