import WgFrag.Control.Search

/-! Every round of the carrier payload search narrows an interval of possible sizes, and every
search ends after a number of probes that only depends on its bounds. -/
namespace WgFrag.Control.Pmtu

/-- The number of sizes from BASE to the ceiling. -/
def Config.width (c : Config) : ℕ := c.ceiling.toNat + 1 - c.base.toNat

theorem ne_zero_of_lt {a b : UInt32} (h : a < b) : b ≠ 0 := by
  rintro rfl
  exact UInt32.not_lt_zero h

namespace State
variable {s t : State} {now : Time}

/-- In a round, the sizes above `low` and below this one are still possible. -/
def high (s : State) : ℕ := if s.bad = 0 then s.config.ceiling.toNat + 1 else s.bad.toNat

theorem nextCandidate_bisects (h : s.bad ≠ 0) : s.nextCandidate =
    if s.canonicalCandidate (s.low + (s.bad - s.low) / 2) ≤ s.low ∨
      s.bad ≤ s.canonicalCandidate (s.low + (s.bad - s.low) / 2) then 0
    else s.canonicalCandidate (s.low + (s.bad - s.low) / 2) := if_pos h

theorem nextCandidate_doubles (h : s.bad = 0) (hl : s.low < s.config.ceiling) :
    s.nextCandidate =
      if s.canonicalCandidate (if s.config.ceiling / 2 < s.low then s.config.ceiling else s.low * 2)
        ≤ s.low then 0
      else s.canonicalCandidate
        (if s.config.ceiling / 2 < s.low then s.config.ceiling else s.low * 2) :=
  (if_neg (not_not.mpr h)).trans (if_neg (UInt32.not_le.mpr hl))

theorem nextCandidate_full (h : s.bad = 0) (hl : s.config.ceiling ≤ s.low) :
    s.nextCandidate = 0 := (if_neg (not_not.mpr h)).trans (if_pos hl)

theorem nextCandidate_between (s : State) (h : s.nextCandidate ≠ 0) :
    s.low < s.nextCandidate ∧ s.nextCandidate.toNat < s.high := by
  have hw := (nextCandidate_within s).resolve_left h
  unfold high
  by_cases hb : s.bad = 0
  · rw [if_pos hb]
    refine ⟨?_, Nat.lt_succ_of_le (UInt32.le_iff_toNat_le.mp hw.2)⟩
    by_cases hl : s.low < s.config.ceiling
    · rw [nextCandidate_doubles hb hl] at h ⊢
      split_ifs at h ⊢ with h1 h2 h2
      · exact absurd rfl h
      · exact UInt32.not_le.mp h2
      · exact absurd rfl h
      · exact UInt32.not_le.mp h2
    · exact absurd (nextCandidate_full hb (UInt32.not_lt.mp hl)) h
  · rw [if_neg hb]
    rw [nextCandidate_bisects hb] at h ⊢
    split_ifs at h ⊢ with hm
    · exact absurd rfl h
    · rw [not_or, UInt32.not_le, UInt32.not_le] at hm
      exact ⟨hm.1, UInt32.lt_iff_toNat_lt.mp hm.2⟩

/-! ### Probes to come -/

structure Placed (s : State) : Prop where
  results : s.results < 3
  base : s.config.base ≤ s.low
  room : s.low.toNat < s.high
  high : s.high ≤ s.config.ceiling.toNat + 1
  confirming : s.confirming = false

/-- The candidate of a round lies between the bounds. -/
def Between (s : State) : Prop := s.low < s.candidate ∧ s.candidate.toNat < s.high

/-- A bound on the probes of the round and of those that may follow it. -/
def roundsLeft (s : State) : ℕ :=
  3 * (s.high - s.low.toNat) + 3 * s.config.width * (2 - s.results) + 1

/-- A bound on the probes of the search. -/
def probesLeft (s : State) : ℕ :=
  if s.confirming then (if s.pending then 1 else 0) else s.roundsLeft - s.candidateTries

/-- A search in progress, ready to send or awaiting an answer. -/
structure Paced (s : State) : Prop where
  bounds : s.config.base ≤ s.config.ceiling
  single : s.inFlight = true → s.pending = false
  placed : s.searching = true → s.confirming = false → Placed s ∧ Between s
  tries : s.candidateTries ≤ 3
  retry : s.pending = true → s.candidateTries ≤ 2

theorem opened_candidate (s : State) : s.opened.candidate =
    if s.config.base < s.canonicalCandidate s.searchHint then s.canonicalCandidate s.searchHint
    else { s with low := s.config.base, bad := 0, candidateTries := 0 }.nextCandidate := rfl

theorem opened_placed (hr : s.results < 3) (hb : s.config.base ≤ s.config.ceiling)
    (hc : s.confirming = false) : Placed s.opened ∧ s.opened.high - s.opened.low.toNat = s.config.width ∧
      (s.opened.candidate = 0 ∨ Between s.opened) := by
  have hhi : s.opened.high = s.config.ceiling.toNat + 1 := if_pos rfl
  have hle := UInt32.le_iff_toNat_le.mp hb
  have hrm : s.opened.low.toNat < s.opened.high := by exact Nat.lt_succ_of_le hle
  refine ⟨⟨hr, UInt32.le_refl _, hrm, Nat.le_of_eq hhi, hc⟩, ?_, ?_⟩
  · rw [hhi]
    rfl
  by_cases hz : s.opened.candidate = 0
  · exact .inl hz
  right
  unfold Between
  rw [opened_candidate] at hz ⊢
  split_ifs at hz ⊢ with hhint
  · refine ⟨hhint, ?_⟩
    exact Nat.lt_succ_of_le
      (UInt32.le_iff_toNat_le.mp ((canonicalCandidate_within s _).resolve_left hz).2)
  · exact nextCandidate_between _ hz

theorem Undecided.results (h : s.closed.Undecided) : s.results < 2 := by
  have hr : s.closed.results = s.results + 1 := rfl
  rcases h with _ | ⟨_, -⟩ <;> omega

/-- Choosing a candidate leaves no more probes than the bounds allow. -/
theorem Settles.paced (h : Settles now s t) (hb : s.config.base ≤ s.config.ceiling)
    (hp : Placed s) (hca : s.candidate = 0 ∨ Between s) (ht : s.candidateTries = 0)
    (hflight : s.inFlight = false) : Paced t ∧ (t.searching = true → t.probesLeft ≤ s.roundsLeft) := by
  induction h with
  | @probe s hne =>
    refine ⟨⟨hb, fun hin => ?_, fun _ _ => ⟨⟨hp.results, hp.base, hp.room, hp.high,
      hp.confirming⟩, hca.resolve_left hne⟩, ?_, fun _ => ?_⟩, fun _ => ?_⟩
    · exact absurd (hflight.symm.trans hin) (by decide)
    · rw [ht]
      exact Nat.zero_le 3
    · rw [ht]
      exact Nat.zero_le 2
    · have hc : ¬ (s.confirming = true) := by
        rw [hp.confirming]
        decide
      unfold probesLeft
      rw [if_neg hc]
      exact Nat.sub_le _ _
  | @again s _ _ hu _ ih =>
    obtain ⟨hp', hw, hc'⟩ := opened_placed (s := s.closed)
      (Nat.succ_lt_succ (Undecided.results hu)) hb hp.confirming
    obtain ⟨hpa, hl⟩ := ih hb hp' hc' rfl rfl
    refine ⟨hpa, fun hs => Nat.le_trans (hl hs) ?_⟩
    have hlt := Undecided.results hu
    unfold roundsLeft
    rw [hw]
    have hcf : s.closed.opened.config = s.config := rfl
    have hr : s.closed.opened.results = s.results + 1 := rfl
    have ho : 3 * s.config.width + 3 * s.config.width * (2 - (s.results + 1)) =
        3 * s.config.width * (2 - s.results) := by
      rw [Nat.add_comm, ← Nat.mul_succ]
      congr 1
      omega
    rw [hcf, hr]
    have heq : s.closed.config = s.config := rfl
    rw [heq]
    omega
  | @done s =>
    unfold State.decided
    split
    · refine ⟨⟨hb, nofun, nofun, Nat.zero_le 3, fun _ => Nat.zero_le 2⟩, fun _ => ?_⟩
      show 1 ≤ s.roundsLeft
      unfold roundsLeft
      omega
    · refine ⟨⟨hb, nofun, nofun, ?_, nofun⟩, nofun⟩
      show s.candidateTries ≤ 3
      rw [ht]
      exact Nat.zero_le 3

/-! ### Answers -/

section Answers
variable (hp : Paced s) (hflight : s.inFlight = true)
include hp hflight

/-- A resolved probe narrows the interval by a new bound at its size. -/
theorem Paced.advance {low bad : UInt32} (hc : s.confirming = false) (hb : s.config.base ≤ low)
    (hrm : low.toNat < { s with low := low, bad := bad }.high)
    (hhi : { s with low := low, bad := bad }.high ≤ s.config.ceiling.toNat + 1)
    (hlt : { s with low := low, bad := bad }.high - low.toNat < s.high - s.low.toNat) :
    let t := { s with inFlight := false, low := low, bad := bad }.advance now
    Paced t ∧ (t.searching = true → t.probesLeft ≤ s.probesLeft) := by
  have hpl := hp.placed (searching_of_inFlight s hflight) hc
  have hse := advance_settles { s with inFlight := false, low := low, bad := bad } now
  obtain ⟨hpa, hl⟩ := hse.paced hp.bounds
    ⟨hpl.1.results, hb, hrm, hhi, hc⟩ (by
      by_cases hz : { s with low := low, bad := bad }.nextCandidate = 0
      · exact .inl hz
      · exact .inr (nextCandidate_between _ hz)) rfl rfl
  refine ⟨hpa, fun hs => Nat.le_trans (hl hs) ?_⟩
  have ht := hp.tries
  have hbe : s.probesLeft = s.roundsLeft - s.candidateTries := if_neg (by rw [hc]; decide)
  show 3 * ({ s with low := low, bad := bad }.high - low.toNat) +
    3 * s.config.width * (2 - s.results) + 1 ≤ s.probesLeft
  rw [hbe]
  unfold roundsLeft
  omega

theorem Paced.between (hc : s.confirming = false) : Placed s ∧ Between s :=
  hp.placed (searching_of_inFlight s hflight) hc

theorem Paced.success (hc : s.confirming = false) (now : Time) :
    let t := { s with inFlight := false }.success now
    Paced t ∧ (t.searching = true → t.probesLeft ≤ s.probesLeft) := by
  obtain ⟨hpl, hl, hhi⟩ := hp.between hflight hc
  have hl' := UInt32.lt_iff_toNat_lt.mp hl
  refine hp.advance hflight hc (UInt32.le_trans hpl.base (UInt32.le_of_lt hl)) hhi
    hpl.high ?_
  show s.high - s.candidate.toNat < s.high - s.low.toNat
  omega

theorem Paced.failure (hc : s.confirming = false) (now : Time) (definitive : Bool) :
    let t := { s with inFlight := false }.failure now definitive
    Paced t ∧ (t.searching = true → t.probesLeft ≤ s.probesLeft) := by
  obtain ⟨hpl, hl, hhi⟩ := hp.between hflight hc
  have hl' := UInt32.lt_iff_toNat_lt.mp hl
  have hle := hpl.high
  unfold State.failure
  extract_lets t
  unfold t
  split
  · next hr =>
    refine ⟨⟨hp.bounds, nofun, fun _ _ => ⟨⟨hpl.results, hpl.base,
      hpl.room, hpl.high, hc⟩, hl, hhi⟩, hp.tries, fun _ => ?_⟩, fun _ => ?_⟩
    · exact Nat.le_of_lt_succ hr.2
    · unfold probesLeft
      rw [if_neg (by rw [hc]; decide), if_neg (by rw [hc]; decide)]
      exact Nat.le_refl _
  · have hhi' : { s with bad := s.candidate }.high = s.candidate.toNat := if_neg (ne_zero_of_lt hl)
    refine hp.advance hflight hc hpl.base (Nat.lt_of_lt_of_eq hl' hhi'.symm) ?_ ?_
    · show { s with bad := s.candidate }.high ≤ _
      omega
    · show { s with bad := s.candidate }.high - s.low.toNat < _
      omega

end Answers

/-- A search until it ends: a confirmation that is not its last step cannot come up. -/
structure Underway (s : State) : Prop extends Paced s where
  final : s.confirming = true → s.confirmationCandidate ≠ 0

theorem Settles.final (h : Settles now s t) (hc : s.confirming = false) :
    t.confirming = true → t.confirmationCandidate ≠ 0 := by
  induction h with
  | probe => exact fun ht => absurd (hc.symm.trans ht) (by decide)
  | again _ _ _ ih => exact ih hc
  | @done s _ _ =>
    unfold State.decided
    split
    · next hlt => exact fun _ => ne_zero_of_lt hlt
    · exact fun ht => absurd (hc.symm.trans ht) (by decide)

private theorem advance_final (hc : s.confirming = false) :
    (s.advance now).confirming = true → (s.advance now).confirmationCandidate ≠ 0 :=
  (advance_settles s now).final hc

/-- What an answer leaves of a search. -/
def Answered (s t : State) : Prop :=
  t.searching = true → Underway t ∧ t.probesLeft ≤ s.probesLeft

private theorem answered_of_idle (h : t.searching = false) : Answered s t := by
  intro hs
  rw [h] at hs
  cases hs

theorem Underway.succeed (hu : Underway s) (hflight : s.inFlight = true) :
    Answered s (s.succeed now) := by
  unfold State.succeed
  dsimp only
  split
  · next hc =>
    apply answered_of_idle
    unfold State.confirmSuccess
    rw [if_pos (hu.final hc)]
    rfl
  · next hc =>
    have hc' := Bool.of_not_eq_true hc
    obtain ⟨hpa, hl⟩ := hu.success hflight hc' now
    exact fun hs => ⟨⟨hpa, advance_final hc'⟩, hl hs⟩

theorem Underway.failInFlight (hu : Underway s) (hflight : s.inFlight = true) (definitive : Bool) :
    Answered s (s.failInFlight now definitive) := by
  unfold State.failInFlight
  dsimp only
  split
  · next hc =>
    apply answered_of_idle
    unfold State.confirmFailure
    rw [if_pos (hu.final hc)]
    rfl
  · next hc =>
    have hc' := Bool.of_not_eq_true hc
    obtain ⟨hpa, hl⟩ := hu.failure hflight hc' now definitive
    refine fun hs => ⟨⟨hpa, ?_⟩, hl hs⟩
    unfold State.failure
    split
    · exact fun ht => absurd ht hc
    · exact advance_final hc'

/-! ### Sending -/

/-- The probe was built as a frame of `actual` bytes; a size that the search refuses is a failure
of the probe. -/
def resize (s : State) (probe : Probe) (abortAt : Time) (actual : UInt32) : State :=
  if actual = probe.payloadSize then s
  else
    match s.adjustCurrent probe.attempt actual with
    | (true, s) => s
    | (false, s) => (s.failCurrent abortAt).2

/-- Send the probe that is due as a frame of `actual` bytes. -/
def send (s : State) (now abortAt : Time) (actual : UInt32) : State :=
  match s.next now with
  | (none, s) => s
  | (some probe, s) => s.resize probe abortAt actual

theorem send_idle (h : s.pending = false) (now abortAt : Time) (actual : UInt32) :
    s.send now abortAt actual = s := by
  unfold send next
  rw [if_pos h]

theorem send_candidate (h : s.pending = true) (now abortAt : Time) :
    s.send now abortAt s.candidate = s.sending now s.candidate := by
  unfold send next
  rw [if_neg (by rw [h]; decide)]
  exact if_pos rfl

theorem failCurrent_inFlight (h : s.inFlight = true) (now : Time) :
    s.failCurrent now = (true, s.failInFlight now true) := by
  unfold failCurrent fail
  rw [if_neg (by rw [h]; decide), if_neg]
  rintro (hin | hne)
  · exact absurd (h.symm.trans hin) (by decide)
  · exact hne rfl

theorem send_cases (h : s.pending = true) (now abortAt : Time) (actual : UInt32) :
    (actual = s.candidate ∨ s.config.Within actual) ∧
      s.send now abortAt actual = s.sending now actual ∨
    ¬ s.config.Within actual ∧
      s.send now abortAt actual = (s.sending now s.candidate).failInFlight abortAt true := by
  unfold send next
  rw [if_neg (by rw [h]; decide)]
  dsimp only
  unfold resize
  split
  · next heq => exact .inl ⟨.inl heq, by rw [heq]; rfl⟩
  unfold adjustCurrent
  by_cases hw : s.config.Within actual
  · refine .inl ⟨.inr hw, ?_⟩
    rw [if_neg]
    · rfl
    rintro (hin | hne | hl | hhi)
    · cases hin
    · exact hne rfl
    · exact UInt32.not_lt.mpr hw.1 hl
    · exact UInt32.not_lt.mpr hw.2 hhi
  · refine .inr ⟨hw, ?_⟩
    rw [if_pos]
    · show ((s.sending now s.candidate).failCurrent abortAt).2 = _
      rw [failCurrent_inFlight rfl]
    right
    right
    by_contra hno
    rw [not_or, UInt32.not_lt, UInt32.not_lt] at hno
    exact hw hno

/-- In a round, a frame no larger than the candidate that lies above the lower bound. -/
def Sendable (s : State) (actual : UInt32) : Prop :=
  s.confirming = false → s.low < actual ∧ actual ≤ s.candidate

section Sending
variable (hu : Underway s) (hpending : s.pending = true)
include hu hpending

theorem Underway.sending (now : Time) {size : UInt32}
    (hsz : s.confirming = false → s.low < size ∧ size.toNat < s.high) :
    Underway (s.sending now size) ∧ (s.sending now size).probesLeft + 1 ≤ s.probesLeft := by
  have hs := searching_of_pending s hpending
  have ht := hu.retry hpending
  refine ⟨⟨⟨hu.bounds, fun _ => rfl, fun _ hc => ?_, Nat.succ_le_succ ht, nofun⟩, hu.final⟩, ?_⟩
  · have hpl := (hu.placed hs hc).1
    exact ⟨⟨hpl.results, hpl.base, hpl.room, hpl.high, hc⟩, hsz hc⟩
  by_cases hc : s.confirming = true
  · have hn : (s.sending now size).probesLeft = 0 := if_pos hc
    have ho : s.probesLeft = 1 := (if_pos hc).trans (if_pos hpending)
    omega
  · have hrm := (hu.placed hs (Bool.of_not_eq_true hc)).1.room
    have ha : (s.sending now size).probesLeft = s.roundsLeft - (s.candidateTries + 1) := if_neg hc
    have hb : s.probesLeft = s.roundsLeft - s.candidateTries := if_neg hc
    have hm : 4 ≤ s.roundsLeft := by
      unfold roundsLeft
      omega
    omega

theorem Underway.send (now abortAt : Time) {actual : UInt32} (hsd : s.Sendable actual) :
    (s.send now abortAt actual).searching = true → Underway (s.send now abortAt actual) ∧
      (s.send now abortAt actual).probesLeft + 1 ≤ s.probesLeft := by
  have hsa := searching_of_pending s hpending
  rcases send_cases hpending now abortAt actual with ⟨-, heq⟩ | ⟨_, heq⟩
  · rw [heq]
    refine fun _ => hu.sending hpending now fun hc => ⟨(hsd hc).1, ?_⟩
    exact Nat.lt_of_le_of_lt (UInt32.le_iff_toNat_le.mp (hsd hc).2) (hu.placed hsa hc).2.2
  · rw [heq]
    obtain ⟨hse, hl⟩ := hu.sending hpending now fun hc => (hu.placed hsa hc).2
    intro hs
    obtain ⟨hun, hle⟩ := hse.failInFlight rfl true hs
    exact ⟨hun, Nat.le_trans (Nat.succ_le_succ hle) hl⟩

end Sending

/-! ### One probe at a time -/

theorem Settles.same_round (h : Settles now s t) :
    t = { s with pending := true } ∨ s.results < t.results := by
  induction h with
  | probe => exact .inl rfl
  | @again s _ _ _ _ ih =>
    have ho : s.closed.opened.results = s.results + 1 := rfl
    rcases ih with rfl | _
    · exact .inr (Nat.lt_succ_self _)
    · exact .inr (by omega)
  | done =>
    right
    unfold State.decided
    split <;> exact Nat.lt_succ_self _

private theorem advance_same_round (s : State) (now : Time) :
    ((s.advance now).low = s.low ∧ (s.advance now).bad = s.bad) ∨
      s.results < (s.advance now).results := by
  rcases (advance_settles s now).same_round with heq | hlt
  · rw [heq]
    exact .inl ⟨rfl, rfl⟩
  · exact .inr hlt

/-- An acknowledged probe raises the lower bound, unless it ends the round. -/
theorem Underway.acknowledge_narrows (hu : Underway s) (hc : s.confirming = false)
    {attempt : UInt64} {size : UInt32} (hok : (s.acknowledge attempt size now).1 = true)
    (hrd : (s.acknowledge attempt size now).2.results = s.results) :
    s.low < (s.acknowledge attempt size now).2.low ∧
      (s.acknowledge attempt size now).2.bad = s.bad := by
  by_cases hm : s.inFlight = false ∨ attempt ≠ s.attempt ∨ size ≠ s.candidate
  · rw [State.acknowledge, if_pos hm] at hok
    cases hok
  have heq : s.acknowledge attempt size now = (true, { s with inFlight := false }.success now) := by
    unfold State.acknowledge
    rw [if_neg hm]
    dsimp only
    rw [if_neg (by rw [hc]; decide)]
  rw [heq] at hrd ⊢
  rw [not_or, Bool.not_eq_false] at hm
  obtain ⟨-, hl, -⟩ := hu.between hm.1 hc
  rcases advance_same_round { s with inFlight := false, low := s.candidate } now with hsm | hlt
  · exact ⟨UInt32.lt_of_lt_of_le hl (UInt32.le_of_eq hsm.1.symm), hsm.2⟩
  · exact absurd hrd (Nat.ne_of_gt hlt)

/-- A failed probe is tried again or lowers the upper bound, unless it ends the round. -/
theorem Underway.failInFlight_narrows (hu : Underway s) (hflight : s.inFlight = true)
    (hc : s.confirming = false) (definitive : Bool)
    (hrd : (s.failInFlight now definitive).results = s.results) :
    definitive = false ∧ s.candidateTries < searchAttemptLimit ∧
      s.failInFlight now definitive = { s with inFlight := false, pending := true } ∨
    (s.failInFlight now definitive).low = s.low ∧ (s.failInFlight now definitive).bad ≠ 0 ∧
      (s.bad = 0 ∨ (s.failInFlight now definitive).bad < s.bad) := by
  have heq : s.failInFlight now definitive = { s with inFlight := false }.failure now definitive :=
    if_neg (by rw [hc]; decide)
  rw [heq] at hrd ⊢
  unfold State.failure at hrd ⊢
  split_ifs at hrd ⊢ with hr
  · exact .inl ⟨hr.1, hr.2, rfl⟩
  obtain ⟨-, hl, hhi⟩ := hu.between hflight hc
  rcases advance_same_round { s with inFlight := false, bad := s.candidate } now with hsm | hlt
  · have hb : ({ s with inFlight := false, bad := s.candidate }.advance now).bad = s.candidate :=
      hsm.2
    rw [hb]
    refine .inr ⟨hsm.1, ne_zero_of_lt hl, ?_⟩
    by_cases hz : s.bad = 0
    · exact .inl hz
    · rw [high, if_neg hz] at hhi
      exact .inr (UInt32.lt_iff_toNat_lt.mpr hhi)
  · exact absurd hrd (Nat.ne_of_gt hlt)

/-! ### Whole searches -/

theorem startSearch_underway (hb : s.config.base ≤ s.config.ceiling) (now : Time)
    (refreshing : Bool) (hs : (s.startSearch now refreshing).searching = true) :
    Underway (s.startSearch now refreshing) ∧
      (s.startSearch now refreshing).probesLeft ≤ 9 * s.config.width + 1 := by
  revert hs
  unfold State.startSearch
  extract_lets t
  intro hs
  split at hs
  · cases hs
  rename_i hne
  rw [if_neg hne]
  rw [beginRound_eq] at hs ⊢
  obtain ⟨hpl, hw, hc⟩ := opened_placed (s := t) (Nat.zero_lt_succ 2) hb rfl
  have hse := resume_settles now t.opened 2 (by omega)
  obtain ⟨hpa, hl⟩ := hse.paced hb hpl hc rfl rfl
  refine ⟨⟨hpa, hse.final rfl⟩, Nat.le_trans (hl hs) ?_⟩
  unfold roundsLeft
  rw [hw]
  have hr : t.opened.results = 0 := rfl
  have hcf : t.opened.config = s.config := rfl
  have hc' : t.config = s.config := rfl
  rw [hr, hcf, hc']
  omega

/-- A stretch of a search in which `n` probes are sent, none of them at its lower bound. -/
inductive Probes : State → ℕ → State → Prop
  | nil {s : State} : Probes s 0 s
  | send {s t : State} {n : ℕ} (now abortAt : Time) (actual : UInt32) : Probes s n t →
    t.pending = true → t.Sendable actual → Probes s (n + 1) (t.send now abortAt actual)
  | answer {s t : State} {n : ℕ} (c : Call) : Probes s n t → t.searching = true →
    c.answers = true → Probes s n (t.call c)

theorem Underway.call (hu : Underway s) (hs : s.searching = true) {c : Call}
    (hc : c.answers = true) : Answered s (s.call c) := by
  have ha := s.call_acts c
  generalize s.call c = t at ha ⊢
  cases ha with
  | noted =>
    exact fun _ => ⟨⟨⟨hu.bounds, hu.single, fun h1 h2 => ⟨⟨(hu.placed h1 h2).1.results,
      (hu.placed h1 h2).1.base, (hu.placed h1 h2).1.room, (hu.placed h1 h2).1.high, h2⟩,
      (hu.placed h1 h2).2⟩, hu.tries, hu.retry⟩, hu.final⟩, Nat.le_refl _⟩
  | searched _ _ _ hid => exact absurd ((hid hc).symm.trans hs) (by decide)
  | confirms _ hid => exact absurd (hid.symm.trans hs) (by decide)
  | fell | sent | sized => cases hc
  | acked _ hflight => exact hu.succeed hflight
  | failed _ definitive hflight => exact hu.failInFlight hflight definitive

/-- The probes sent and those to come stay within the bound of the start. -/
theorem Probes.bounded {n : ℕ} (h : Probes s n t) (hu : s.searching = true → Underway s) :
    (t.searching = true → Underway t ∧ n + t.probesLeft ≤ s.probesLeft) ∧
      (n ≤ s.probesLeft ∨ n = 0) := by
  induction h with
  | nil => exact ⟨fun hs => ⟨hu hs, by omega⟩, .inr rfl⟩
  | send now abortAt _ _ hpending hsd ih =>
    obtain ⟨hun, _⟩ := ih.1 (searching_of_pending _ hpending)
    have ho := (hun.sending hpending now fun hc =>
      (hun.placed (searching_of_pending _ hpending) hc).2).2
    refine ⟨fun hs => ?_, .inl (by omega)⟩
    obtain ⟨hu', _⟩ := hun.send hpending now abortAt hsd hs
    exact ⟨hu', by omega⟩
  | answer _ _ hs hc ih =>
    obtain ⟨hun, _⟩ := ih.1 hs
    refine ⟨fun hs' => ?_, ih.2⟩
    obtain ⟨hu', _⟩ := hun.call hs hc hs'
    exact ⟨hu', by omega⟩

end State
end WgFrag.Control.Pmtu
