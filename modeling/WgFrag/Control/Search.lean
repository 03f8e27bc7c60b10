import WgFrag.Control.Pmtu

/-! The rounds of the carrier payload search, and what holds after any sequence of calls on a
search: the confirmed size is BASE or was acknowledged, and it falls back to BASE only. -/
namespace WgFrag.Control.Pmtu
open List
variable {s : State}
namespace State
variable {s t : State} {now : Time}

/-- What opening and closing rounds leaves alone. -/
structure Frame (s t : State) : Prop where
  config : t.config = s.config
  confirmed : t.confirmed = s.confirmed
  confirmFailures : t.confirmFailures = s.confirmFailures

theorem Settles.frame (h : Settles now s t) : Frame s t := by
  induction h with
  | probe => exact ⟨rfl, rfl, rfl⟩
  | again _ _ _ ih => exact ⟨ih.config, ih.confirmed, ih.confirmFailures⟩
  | done =>
    unfold decided
    split <;> exact ⟨rfl, rfl, rfl⟩

end State

/-! ### Sizes that were earned -/

/-- A size in bounds that is BASE or was acknowledged. -/
structure Earned (c : Config) (acked : List UInt32) (x : UInt32) : Prop where
  within : c.Within x
  known : x = c.base ∨ x ∈ acked

theorem Earned.mono {c : Config} {acked acked' : List UInt32} {x : UInt32}
    (h : Earned c acked x) (hs : acked ⊆ acked') : Earned c acked' x :=
  ⟨h.within, h.known.imp_right fun hx => hs hx⟩

theorem median_cases (a b c : UInt32) : median a b c = a ∨ median a b c = b ∨ median a b c = c := by
  unfold median
  by_cases hab : b < a
  · simp only [if_pos hab]
    split_ifs <;> simp
  · simp only [if_neg hab]
    split_ifs <;> simp

namespace State
variable {s t : State} {now : Time} {acked : List UInt32}

theorem canonicalCandidate_within (s : State) (payload : UInt32) :
    s.canonicalCandidate payload = 0 ∨ s.config.Within (s.canonicalCandidate payload) := by
  unfold canonicalCandidate
  extract_lets candidate
  split
  · exact .inl rfl
  · next h =>
    rw [not_or, UInt32.not_lt, UInt32.not_lt] at h
    exact .inr h

theorem nextCandidate_within (s : State) :
    s.nextCandidate = 0 ∨ s.config.Within s.nextCandidate := by
  unfold nextCandidate
  extract_lets mid double first
  split_ifs
  · exact .inl rfl
  · exact canonicalCandidate_within s _
  · exact .inl rfl
  · exact .inl rfl
  · exact canonicalCandidate_within s _

structure InRound (acked : List UInt32) (s : State) : Prop where
  results : s.results < 3
  low : Earned s.config acked s.low
  rounds : ∀ i < s.results, Earned s.config acked (s.round i)
  confirming : s.confirming = false
  confirmation : s.confirmationCandidate = 0

structure Sound (acked : List UInt32) (s : State) : Prop where
  length : s.rounds.length = 3
  panicked : s.panicked = false
  confirmed : Earned s.config acked s.confirmed
  candidate : s.searching = true → s.config.Within s.candidate
  round : s.searching = true → s.confirming = false → InRound acked s
  confirmation : s.confirmationCandidate ≠ 0 →
    s.confirmed < s.confirmationCandidate ∧ Earned s.config acked s.confirmationCandidate

/-- A round in which a candidate was chosen, zero to end it. -/
structure Chosen (acked : List UInt32) (s : State) : Prop extends InRound acked s where
  length : s.rounds.length = 3
  panicked : s.panicked = false
  confirmed : Earned s.config acked s.confirmed
  candidate : s.candidate = 0 ∨ s.config.Within s.candidate
  inFlight : s.inFlight = false

theorem Sound.base (h : Sound acked s) : Earned s.config acked s.config.base :=
  ⟨⟨UInt32.le_refl _, UInt32.le_trans h.confirmed.within.1 h.confirmed.within.2⟩, .inl rfl⟩

theorem Sound.mono {acked' : List UInt32} (h : Sound acked s) (hsu : acked ⊆ acked') :
    Sound acked' s := by
  refine ⟨h.length, h.panicked, h.confirmed.mono hsu, h.candidate, fun hs hc => ?_, fun hne => ?_⟩
  · have hrd := h.round hs hc
    exact ⟨hrd.results, hrd.low.mono hsu, fun i hi => (hrd.rounds i hi).mono hsu,
      hrd.confirming, hrd.confirmation⟩
  · exact ⟨(h.confirmation hne).1, (h.confirmation hne).2.mono hsu⟩

theorem searching_of_inFlight (s : State) (h : s.inFlight = true) : s.searching = true := by
  unfold searching
  rw [h, Bool.or_true]

theorem searching_of_pending (s : State) (h : s.pending = true) : s.searching = true := by
  unfold searching
  rw [h, Bool.true_or]

theorem Sound.of_idle (hlen : s.rounds.length = 3) (hp : s.panicked = false)
    (hco : Earned s.config acked s.confirmed) (hpe : s.pending = false)
    (hf : s.inFlight = false) (hc : s.confirmationCandidate = 0) : Sound acked s := by
  have hid : s.searching ≠ true := by
    unfold searching
    rw [hpe, hf]
    decide
  exact ⟨hlen, hp, hco, fun h => absurd h hid, fun h => absurd h hid, fun h => absurd hc h⟩

theorem InRound.copy (h : InRound acked s) (hc : t.config = s.config) (hl : t.low = s.low)
    (hro : t.rounds = s.rounds) (hr : t.results = s.results) (hcn : t.confirming = s.confirming)
    (hco : t.confirmationCandidate = s.confirmationCandidate) : InRound acked t := by
  refine ⟨hr ▸ h.results, ?_, ?_, hcn ▸ h.confirming, hco ▸ h.confirmation⟩
  · rw [hc, hl]
    exact h.low
  · unfold round
    rw [hc, hro, hr]
    exact h.rounds

private theorem closed_round (h : s.rounds.length = 3) (hr : s.results < 3) (i : ℕ) :
    s.closed.round i = if i = s.results then s.low else s.round i := by
  unfold round closed
  simp only [getD_eq_getElem?_getD, getElem?_set]
  split
  · next heq =>
    subst heq
    rw [if_pos rfl, if_pos (by omega)]
    rfl
  · next hne => rw [if_neg (fun heq => hne heq.symm)]

section Closed
variable {p : UInt32 → Prop}

theorem rounds_closed (hlen : s.rounds.length = 3) (hr : s.results < 3) (hl : p s.low)
    (h : ∀ i < s.results, p (s.round i)) : ∀ i < s.closed.results, p (s.closed.round i) := by
  intro i hi
  rw [closed_round hlen hr]
  split
  · exact hl
  · next hne =>
    have : i < s.results + 1 := hi
    exact h i (by omega)

/-- The verdict is the result of a round. -/
theorem verdict_closed (hu : ¬ s.closed.Undecided)
    (h : ∀ i < s.closed.results, p (s.closed.round i)) : p s.closed.verdict := by
  unfold State.verdict
  have hr : s.closed.results = s.results + 1 := rfl
  have hma : s.closed.results ≠ 1 := fun h1 => hu (.inl h1)
  split
  · exact h _ (by omega)
  rcases median_cases (s.closed.round 0) (s.closed.round 1) (s.closed.round 2) with hm | hm | hm
  · rw [hm]
    exact h _ (by omega)
  · rw [hm]
    exact h _ (by omega)
  · rw [hm]
    exact h _ (by omega)

end Closed

theorem Chosen.rounds_closed (h : Chosen acked s) :
    ∀ i < s.closed.results, Earned s.config acked (s.closed.round i) :=
  State.rounds_closed h.length h.results h.low h.rounds

theorem Chosen.panicked_closed (h : Chosen acked s) : s.closed.panicked = false := by
  have hr := h.results
  have hlen := h.length
  unfold closed
  simp only [h.panicked, Bool.false_or, decide_eq_false_iff_not]
  omega

theorem Chosen.again (h : Chosen acked s) (hu : s.closed.Undecided) :
    Chosen acked s.closed.opened := by
  refine ⟨⟨?_, ⟨⟨UInt32.le_refl _, ?_⟩, .inl rfl⟩, h.rounds_closed, h.confirming,
    h.confirmation⟩, ?_, h.panicked_closed, h.confirmed, ?_, rfl⟩
  · have hr : s.closed.opened.results = s.closed.results := rfl
    rcases hu with _ | ⟨_, -⟩ <;> omega
  · exact UInt32.le_trans h.confirmed.within.1 h.confirmed.within.2
  · show (s.rounds.set s.results s.low).length = 3
    rw [length_set]
    exact h.length
  · show (if _ then _ else _) = (0 : UInt32) ∨ _
    unfold opened
    dsimp only
    split
    · exact canonicalCandidate_within s.closed _
    · exact nextCandidate_within _

theorem Chosen.decided (h : Chosen acked s) (hu : ¬ s.closed.Undecided) :
    Sound acked (s.closed.decided now) := by
  have hlen : s.closed.rounds.length = 3 := by
    show (s.rounds.set s.results s.low).length = 3
    rw [length_set]
    exact h.length
  have hv := verdict_closed hu h.rounds_closed
  unfold State.decided
  split
  · next hlt =>
    exact ⟨hlen, h.panicked_closed, h.confirmed, fun _ => hv.within, nofun, fun _ => ⟨hlt, hv⟩⟩
  · exact .of_idle hlen h.panicked_closed h.confirmed rfl rfl h.confirmation

theorem Settles.sound (h : Settles now s t) (hc : Chosen acked s) :
    Sound acked t ∧ t.inFlight = false := by
  induction h with
  | probe hne =>
    have hw := hc.candidate.resolve_left hne
    refine ⟨⟨hc.length, hc.panicked, hc.confirmed, fun _ => hw, fun _ _ => ?_, fun h => ?_⟩,
      hc.inFlight⟩
    · exact ⟨hc.results, hc.low, hc.rounds, hc.confirming, hc.confirmation⟩
    · exact absurd hc.confirmation h
  | again _ hu _ ih => exact ih (hc.again hu)
  | @done _ _ hu =>
    refine ⟨hc.decided hu, ?_⟩
    unfold State.decided
    split <;> rfl

theorem Sound.advance (h : Sound acked s) (hrd : InRound acked s) (hf : s.inFlight = false) :
    Sound acked (s.advance now) ∧ (s.advance now).inFlight = false := by
  refine (advance_settles s now).sound ⟨⟨hrd.results, hrd.low, hrd.rounds,
    hrd.confirming, hrd.confirmation⟩, h.length, h.panicked, h.confirmed, ?_, hf⟩
  exact nextCandidate_within s

theorem advance_frame (s : State) (now : Time) : Frame s (s.advance now) := by
  have h := (advance_settles s now).frame
  exact ⟨h.config, h.confirmed, h.confirmFailures⟩

theorem Sound.startSearch (h : Sound acked s) (refreshing : Bool) :
    Sound acked (s.startSearch now refreshing) ∧ (s.startSearch now refreshing).inFlight = false := by
  have hb := h.base
  unfold State.startSearch
  extract_lets t
  split
  · exact ⟨.of_idle h.length h.panicked hb rfl rfl rfl, rfl⟩
  rw [beginRound_eq]
  refine (resume_settles now _ 2 (by omega)).sound ⟨⟨Nat.zero_lt_succ 2, hb, fun i hi => ?_, rfl,
    rfl⟩, h.length, h.panicked, h.confirmed, ?_, rfl⟩
  · exact absurd hi (Nat.not_lt_zero i)
  unfold opened
  dsimp only
  split
  · exact canonicalCandidate_within t _
  · exact nextCandidate_within _

theorem Sound.startSearch_confirmed (h : Sound acked s) (refreshing : Bool) :
    (s.startSearch now refreshing).config = s.config ∧
      (s.startSearch now refreshing).confirmed = s.confirmed ∧
      (s.startSearch now refreshing).confirmFailures = 0 := by
  unfold State.startSearch
  extract_lets t
  split
  · next heq =>
    have heq' : s.config.ceiling = s.config.base := heq
    have hle := h.confirmed.within.2
    rw [heq'] at hle
    exact ⟨rfl, UInt32.le_antisymm h.confirmed.within.1 hle, rfl⟩
  · rw [beginRound_eq]
    have hfr := (resume_settles now t.opened 2 (by omega)).frame
    exact ⟨hfr.config, hfr.confirmed, hfr.confirmFailures⟩

theorem Sound.hinted (h : Sound acked s) (hint : UInt32) :
    Sound acked { s with searchHint := hint } :=
  ⟨h.length, h.panicked, h.confirmed, h.candidate,
    fun hs hc => (h.round hs hc).copy rfl rfl rfl rfl rfl rfl, h.confirmation⟩

theorem Sound.fallen (h : Sound acked s) : Sound acked { s with confirmed := s.config.base } := by
  refine ⟨h.length, h.panicked, h.base, h.candidate,
    fun hs hc => (h.round hs hc).copy rfl rfl rfl rfl rfl rfl, fun hne => ?_⟩
  obtain ⟨hlt, he⟩ := h.confirmation hne
  exact ⟨UInt32.lt_of_le_of_lt h.confirmed.within.1 hlt, he⟩

theorem Sound.start (h : Sound acked s) :
    Sound acked (s.start now) ∧ (s.start now).inFlight = false ∧
      (s.start now).config = s.config ∧ (s.start now).confirmed = s.confirmed ∧
      (s.start now).confirmFailures = 0 := by
  have hs := h.hinted 0
  exact ⟨(hs.startSearch false).1, (hs.startSearch false).2, hs.startSearch_confirmed false⟩

end State

/-! ### Calls -/

/-- A search start, or how a confirmation ended. -/
inductive Outcome where
  | started
  | succeeded
  | failed
  deriving DecidableEq, Repr

/-- What was seen of a search: the probe last emitted, with the size at which it was sent, the
sizes of the probes that were acknowledged, and the outcomes, the latest first. -/
structure History where
  emitted : Option Probe := none
  acknowledged : List UInt32 := []
  outcomes : List Outcome := []

namespace History

def started (h : History) : History := { h with outcomes := .started :: h.outcomes }

def succeeded (h : History) (s : State) (size : UInt32) : History :=
  { h with
    acknowledged := size :: h.acknowledged
    outcomes := if s.confirming then .succeeded :: h.outcomes else h.outcomes }

/-- The last failure of a confirmation that is forgiven starts a search. -/
def failed (h : History) (s : State) : History :=
  if ¬ s.confirming then h
  else if s.confirmationCandidate = 0 ∧ s.confirmFailures + 1 = confirmationFailureLimit then
    { h with outcomes := .started :: .failed :: h.outcomes }
  else { h with outcomes := .failed :: h.outcomes }

def record (h : History) (s : State) : Call → History
  | .start _ => h.started
  | .startWithHint _ _ => h.started
  | .reportBlackhole _ => h.started
  | .refreshDue now => if (s.refreshDue now).1 then h.started else h
  | .next now => { h with emitted := (s.next now).1.or h.emitted }
  | .adjustCurrent attempt size =>
    if (s.adjustCurrent attempt size).1 then { h with emitted := some ⟨attempt, size⟩ } else h
  | .acknowledge attempt size now =>
    if (s.acknowledge attempt size now).1 ∧ h.emitted = some ⟨attempt, size⟩ then
      h.succeeded s size
    else h
  | c => if s.fails c then h.failed s else h

end History

def runCalls : State × History → List Call → State × History
  | seen, [] => seen
  | (s, h), c :: calls => runCalls (s.call c, h.record s c) calls

/-- What was seen accounts for the state. -/
structure Traced (h : History) (s : State) : Prop where
  sound : s.Sound h.acknowledged
  emitted : s.inFlight = true → h.emitted = some ⟨s.attempt, s.candidate⟩
  failures : List.replicate s.confirmFailures .failed <+: h.outcomes
  few : s.confirmFailures < confirmationFailureLimit

theorem Traced.restarted {h : History} (hs : s.Sound h.acknowledged)
    (hfl : s.inFlight = false) (hf : s.confirmFailures = 0) : Traced h s := by
  refine ⟨hs, fun hin => ?_, ?_, ?_⟩
  · rw [hfl] at hin
    cases hin
  · rw [hf]
    exact nil_prefix
  · rw [hf]
    exact Nat.zero_lt_succ 2

section Step
variable {h : History} {s : State} {now : Time} (ht : Traced h s)
include ht

theorem Traced.startWithHint (hint : UInt32) : Traced h.started (s.startWithHint now hint) := by
  have hs := ht.sound.hinted hint
  exact .restarted (hs.startSearch false).1 (hs.startSearch false).2
    (hs.startSearch_confirmed false).2.2

theorem Traced.refreshDue :
    Traced (if (s.refreshDue now).1 then h.started else h) (s.refreshDue now).2 := by
  unfold State.refreshDue
  by_cases hid : s.searching ∨ s.nextRefresh = 0 ∨ now < s.nextRefresh
  · rw [if_pos hid]
    exact ht
  · rw [if_neg hid]
    exact .restarted (ht.sound.startSearch true).1 (ht.sound.startSearch true).2
      (ht.sound.startSearch_confirmed true).2.2

theorem Traced.confirmationDue : Traced h (s.confirmationDue now).2 := by
  unfold State.confirmationDue
  split
  · exact ht
  rename_i hid
  have hs := ht.sound
  rw [not_or] at hid
  have hf : s.inFlight = false := by
    have := hid.1
    unfold State.searching at this
    simp only [Bool.or_eq_true, not_or, Bool.not_eq_true] at this
    exact this.2
  refine ⟨⟨hs.length, hs.panicked, hs.confirmed, fun _ => hs.confirmed.within,
    nofun, fun hne => absurd rfl hne⟩, fun hin => ?_, ht.failures, ht.few⟩
  exact absurd (hf.symm.trans hin) (by decide)

theorem Traced.next : Traced { h with emitted := (s.next now).1.or h.emitted } (s.next now).2 := by
  unfold State.next
  by_cases hp : s.pending = false
  · rw [if_pos hp]
    exact ht
  rw [if_neg hp]
  have hs := ht.sound
  have hse := s.searching_of_pending (Bool.of_not_eq_false hp)
  refine ⟨⟨hs.length, hs.panicked, hs.confirmed, fun _ => hs.candidate hse,
    fun _ hc => ?_, hs.confirmation⟩, fun _ => rfl, ht.failures, ht.few⟩
  exact (hs.round hse hc).copy rfl rfl rfl rfl rfl rfl

theorem Traced.adjustCurrent (attempt : UInt64) (size : UInt32) :
    Traced (if (s.adjustCurrent attempt size).1 then { h with emitted := some ⟨attempt, size⟩ } else h)
      (s.adjustCurrent attempt size).2 := by
  unfold State.adjustCurrent
  by_cases hok : s.inFlight = false ∨ attempt ≠ s.attempt ∨ size < s.config.base ∨
      s.config.ceiling < size
  · rw [if_pos hok]
    exact ht
  rw [if_neg hok]
  have hs := ht.sound
  rw [not_or, not_or, not_or, not_not, UInt32.not_lt, UInt32.not_lt] at hok
  obtain ⟨-, rfl, hw⟩ := hok
  refine ⟨⟨hs.length, hs.panicked, hs.confirmed, fun _ => hw, fun h1 hc => ?_,
    hs.confirmation⟩, fun _ => rfl, ht.failures, ht.few⟩
  exact (hs.round h1 hc).copy rfl rfl rfl rfl rfl rfl

theorem Traced.landed {h' : History} {s' : State} (hs : s'.Sound h'.acknowledged)
    (hfl : s'.inFlight = false) (hf : s'.confirmFailures = s.confirmFailures)
    (ho : h'.outcomes = h.outcomes) : Traced h' s' := by
  refine ⟨hs, fun hin => ?_, ?_, ?_⟩
  · rw [hfl] at hin
    cases hin
  · rw [hf, ho]
    exact ht.failures
  · rw [hf]
    exact ht.few

theorem Traced.idle (hf : s.inFlight = true) : Traced h { s with inFlight := false } := by
  have hs := ht.sound
  have hse := s.searching_of_inFlight hf
  refine ht.landed ⟨hs.length, hs.panicked, hs.confirmed, fun _ => hs.candidate hse,
    fun _ hc => ?_, hs.confirmation⟩ rfl rfl rfl
  exact (hs.round hse hc).copy rfl rfl rfl rfl rfl rfl

theorem Traced.confirmSuccess (hf : s.inFlight = false) (size : UInt32) :
    Traced (h.succeeded s size) (s.confirmSuccess now) := by
  have hs : s.Sound (size :: h.acknowledged) := ht.sound.mono (subset_cons_self _ _)
  unfold State.confirmSuccess
  split
  · next hne =>
    exact .restarted (.of_idle hs.length hs.panicked (hs.confirmation hne).2 rfl hf rfl)
      hf rfl
  · next hz =>
    exact .restarted (.of_idle hs.length hs.panicked hs.confirmed rfl hf (not_not.mp hz))
      hf rfl

theorem Traced.success (hrd : s.InRound h.acknowledged) (hf : s.inFlight = false)
    (hw : s.config.Within s.candidate) : Traced (h.succeeded s s.candidate) (s.success now) := by
  have hs : s.Sound (s.candidate :: h.acknowledged) := ht.sound.mono (subset_cons_self _ _)
  have hrd' : State.InRound (s.candidate :: h.acknowledged) { s with low := s.candidate } :=
    ⟨hrd.results, ⟨hw, .inr (mem_cons_self ..)⟩,
      fun i hi => (hrd.rounds i hi).mono (subset_cons_self _ _), hrd.confirming,
      hrd.confirmation⟩
  have hs' : State.Sound (s.candidate :: h.acknowledged) { s with low := s.candidate } :=
    ⟨hs.length, hs.panicked, hs.confirmed, hs.candidate, fun _ _ => hrd', hs.confirmation⟩
  refine ht.landed (hs'.advance hrd' hf).1 (hs'.advance hrd' hf).2
    (State.advance_frame _ now).confirmFailures ?_
  unfold History.succeeded
  rw [hrd.confirming]
  rfl

theorem Traced.acknowledge (attempt : UInt64) (size : UInt32) :
    Traced (if (s.acknowledge attempt size now).1 ∧ h.emitted = some ⟨attempt, size⟩ then
      h.succeeded s size else h) (s.acknowledge attempt size now).2 := by
  unfold State.acknowledge
  by_cases hok : s.inFlight = false ∨ attempt ≠ s.attempt ∨ size ≠ s.candidate
  · rw [if_pos hok, if_neg (fun h => Bool.false_ne_true h.1)]
    exact ht
  rw [if_neg hok]
  rw [not_or, not_or, not_not, not_not, Bool.not_eq_false] at hok
  obtain ⟨hf, rfl, rfl⟩ := hok
  have hs := s.searching_of_inFlight hf
  rw [if_pos ⟨rfl, ht.emitted hf⟩]
  dsimp only
  split
  · exact (ht.idle hf).confirmSuccess rfl s.candidate
  rename_i hc
  have hrd := ht.sound.round hs (Bool.of_not_eq_true hc)
  exact (ht.idle hf).success (hrd.copy rfl rfl rfl rfl rfl rfl) rfl
    (ht.sound.candidate hs)

theorem Traced.confirmFailure (hc : s.confirming = true) (hf : s.inFlight = false) :
    Traced (h.failed s) (s.confirmFailure now) := by
  have hs := ht.sound
  have ha : (h.failed s).acknowledged = h.acknowledged := by
    unfold History.failed
    split_ifs <;> rfl
  unfold State.confirmFailure
  split
  · refine .restarted ?_ hf rfl
    rw [ha]
    exact .of_idle hs.length hs.panicked hs.confirmed rfl hf rfl
  · next hz =>
    have hz' := not_not.mp hz
    dsimp only
    split
    · next hlt =>
      have ho : (h.failed s).outcomes = .failed :: h.outcomes := by
        unfold History.failed
        rw [if_neg (by rw [hc]; decide), if_neg (fun hl => by omega)]
      refine ⟨?_, fun hin => ?_, ?_, hlt⟩
      · rw [ha]
        exact .of_idle hs.length hs.panicked hs.confirmed rfl hf hz'
      · exact absurd (hf.symm.trans hin) (by decide)
      · rw [ho]
        exact cons_prefix_cons.mpr ⟨rfl, ht.failures⟩
    · have hb : State.Sound h.acknowledged { s with
          confirming := false, pending := false, confirmFailures := s.confirmFailures + 1,
          confirmed := s.config.base, blackholed := true } :=
        .of_idle hs.length hs.panicked hs.base rfl hf hz'
      refine .restarted ?_ hb.start.2.1 hb.start.2.2.2.2
      rw [ha]
      exact hb.start.1

theorem Traced.failInFlight (hf : s.inFlight = true) (definitive : Bool) :
    Traced (h.failed s) (s.failInFlight now definitive) := by
  have ht' := ht.idle hf
  unfold State.failInFlight
  dsimp only
  split
  · next hc => exact ht'.confirmFailure hc rfl
  rename_i hc
  have hse := s.searching_of_inFlight hf
  have hrd := ht.sound.round hse (Bool.of_not_eq_true hc)
  have hs := ht'.sound
  have heq : h.failed s = h := if_pos hc
  rw [heq]
  unfold State.failure
  split
  · exact ht'.landed ⟨hs.length, hs.panicked, hs.confirmed, fun _ => ht.sound.candidate hse,
      fun _ _ => hrd.copy rfl rfl rfl rfl rfl rfl, hs.confirmation⟩ rfl rfl rfl
  · have hrd' : State.InRound h.acknowledged { s with inFlight := false, bad := s.candidate } :=
      hrd.copy rfl rfl rfl rfl rfl rfl
    have hs' : State.Sound h.acknowledged { s with inFlight := false, bad := s.candidate } :=
      ⟨hs.length, hs.panicked, hs.confirmed, hs.candidate, fun _ _ => hrd', hs.confirmation⟩
    exact ht'.landed (hs'.advance hrd' rfl).1 (hs'.advance hrd' rfl).2
      (State.advance_frame _ now).confirmFailures rfl

theorem Traced.reports {out : Bool × State} {definitive : Bool} (hr : s.Reports definitive out) :
    Traced (if out.1 then h.failed s else h) out.2 := by
  rcases hr with rfl | ⟨hf, _, rfl⟩
  · exact ht
  · exact ht.failInFlight hf definitive

theorem Traced.reportBlackhole : Traced h.started (s.reportBlackhole now) := by
  have hb := ht.sound.fallen
  exact .restarted hb.start.1 hb.start.2.1 hb.start.2.2.2.2

/-- The round-trip estimate and the event of a black hole are not part of the account. -/
theorem Traced.retouched (rtt : Duration) (blackholed : Bool) :
    Traced h { s with srtt := rtt, blackholed := blackholed } := by
  have hs := ht.sound
  exact ⟨⟨hs.length, hs.panicked, hs.confirmed, hs.candidate,
    fun h1 h2 => (hs.round h1 h2).copy rfl rfl rfl rfl rfl rfl, hs.confirmation⟩, ht.emitted,
    ht.failures, ht.few⟩

theorem Traced.observeRTT (sample : Duration) : Traced h (s.observeRTT sample) := by
  unfold State.observeRTT
  split
  · exact ht
  · split
    · exact ht.retouched sample s.blackholed
    · exact ht.retouched _ s.blackholed

theorem Traced.call (c : Call) : Traced (h.record s c) (s.call c) := by
  cases c with
  | start => exact ht.startWithHint 0
  | startWithHint _ hint => exact ht.startWithHint hint
  | refreshDue => exact ht.refreshDue
  | confirmationDue => exact ht.confirmationDue
  | next now => exact ht.next
  | adjustCurrent attempt size => exact ht.adjustCurrent attempt size
  | acknowledge attempt size => exact ht.acknowledge attempt size
  | fail attempt now => exact ht.reports (s.fail_reports now attempt)
  | failCurrent now => exact ht.reports (s.failCurrent_reports now)
  | softFailCurrent now => exact ht.reports (s.softFailCurrent_reports now)
  | tick now => exact ht.reports (s.tick_reports now)
  | reportBlackhole => exact ht.reportBlackhole
  | observeRTT sample => exact ht.observeRTT sample
  | takeBlackhole => exact ht.retouched s.srtt false

/-! ### The confirmed size -/

theorem Traced.failInFlight_confirmed (hfl : s.inFlight = true) (definitive : Bool) :
    (s.failInFlight now definitive).confirmed = s.confirmed ∨
      (s.failInFlight now definitive).confirmed = s.config.base ∧ s.confirming = true ∧
        [.failed, .failed] <+: h.outcomes := by
  have hs := (ht.idle hfl).sound
  unfold State.failInFlight
  dsimp only
  split
  · next hc =>
    unfold State.confirmFailure
    split
    · exact .inl rfl
    rename_i hz
    dsimp only
    split
    · exact .inl rfl
    rename_i hm
    have hb : State.Sound h.acknowledged { s with
        inFlight := false, confirming := false, pending := false,
        confirmFailures := s.confirmFailures + 1, confirmed := s.config.base,
        blackholed := true } :=
      .of_idle hs.length hs.panicked hs.base rfl rfl (not_not.mp hz)
    refine .inr ⟨hb.start.2.2.2.1, hc, ?_⟩
    have hfe := ht.few
    have htw : s.confirmFailures = 2 := by
      unfold confirmationFailureLimit at hfe hm
      omega
    have hf := ht.failures
    rw [htw] at hf
    exact hf
  · unfold State.failure
    split
    · exact .inl rfl
    · exact .inl (State.advance_frame _ now).confirmed

theorem Traced.succeed_confirmed : s.confirmed ≤ (s.succeed now).confirmed := by
  unfold State.succeed
  dsimp only
  split
  · unfold State.confirmSuccess
    split
    · next hne => exact UInt32.le_of_lt (ht.sound.confirmation hne).1
    · exact UInt32.le_refl _
  · rw [State.success, (State.advance_frame _ now).confirmed]
    exact UInt32.le_refl _

/-- The confirmed size falls to BASE only, on a black hole or the third failure in a row. -/
theorem Traced.call_confirmed (c : Call) : s.confirmed ≤ (s.call c).confirmed ∨
    (s.call c).confirmed = s.config.base ∧ ((∃ now, c = .reportBlackhole now) ∨
      s.fails c = true ∧ s.confirming = true ∧ [.failed, .failed] <+: h.outcomes) := by
  have hs := ht.sound
  have ha := s.call_acts c
  generalize s.call c = t at ha ⊢
  cases ha with
  | noted | confirms | sent | sized => exact .inl (UInt32.le_refl _)
  | searched now hint refreshing =>
    exact .inl (UInt32.le_of_eq ((hs.hinted hint).startSearch_confirmed refreshing).2.1.symm)
  | fell now => exact .inr ⟨hs.fallen.start.2.2.2.1, .inl ⟨now, rfl⟩⟩
  | acked => exact .inl ht.succeed_confirmed
  | failed now definitive hfl hf =>
    rcases ht.failInFlight_confirmed hfl definitive with heq | ⟨hb, hr⟩
    · exact .inl (UInt32.le_of_eq heq.symm)
    · exact .inr ⟨hb, .inr ⟨hf, hr⟩⟩

end Step

/-! ### Runs -/

theorem State.call_config (s : State) (c : Call) : (s.call c).config = s.config :=
  (s.call_evolves c).config

theorem runCalls_traced {h h' : History} {s' : State} {calls : List Call} (ht : Traced h s)
    (hrun : runCalls (s, h) calls = (s', h')) : Traced h' s' ∧ s'.config = s.config := by
  induction calls generalizing s h with
  | nil =>
    obtain ⟨rfl, rfl⟩ := Prod.mk.inj hrun
    exact ⟨ht, rfl⟩
  | cons c _ ih =>
    obtain ⟨ht', hc⟩ := ih (ht.call c) hrun
    exact ⟨ht', hc.trans (s.call_config c)⟩

theorem new_traced {config : Config} (hn : State.new config = some s) :
    Traced {} s ∧ s.config = config := by
  unfold State.new at hn
  split_ifs at hn with hv
  cases hn
  exact ⟨.restarted (.of_idle rfl rfl ⟨⟨UInt32.le_refl _, hv.2.1⟩, .inl rfl⟩ rfl rfl rfl) rfl
    rfl, rfl⟩

section Sound
variable {config : Config} {s₀ s : State} {h : History} {calls : List Call}

/-- After any calls, the confirmed size is in bounds and is BASE or the size of a probe that was
acknowledged; it falls only to BASE, on a black hole or a third failure in a row; what does not
match the probe in flight changes nothing; and no round is written out of range. -/
theorem runCalls_sound (hnew : State.new config = some s₀)
    (hrun : runCalls (s₀, {}) calls = (s, h)) :
    (config.base ≤ s.confirmed ∧ s.confirmed ≤ config.ceiling) ∧
    (s.confirmed = config.base ∨ s.confirmed ∈ h.acknowledged) ∧
    (∀ c, (s.call c).confirmed < s.confirmed → (s.call c).confirmed = config.base ∧
      ((∃ now, c = .reportBlackhole now) ∨
        s.fails c = true ∧ s.confirming = true ∧ [.failed, .failed] <+: h.outcomes)) ∧
    (∀ attempt size now, s.outstanding ≠ some ⟨attempt, size⟩ →
      s.acknowledge attempt size now = (false, s)) ∧
    (∀ attempt now, s.outstanding.map Probe.attempt ≠ some attempt →
      s.fail attempt now = (false, s)) ∧
    (s.outstanding = none → ∀ now, s.failCurrent now = (false, s) ∧
      s.softFailCurrent now = (false, s) ∧ s.tick now = (false, s)) ∧
    s.panicked = false := by
  obtain ⟨ht₀, hcfg₀⟩ := new_traced hnew
  obtain ⟨ht, hcfg⟩ := runCalls_traced ht₀ hrun
  have hs := ht.sound
  rw [hcfg₀] at hcfg
  subst hcfg
  refine ⟨hs.confirmed.within, hs.confirmed.known, fun c hlt => ?_, fun attempt size now hne => ?_,
    fun attempt now hne => ?_, fun hnone now => ?_, hs.panicked⟩
  · rcases ht.call_confirmed c with hle | hfall
    · exact absurd hlt (UInt32.not_lt.mpr hle)
    · exact hfall
  · refine if_pos ?_
    by_contra hmat
    rw [not_or, not_or, not_not, not_not, Bool.not_eq_false] at hmat
    obtain ⟨hfli, rfl, rfl⟩ := hmat
    exact hne (if_pos hfli)
  · refine if_pos ?_
    by_contra hmat
    rw [not_or, not_not, Bool.not_eq_false] at hmat
    obtain ⟨hfli, rfl⟩ := hmat
    refine hne ?_
    rw [State.outstanding, if_pos hfli]
    rfl
  · have hfli : s.inFlight = false := by
      by_contra hfli
      rw [State.outstanding, if_pos (Bool.of_not_eq_false hfli)] at hnone
      cases hnone
    exact ⟨if_pos hfli, if_pos hfli, if_pos (.inl hfli)⟩

end Sound

def sampleSearch : Config where
  base := 1400
  ceiling := 1500
  canonicalize := none
  probeTimeout := 1000 * millisecond
  refreshInterval := 600 * second
  confirmationInterval := 60 * second

/-- A search whose hint is acknowledged, at the size it was sent. -/
def sampleSearchCalls : List Call :=
  [.startWithHint 1 1450, .next 2, .adjustCurrent 1 1449, .acknowledge 1 1449 3]

theorem runCalls_sound_sample : ∃ s₀ s h, State.new sampleSearch = some s₀ ∧
    runCalls (s₀, {}) sampleSearchCalls = (s, h) ∧ h.acknowledged = [1449] ∧
    s.panicked = false := by
  obtain ⟨s₀, hnew⟩ : ∃ s₀, State.new sampleSearch = some s₀ := ⟨_, rfl⟩
  cases hrun : runCalls (s₀, {}) sampleSearchCalls with
  | mk s h =>
    refine ⟨s₀, s, h, hnew, hrun, ?_, (runCalls_sound hnew hrun).2.2.2.2.2.2⟩
    cases hnew
    cases hrun
    rfl

end WgFrag.Control.Pmtu
