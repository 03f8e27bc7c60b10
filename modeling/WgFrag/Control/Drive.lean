import WgFrag.Control.Exact
import WgFrag.Control.Padding

/-! The carrier payload search as the engine drives it: every probe is sent as the frame that
`marshal` builds for it. -/
namespace WgFrag.Control
open WgFrag.Lib WgFrag.Wire Engine List
open Pmtu (canonicalCarrierPayload)

/-- The size at which a candidate is sent. -/
def probeSize (P : Proto) (e : Engine) (epoch messageID : UInt64) (target : UInt32) : UInt32 :=
  match marshal P e (bareProbe epoch messageID) target with
  | .ok frame => UInt32.ofNat frame.length
  | .error _ => target

theorem probeSize_toNat {P : Proto} (hP : Proto.SizesProbes P) {e : Engine} {target : UInt32}
    (hlow : 613 ≤ target.toNat) (hhigh : target.toNat ≤ 65535)
    (hmax : target.toNat ≤ e.codec.maxFrameSize) (epoch messageID : UInt64) :
    (probeSize P e epoch messageID target).toNat = probeLength epoch messageID target.toNat := by
  obtain ⟨_, hfr, hlen⟩ := marshal_probe hP hlow hhigh hmax epoch messageID
  unfold probeSize
  rw [hfr]
  rw [UInt32.toNat_ofNat', hlen]
  have : probeLength epoch messageID target.toNat ≤ target.toNat := by
    unfold probeLength
    split_ifs <;> omega
  exact Nat.mod_eq_of_lt (by have := target.toNat_lt; omega)

/-! ### Runs of a search -/

namespace Pmtu
variable {s : State}
/-- What happens to a search: its next probe is built and sent, or something is reported to it. -/
inductive DriveEvent where
  | emit (epoch messageID : UInt64) (now abortAt : Time)
  | answer (c : Call)

/-- Every event but a new start of the search. -/
def DriveEvent.Continues : DriveEvent → Prop
  | .emit _ _ _ _ => True
  | .answer c => c.answers = true

/-- The probe of a round is not built right above the lower bound at the size that frames skip. -/
def State.Avoids (s : State) : DriveEvent → Prop
  | .emit epoch messageID _ _ => s.pending = true → s.confirming = false →
    s.candidate.toNat = s.low.toNat + 1 →
    s.candidate.toNat ≠ probeOverhead epoch messageID + 16386
  | .answer _ => True

section Drive
variable (P : Proto) (e : Engine)

def State.drive (s : State) : DriveEvent → State
  | .emit epoch messageID now abortAt =>
    s.send now abortAt (probeSize P e epoch messageID s.candidate)
  | .answer c => s.call c

def State.emits (s : State) : DriveEvent → ℕ
  | .emit _ _ _ _ => if s.pending then 1 else 0
  | .answer _ => 0

def State.driveAll (s : State) : List DriveEvent → State
  | [] => s
  | ev :: events => (s.drive P e ev).driveAll events

def State.emitsAll (s : State) : List DriveEvent → ℕ
  | [] => 0
  | ev :: events => s.emits ev + (s.drive P e ev).emitsAll events

/-- The search is on before each event, and no other is started. -/
def State.Running (s : State) : List DriveEvent → Prop
  | [] => True
  | ev :: events => s.searching = true ∧ ev.Continues ∧ (s.drive P e ev).Running events

def State.AvoidsAll (s : State) : List DriveEvent → Prop
  | [] => True
  | ev :: events => s.Avoids ev ∧ (s.drive P e ev).AvoidsAll events

/-- An answer to the probe of a round narrows the interval or ends the round. Only a timeout may
ask for the probe again. -/
structure Narrows (s : State) : Prop where
  acknowledged : ∀ attempt size now, (s.acknowledge attempt size now).1 = true →
    (s.acknowledge attempt size now).2.results = s.results →
    s.low < (s.acknowledge attempt size now).2.low ∧
      (s.acknowledge attempt size now).2.bad = s.bad
  failed : ∀ c, s.fails c = true → (s.call c).results = s.results →
    c.definitive = false ∧ s.candidateTries < searchAttemptLimit ∧
      s.call c = { s with inFlight := false, pending := true } ∨
    (s.call c).low = s.low ∧ (s.call c).bad ≠ 0 ∧ (s.bad = 0 ∨ (s.call c).bad < s.bad)

end Drive

section Drive
variable {P : Proto} (hP : Proto.SizesProbes P) {e : Engine} {s₀ s : State} {n : ℕ}

theorem State.Underway.narrows (hu : s.Underway) (hc : s.confirming = false) : Narrows s := by
  refine ⟨fun attempt size now hok hrd => hu.acknowledge_narrows hc hok hrd, fun c hok hrd => ?_⟩
  obtain ⟨hf, now, heq⟩ := State.fails_reports hok
  rw [heq] at hrd ⊢
  exact hu.failInFlight_narrows hf hc c.definitive hrd

include hP

/-- The frame of a probe is at most one byte shorter than its candidate. -/
theorem State.Avoids.sendable (hu : s.Underway) (hbase : 613 ≤ s.config.base.toNat)
    (hceiling : s.config.ceiling.toNat ≤ 65535)
    (hmax : s.config.ceiling.toNat ≤ e.codec.maxFrameSize) (hp : s.pending = true)
    {epoch messageID : UInt64} {now abortAt : Time}
    (ha : s.Avoids (.emit epoch messageID now abortAt)) :
    s.Sendable (probeSize P e epoch messageID s.candidate) := by
  intro hc
  obtain ⟨hpl, hlow, hhigh⟩ := hu.placed (searching_of_pending s hp) hc
  have hle := hpl.high
  have hb := UInt32.le_iff_toNat_le.mp hpl.base
  have hl := UInt32.lt_iff_toNat_lt.mp hlow
  have hne := ha hp hc
  rw [UInt32.lt_iff_toNat_lt, UInt32.le_iff_toNat_le,
    probeSize_toNat hP (by omega) (by omega) (by omega), probeLength]
  split_ifs with hskip
  · have := fun h => hne h hskip
    omega
  · exact ⟨hl, Nat.le_refl _⟩

omit hP in
theorem State.send_config (s : State) (now abortAt : Time) (actual : UInt32) :
    (s.send now abortAt actual).config = s.config := by
  by_cases hp : s.pending = true
  · rcases send_cases hp now abortAt actual with ⟨-, heq⟩ | ⟨-, heq⟩
    · rw [heq]
      rfl
    · rw [heq]
      exact (failInFlight_evolves _ abortAt true).config
  · rw [send_idle (Bool.of_not_eq_true hp)]

omit hP in
theorem State.drive_config (s : State) (P : Proto) (e : Engine) (ev : DriveEvent) :
    (s.drive P e ev).config = s.config := by
  cases ev with
  | emit _ _ now abortAt => exact s.send_config now abortAt _
  | answer c => exact s.call_config c

theorem State.driveAll_probes {events : List DriveEvent} (hpr : Probes s₀ n s)
    (hu : s₀.searching = true → s₀.Underway) (hbase : 613 ≤ s.config.base.toNat)
    (hceiling : s.config.ceiling.toNat ≤ 65535)
    (hmax : s.config.ceiling.toNat ≤ e.codec.maxFrameSize) (hrun : s.Running P e events)
    (hav : s.AvoidsAll P e events) :
    Probes s₀ (n + s.emitsAll P e events) (s.driveAll P e events) := by
  induction events generalizing s n with
  | nil => exact hpr
  | cons ev _ ih =>
    obtain ⟨hs, hco, hr⟩ := hrun
    have hun := ((hpr.bounded hu).1 hs).1
    have hcf := s.drive_config P e ev
    unfold State.emitsAll State.driveAll
    rw [← Nat.add_assoc]
    refine ih ?_ (hcf ▸ hbase) (hcf ▸ hceiling) (hcf ▸ hmax) hr hav.2
    cases ev with
    | emit epoch messageID now abortAt =>
      by_cases hp : s.pending = true
      · have ho : s.emits (.emit epoch messageID now abortAt) = 1 := if_pos hp
        rw [ho]
        exact .send now abortAt _ hpr hp (hav.1.sendable hP hun hbase hceiling hmax hp)
      · have hn : s.emits (.emit epoch messageID now abortAt) = 0 := if_neg hp
        have heq : s.drive P e (.emit epoch messageID now abortAt) = s :=
          State.send_idle (Bool.of_not_eq_true hp) now abortAt _
        rw [hn, heq]
        exact hpr
    | answer c => exact .answer c hpr hs hco

end Drive

section Search
variable {P : Proto} (hP : Proto.SizesProbes P) {e : Engine} {config : Config} {s s₁ : State}
  {now : Time}
include hP

/-- A search that is begun on any state, and of which no probe is sent at its lower bound, narrows
its interval with every answer, and ends within a number of probes that depends on its bounds
only. -/
theorem search_progress (hconfig : s.config = config) (hvalid : config.Valid)
    (hceiling : config.ceiling.toNat ≤ 65535) (hmax : config.ceiling.toNat ≤ e.codec.maxFrameSize)
    (hstart : s₁ = s.start now ∨ (∃ hint, s₁ = s.startWithHint now hint) ∨
      s.refreshDue now = (true, s₁))
    {events : List DriveEvent} (hrun : s₁.Running P e events)
    (havoid : s₁.AvoidsAll P e events) :
    s₁.emitsAll P e events ≤ 9 * config.width + 1 ∧ ((s₁.driveAll P e events).searching = true →
        (s₁.driveAll P e events).confirming = false → Narrows (s₁.driveAll P e events)) := by
  subst hconfig
  obtain ⟨r, refreshing, hr, rfl⟩ : ∃ (r : State) (refreshing : Bool), r.config = s.config ∧
      s₁ = r.startSearch now refreshing := by
    rcases hstart with rfl | ⟨hint, rfl⟩ | hdue
    · exact ⟨{ s with searchHint := 0 }, false, rfl, rfl⟩
    · exact ⟨{ s with searchHint := hint }, false, rfl, rfl⟩
    unfold State.refreshDue at hdue
    split at hdue
    · cases hdue
    · exact ⟨s, true, rfl, (Prod.mk.inj hdue).2.symm⟩
  rw [← hr] at hvalid hceiling hmax ⊢
  have hund := fun hs => State.startSearch_underway hvalid.2.1 now refreshing hs
  have hsame : (r.startSearch now refreshing).config = r.config :=
    (State.startSearch_evolves r now refreshing).config
  have hpro := State.driveAll_probes hP .nil (fun hs => (hund hs).1) (hsame.symm ▸ hvalid.1)
    (hsame.symm ▸ hceiling) (hsame.symm ▸ hmax) hrun havoid
  obtain ⟨hlast, hcnt⟩ := hpro.bounded fun hs => (hund hs).1
  rw [Nat.zero_add] at hcnt
  refine ⟨?_, fun hs hc => (hlast hs).1.narrows hc⟩
  rcases hcnt with hcnt | hcnt
  · by_cases hs : (r.startSearch now refreshing).searching = true
    · exact Nat.le_trans hcnt (hund hs).2
    · cases events with
      | nil => exact Nat.zero_le _
      | cons => exact absurd hrun.1 hs
  · omega

end Search

def stalledConfig : Config where
  base := 16392
  ceiling := 16424
  canonicalize := some canonicalCarrierPayload
  probeTimeout := Control.probeTimeout
  refreshInterval := Control.refreshInterval
  confirmationInterval := Control.confirmationInterval

def stalledEngine : Engine := { skippedEngine true none with base := 16392 }

def stalledFirst : State := { config := stalledConfig, confirmed := 16392 }

/-- A probe under an epoch and a message identifier of one byte each. -/
theorem search_progress_sample :
    stalledConfig.Valid ∧ stalledConfig.ceiling.toNat ≤ stalledEngine.codec.maxFrameSize ∧
    (stalledFirst.start 0).Running Protobuf.proto stalledEngine [.emit 1 1 0 0] ∧
    (stalledFirst.start 0).AvoidsAll Protobuf.proto stalledEngine [.emit 1 1 0 0] ∧
    (stalledFirst.start 0).emitsAll Protobuf.proto stalledEngine [.emit 1 1 0 0] ≤ 298 ∧
    Narrows ((stalledFirst.start 0).send 0 0 16424) := by
  have hval : stalledConfig.Valid := by decide
  have hmax : stalledConfig.ceiling.toNat ≤ stalledEngine.codec.maxFrameSize := by decide
  have hrun : (stalledFirst.start 0).Running Protobuf.proto stalledEngine [.emit 1 1 0 0] :=
    ⟨by decide +kernel, trivial, trivial⟩
  have hcan : (stalledFirst.start 0).candidate = 16424 := by decide +kernel
  have hlow : (stalledFirst.start 0).low = 16392 := by decide +kernel
  have havo : (stalledFirst.start 0).AvoidsAll Protobuf.proto stalledEngine [.emit 1 1 0 0] := by
    refine ⟨fun _ _ hnext => ?_, trivial⟩
    rw [hcan, hlow] at hnext
    exact absurd hnext (by decide)
  have hsize : probeSize Protobuf.proto stalledEngine 1 1 16424 = 16424 := by
    apply UInt32.toNat_inj.mp
    rw [probeSize_toNat proto_sizesProbes (by decide) (by decide) (by decide)]
    decide
  have hend : (stalledFirst.start 0).driveAll Protobuf.proto stalledEngine [.emit 1 1 0 0] =
      (stalledFirst.start 0).send 0 0 16424 := by
    rw [State.driveAll, State.driveAll, State.drive, hcan, hsize]
  obtain ⟨hbound, hnarrows⟩ := search_progress proto_sizesProbes (s := stalledFirst) rfl hval
    (by decide) hmax (.inl rfl) hrun havo
  rw [hend] at hnarrows
  exact ⟨hval, hmax, hrun, havo, hbound, hnarrows (by decide +kernel) (by decide +kernel)⟩

/-! ### A search that stalls -/

/-- An epoch whose varint has ten bytes. -/
def stalledEpoch : UInt64 := 0x8000000000000000

/-- A size of 16407 bytes was acknowledged, and 16408 bytes is the next candidate. -/
structure Stalled (s : State) : Prop where
  config : s.config = stalledConfig
  low : s.low = 16407
  bad : s.bad = 16424
  candidate : s.candidate = 16408
  pending : s.pending = true
  confirming : s.confirming = false

/-- Probes of successive message identifiers, each sent at 16407 bytes and acknowledged. -/
def stalledRun (messageID attempt : UInt64) : ℕ → List DriveEvent
  | 0 => []
  | k + 1 =>
    .emit stalledEpoch messageID 0 0 :: .answer (.acknowledge (attempt + 1) 16407 0) ::
      stalledRun (messageID + 1) (attempt + 1) k

theorem Stalled.nextCandidate (hc : s.config = stalledConfig)
    (hlow : s.low = 16407) (hb : s.bad = 16424) : s.nextCandidate = 16408 := by
  unfold State.nextCandidate State.canonicalCandidate
  rw [hc, hlow, hb]
  decide +kernel

theorem State.advance_of_candidate {now : Time} {size : UInt32}
    (h : s.nextCandidate = size) (hne : size ≠ 0) :
    s.advance now = { s with candidateTries := 0, candidate := size, pending := true } := by
  subst h
  exact if_neg hne

/-- The acknowledgement is accepted, and the search is where it was. -/
theorem Stalled.acknowledged (h : Stalled s) :
    ∃ t, (s.sending 0 16407).acknowledge (s.attempt + 1) 16407 0 = (true, t) ∧ Stalled t ∧
      t.results = s.results ∧ t.attempt = s.attempt + 1 := by
  refine ⟨{ s.sending 0 16407 with
    inFlight := false, low := 16407, candidateTries := 0, candidate := 16408, pending := true },
    ?_, ⟨h.config, rfl, h.bad, rfl, rfl, h.confirming⟩, rfl, rfl⟩
  have hc : ¬ s.confirming = true := by
    rw [h.confirming]
    decide
  unfold State.acknowledge
  rw [if_neg]
  · refine congrArg (Prod.mk true) ((if_neg hc).trans ?_)
    exact State.advance_of_candidate (s := { s.sending 0 16407 with inFlight := false, low := 16407 })
      (Stalled.nextCandidate h.config rfl h.bad) (by decide)
  · rintro (hf | ha | hsz)
    · cases hf
    · exact ha rfl
    · exact hsz rfl

section Stalled
variable {P : Proto} (hP : Proto.SizesProbes P) (messageID : UInt64)
  (hlow : 128 ≤ messageID.toNat) (hhigh : messageID.toNat < 16384)
include hP hlow hhigh

theorem stalled_size : probeSize P stalledEngine stalledEpoch messageID 16408 = 16407 := by
  apply UInt32.toNat_inj.mp
  rw [probeSize_toNat hP (by decide) (by decide) (by decide)]
  unfold probeLength probeOverhead
  rw [varintLength_two hlow hhigh]
  decide

private theorem exact_size : probeSize P stalledEngine stalledEpoch messageID 16424 = 16424 := by
  apply UInt32.toNat_inj.mp
  rw [probeSize_toNat hP (by decide) (by decide) (by decide)]
  unfold probeLength probeOverhead
  rw [varintLength_two hlow hhigh]
  decide

theorem Stalled.emits {s : State} (h : Stalled s) :
    s.drive P stalledEngine (.emit stalledEpoch messageID 0 0) = s.sending 0 16407 := by
  have hw : s.config.Within 16407 := by
    rw [h.config]
    exact ⟨by decide, by decide⟩
  show s.send 0 0 (probeSize P stalledEngine stalledEpoch messageID s.candidate) = _
  rw [h.candidate, stalled_size hP messageID hlow hhigh]
  rcases State.send_cases h.pending 0 0 16407 with ⟨-, heq⟩ | ⟨ho, -⟩
  · exact heq
  · exact absurd hw ho

end Stalled

theorem Stalled.repeats {P : Proto} (hP : Proto.SizesProbes P) (k : ℕ) (h : Stalled s)
    (messageID : UInt64) (hlow : 128 ≤ messageID.toNat) (hhigh : messageID.toNat + k ≤ 16384) :
    s.Running P stalledEngine (stalledRun messageID s.attempt k) ∧
    s.emitsAll P stalledEngine (stalledRun messageID s.attempt k) = k ∧
    Stalled (s.driveAll P stalledEngine (stalledRun messageID s.attempt k)) := by
  induction k generalizing s messageID with
  | zero => exact ⟨trivial, rfl, h⟩
  | succ k ih =>
    have hnx : (messageID + 1).toNat = messageID.toNat + 1 := by
      rw [UInt64.toNat_add]
      exact Nat.mod_eq_of_lt (by have : (1 : UInt64).toNat = 1 := rfl; omega)
    have hem := h.emits hP messageID hlow (by omega)
    obtain ⟨t, ha, ht, -, hat⟩ := h.acknowledged
    have han : (s.sending 0 16407).drive P stalledEngine
        (.answer (.acknowledge (s.attempt + 1) 16407 0)) = t := congrArg Prod.snd ha
    obtain ⟨hrun, hc, hl⟩ := ih ht (messageID + 1) (by omega) (by omega)
    rw [hat] at hrun hc hl
    unfold stalledRun
    refine ⟨⟨?_, trivial, ?_, rfl, ?_⟩, ?_, ?_⟩
    · unfold State.searching
      rw [h.pending]
      rfl
    · rw [hem]
      rfl
    · rw [hem, han]
      exact hrun
    · have ho : s.emits (.emit stalledEpoch messageID 0 0) = 1 := if_pos h.pending
      unfold State.emitsAll State.emitsAll
      rw [hem, han, hc, ho]
      show 1 + (0 + k) = k + 1
      omega
    · unfold State.driveAll State.driveAll
      rw [hem, han]
      exact hl

/-- The probe of 16424 bytes fails, the one of 16408 bytes is sent at 16407 bytes and
acknowledged, and so are those after it. -/
def stalledEvents (k : ℕ) : List DriveEvent :=
  .emit stalledEpoch 128 0 0 :: .answer (.failCurrent 0) :: .emit stalledEpoch 129 0 0 ::
    .answer (.acknowledge 2 16407 0) :: stalledRun 130 2 k

section Start
variable {P : Proto} (hP : Proto.SizesProbes P)
include hP

private theorem stalledFirst_emits :
    (stalledFirst.start 0).drive P stalledEngine (.emit stalledEpoch 128 0 0) =
    (stalledFirst.start 0).send 0 0 16424 := by
  have hc : (stalledFirst.start 0).candidate = 16424 := by decide +kernel
  show (stalledFirst.start 0).send 0 0 (probeSize _ _ _ _ (stalledFirst.start 0).candidate) = _
  rw [hc, exact_size hP 128 (by decide) (by decide)]

def stalledNext : State := ((stalledFirst.start 0).send 0 0 16424).call (.failCurrent 0)

private theorem stalledNext_emits : stalledNext.drive P stalledEngine (.emit stalledEpoch 129 0 0) =
    stalledNext.send 0 0 16407 := by
  have hc : stalledNext.candidate = 16408 := by decide +kernel
  show stalledNext.send 0 0 (probeSize _ _ _ _ stalledNext.candidate) = _
  rw [hc, stalled_size hP 129 (by decide) (by decide)]

def stalledThird : State := (stalledNext.send 0 0 16407).call (.acknowledge 2 16407 0)

omit hP in
private theorem stalledThird_stalled : Stalled stalledThird := by
  refine ⟨?_, by decide +kernel, by decide +kernel, by decide +kernel, by decide +kernel,
    by decide +kernel⟩
  exact (State.call_config ..).trans ((State.send_config ..).trans ((State.call_config ..).trans
    ((State.send_config ..).trans (State.start_evolves ..).config)))

end Start

/-- A search between 16392 and 16424 bytes on a path that carries less than 16424 bytes: every
probe of 16408 bytes is sent at 16407 bytes, and its acknowledgement is accepted without raising
`low` or lowering `bad`, for 16000 probes in a row. -/
theorem search_stalls : State.new stalledConfig = some stalledFirst ∧ ∀ k, k ≤ 16000 →
    (stalledFirst.start 0).Running Protobuf.proto stalledEngine (stalledEvents k) ∧
    (stalledFirst.start 0).emitsAll Protobuf.proto stalledEngine (stalledEvents k) = k + 2 ∧
    let s := (stalledFirst.start 0).driveAll Protobuf.proto stalledEngine (stalledEvents k)
    let sent := s.drive Protobuf.proto stalledEngine
      (.emit stalledEpoch (UInt64.ofNat (130 + k)) 0 0)
    sent.inFlight = true ∧ sent.candidate = 16407 ∧ sent.confirming = false ∧
      ∃ t, sent.acknowledge sent.attempt 16407 0 = (true, t) ∧ t.searching = true ∧
        t.results = sent.results ∧ t.low = sent.low ∧ t.bad = sent.bad := by
  have hP := proto_sizesProbes
  refine ⟨rfl, fun k hk => ?_⟩
  have hid : (UInt64.ofNat (130 + k)).toNat = 130 + k := by
    rw [UInt64.toNat_ofNat']
    omega
  obtain ⟨hrun, hcnt, hlast⟩ := stalledThird_stalled.repeats hP k 130 (by decide)
    (by have : (130 : UInt64).toNat = 130 := rfl; omega)
  have hatt : stalledThird.attempt = 2 := by decide +kernel
  rw [hatt] at hrun hcnt hlast
  have hall : (stalledFirst.start 0).driveAll Protobuf.proto stalledEngine (stalledEvents k) =
      stalledThird.driveAll Protobuf.proto stalledEngine (stalledRun 130 2 k) := by
    unfold stalledEvents
    rw [State.driveAll, stalledFirst_emits hP, State.driveAll]
    show stalledNext.driveAll _ _ _ = _
    rw [State.driveAll, stalledNext_emits hP]
    rfl
  refine ⟨?_, ?_, ?_⟩
  · unfold stalledEvents
    refine ⟨by decide +kernel, trivial, ?_⟩
    rw [stalledFirst_emits hP]
    refine ⟨by decide +kernel, rfl, (by decide +kernel : stalledNext.searching = true), trivial, ?_⟩
    show State.Running _ _ (stalledNext.drive _ _ _) _
    rw [stalledNext_emits hP]
    exact ⟨by decide +kernel, rfl, hrun⟩
  · unfold stalledEvents
    rw [State.emitsAll, stalledFirst_emits hP, State.emitsAll]
    show _ + (_ + stalledNext.emitsAll _ _ _) = _
    rw [State.emitsAll, stalledNext_emits hP, State.emitsAll]
    show _ + (_ + (_ + (_ + stalledThird.emitsAll _ _ _))) = _
    rw [hcnt]
    show 1 + (0 + (1 + (0 + k))) = k + 2
    omega
  · have hsent := hlast.emits hP (UInt64.ofNat (130 + k)) (by omega) (by omega)
    rw [hall]
    dsimp only
    rw [hsent]
    obtain ⟨t, hack, ht, hres, -⟩ := hlast.acknowledged
    refine ⟨rfl, rfl, hlast.confirming, t, hack, ?_, hres, ht.low.trans hlast.low.symm,
      ht.bad.trans hlast.bad.symm⟩
    unfold State.searching
    rw [ht.pending]
    rfl

end Pmtu

/-! ### Probes of the engine -/

section Emission
open Eff (Succeeds Ends)
variable {P : Proto} {e : Engine} {s : Pmtu.State} {id : UInt64} {frame : Bytes}

private theorem sendRequest_probe {size : UInt32} (hid : nextID e.localMessageID = .ok id)
    (hfr : marshal P e (bareProbe e.localEpoch id) size = .ok frame) :
    Succeeds (sendRequest P .pmtuProbe (buildControl 0 e.localEpoch .mtuProbe) 0 size) e
      fun out t => out = [frame] ∧ t.pmtu = e.pmtu ∧ t.base = e.base := by
  refine Succeeds.bind ⟨_, _, nextLocalMessageID_eq hid, ?_⟩
  refine Succeeds.get_bind (Succeeds.bind ⟨frame, _, congrArg (·, _) hfr, ?_⟩)
  exact ⟨_, _, rfl, rfl, rfl, rfl⟩

theorem onPmtu_some {α : Type} (hs : e.pmtu = some s) (f : Pmtu.State → α × Pmtu.State) :
    onPmtu f e = (.ok (some (f s).1), { e with pmtu := some (f s).2 }) := by
  unfold onPmtu
  rw [hs]

private theorem abortPMTUProbe_fails (hs : e.pmtu = some s) :
    Succeeds abortPMTUProbe e fun _ t => t.pmtu = some (s.failCurrent e.state.now.1).2 := by
  have hso : e.pmtu.isSome = true := by
    rw [hs]
    rfl
  refine Succeeds.get_bind ?_
  rw [if_pos hso]
  refine Succeeds.bind ⟨_, _, rfl, ?_⟩
  exact Succeeds.bind ⟨_, _, onPmtu_some (e := (now e).2) hs _, .modify rfl⟩

/-- The search takes the size of the frame, or fails the probe when the size is outside its
bounds. -/
theorem sendPMTUProbe_resizes (probe : Pmtu.Probe) (hs : e.pmtu = some s)
    (hid : nextID e.localMessageID = .ok id)
    (hfr : marshal P e (bareProbe e.localEpoch id) probe.payloadSize = .ok frame)
    (hb : s.config.base = e.base) (hle : e.base ≤ probe.payloadSize) :
    ∃ abortAt, Ends (sendPMTUProbe P probe) e fun t =>
      t.pmtu = some (s.resize probe abortAt (UInt32.ofNat frame.length)) := by
  obtain ⟨_, t, hrun, rfl, hpmtu, hsm⟩ := sendRequest_probe hid hfr
  have hse : t.pmtu = some s := hpmtu.trans hs
  refine ⟨t.state.now.1, ?_⟩
  unfold sendPMTUProbe Pmtu.State.resize
  refine Ends.get_bind (Ends.bind ⟨_, _, hrun, Ends.get_bind ?_⟩)
  generalize ha : UInt32.ofNat (List.headD [frame] []).length = actual
  have hlen : UInt32.ofNat frame.length = actual := ha
  rw [hlen]
  by_cases hsh : actual < t.base
  · have hne : actual ≠ probe.payloadSize := by
      intro heq
      rw [heq, hsm] at hsh
      exact UInt32.not_le.mpr hsh hle
    have had : s.adjustCurrent probe.attempt actual = (false, s) :=
      if_pos (.inr (.inr (.inl (by rw [hb, ← hsm]; exact hsh))))
    rw [if_pos hsh, if_neg hne, had]
    exact Ends.bind ((abortPMTUProbe_fails hse).mono fun _ _ hu => .bind_throw hu)
  · rw [if_neg hsh]
    by_cases heq : actual = probe.payloadSize
    · rw [if_neg (not_not.mpr heq), if_pos heq]
      exact hse
    rw [if_pos heq, if_neg heq]
    refine Ends.bind ⟨_, _, onPmtu_some hse _, ?_⟩
    rcases had : s.adjustCurrent probe.attempt actual with ⟨_ | _, _⟩
    · rw [if_pos (by simp)]
      exact Ends.bind ((abortPMTUProbe_fails rfl).mono fun _ _ hu => .bind_throw hu)
    · rw [if_neg (by simp)]
      rfl

/-- A probe that the engine emits drives its search. -/
theorem emitPMTUProbe_drives (hs : e.pmtu = some s) (hfe : e.outstanding = none)
    (hid : nextID e.localMessageID = .ok id)
    (hfr : marshal P e (bareProbe e.localEpoch id) s.candidate = .ok frame)
    (hb : s.config.base = e.base) (hle : e.base ≤ s.candidate) (now : Time) :
    ∃ abortAt, Ends (emitPMTUProbe P now) e fun t =>
      t.pmtu = some (s.drive P e (.emit e.localEpoch id now abortAt)) := by
  have hsz : probeSize P e e.localEpoch id s.candidate = UInt32.ofNat frame.length := by
    unfold probeSize
    rw [hfr]
  have hn : ¬ e.outstanding.isSome = true := by
    rw [hfe]
    decide
  by_cases hp : s.pending = false
  · have hnx : s.next now = (none, s) := if_pos hp
    refine ⟨0, ?_⟩
    refine Ends.get_bind ?_
    rw [if_neg hn]
    refine Ends.bind ⟨_, _, onPmtu_some hs _, ?_⟩
    rw [hnx]
    exact Ends.pure (congrArg some (s.send_idle hp now 0 _).symm)
  · have hnx : s.next now = (some ⟨s.attempt + 1, s.candidate⟩, s.sending now s.candidate) :=
      if_neg hp
    obtain ⟨abortAt, hends⟩ := sendPMTUProbe_resizes
      (e := { e with pmtu := some (s.sending now s.candidate) }) ⟨s.attempt + 1, s.candidate⟩ rfl hid
      hfr hb hle
    refine ⟨abortAt, ?_⟩
    refine Ends.get_bind ?_
    rw [if_neg hn]
    refine Ends.bind ⟨_, _, onPmtu_some hs _, ?_⟩
    show Ends _ _ fun t : Engine => t.pmtu = some (s.send now abortAt _)
    unfold Pmtu.State.send
    rw [hnx, hsz]
    exact hends

end Emission

end WgFrag.Control
