import WgFrag.Control.Progress
import Mathlib.Logic.Relation

/-! On a path that carries every probe up to a fixed size, the search confirms the largest
canonical size that fits. -/
namespace WgFrag.Control.Pmtu
variable {c : Config} {limit : ℕ}

/-! ### Canonical sizes -/

/-- The sizes that fill a padding bucket. -/
def OnGrid (x : UInt32) : Prop := x.toNat % 16 = 8

theorem canonicalCarrierPayload_toNat {x : UInt32} (hl : 40 ≤ x.toNat) (hhi : x.toNat ≤ 131072) :
    (canonicalCarrierPayload x).toNat = (x.toNat + 40) / 16 * 16 - 40 := by
  have hge : ¬ x < 40 := by exact Nat.not_lt.mpr hl
  have hb : ((x + 40) / 16 * 16).toNat = (x.toNat + 40) / 16 * 16 := by
    rw [UInt32.toNat_mul, UInt32.toNat_div, UInt32.toNat_add]
    simp only [UInt32.reduceToNat]
    omega
  unfold canonicalCarrierPayload
  rw [if_neg hge, UInt32.toNat_sub_of_le, hb]
  · rfl
  · rw [UInt32.le_iff_toNat_le, hb]
    simp only [UInt32.reduceToNat]
    omega

theorem canonicalCarrierPayload_grid {x : UInt32} (hl : 40 ≤ (canonicalCarrierPayload x).toNat) :
    OnGrid (canonicalCarrierPayload x) := by
  unfold OnGrid
  unfold canonicalCarrierPayload at hl ⊢
  split_ifs at hl ⊢ with hs
  · rw [UInt32.lt_iff_toNat_lt] at hs
    exact absurd hl (Nat.not_le.mpr hs)
  · rw [UInt32.toNat_sub, UInt32.toNat_mul, UInt32.toNat_div, UInt32.toNat_add] at hl ⊢
    simp only [UInt32.reduceToNat] at hl ⊢
    omega

/-- A search with the transport's canonical sizes on a path that carries BASE. -/
structure Config.Carried (c : Config) (limit : ℕ) : Prop where
  canonical : c.canonicalize = some canonicalCarrierPayload
  base : 613 ≤ c.base.toNat
  bounds : c.base ≤ c.ceiling
  ceiling : c.ceiling.toNat ≤ 65535
  limit : c.base.toNat ≤ limit

/-- The largest canonical size above BASE that the path carries, or BASE if there is none. -/
structure Top (c : Config) (limit : ℕ) (g : UInt32) : Prop where
  reached : g = c.base ∨ OnGrid g ∧ c.base < g ∧ g.toNat ≤ limit ∧ g ≤ c.ceiling
  above : ∀ y, OnGrid y → g < y → y.toNat ≤ limit → c.ceiling < y

theorem Top.le_limit {g : UInt32} (h : Top c limit g) (hc : c.Carried limit) : g.toNat ≤ limit := by
  rcases h.reached with rfl | ⟨-, -, hl, -⟩
  · exact hc.limit
  · exact hl

namespace State
variable {s t : State} {now : Time} {limit : ℕ}
variable {begun : Prop}

theorem canonicalCandidate_grid (hc : s.config.Carried limit) {x : UInt32}
    (hne : s.canonicalCandidate x ≠ 0) : OnGrid (s.canonicalCandidate x) := by
  have hw := (canonicalCandidate_within s x).resolve_left hne
  have heq : s.canonicalCandidate x = canonicalCarrierPayload x := by
    unfold canonicalCandidate at hne ⊢
    rw [hc.canonical] at hne ⊢
    dsimp only at hne ⊢
    split_ifs at hne ⊢
    · exact absurd rfl hne
    · rfl
  rw [heq] at hw ⊢
  have hbase := UInt32.le_iff_toNat_le.mp hw.1
  have := hc.base
  exact canonicalCarrierPayload_grid (by omega)

/-- Rounding down stops at a canonical size that is still above BASE. -/
theorem canonicalCandidate_eq (hc : s.config.Carried limit) {x : UInt32}
    (hbase : s.config.base.toNat ≤ (x.toNat + 40) / 16 * 16 - 40) (hhi : x ≤ s.config.ceiling) :
    (s.canonicalCandidate x).toNat = (x.toNat + 40) / 16 * 16 - 40 := by
  have h613 := hc.base
  have hce := hc.ceiling
  have hhi' := UInt32.le_iff_toNat_le.mp hhi
  have hv := canonicalCarrierPayload_toNat (x := x) (by omega) (by omega)
  unfold canonicalCandidate
  rw [hc.canonical]
  rw [if_neg, hv]
  rintro (hl | ha)
  · rw [UInt32.lt_iff_toNat_lt, hv] at hl
    omega
  · rw [UInt32.lt_iff_toNat_lt, hv] at ha
    omega

/-- The bounds of a round on such a path. -/
structure Gauged (limit : ℕ) (s : State) : Prop extends Placed s where
  low : s.low = s.config.base ∨ OnGrid s.low ∧ s.low.toNat ≤ limit
  bad : s.bad = 0 ∨ OnGrid s.bad ∧ limit < s.bad.toNat ∧ s.bad ≤ s.config.ceiling

theorem Gauged.reached (h : Gauged limit s) : s.low = s.config.base ∨
    OnGrid s.low ∧ s.config.base < s.low ∧ s.low.toNat ≤ limit ∧ s.low ≤ s.config.ceiling := by
  by_cases hlo : s.low = s.config.base
  · exact .inl hlo
  obtain ⟨hg, hl⟩ := h.low.resolve_left hlo
  have hrm := h.room
  have hhi := h.high
  have hbase := UInt32.le_iff_toNat_le.mp h.base
  have hne : s.low.toNat ≠ s.config.base.toNat := fun heq => hlo (UInt32.toNat_inj.mp heq)
  refine .inr ⟨hg, UInt32.lt_iff_toNat_lt.mpr (by omega), hl,
    UInt32.le_iff_toNat_le.mpr (by omega)⟩

section Ends
variable (hc : s.config.Carried limit) (hbase : s.config.base ≤ s.low)
include hc hbase

/-- Halving or doubling from the lower bound reaches a canonical size above it. -/
theorem canonicalCandidate_above {x : UInt32} (hhi : x ≤ s.config.ceiling)
    (ha : s.low.toNat < (x.toNat + 40) / 16 * 16 - 40) :
    s.low < s.canonicalCandidate x ∧ s.canonicalCandidate x ≤ x := by
  have hb' := UInt32.le_iff_toNat_le.mp hbase
  have hv := canonicalCandidate_eq hc (by omega) hhi
  rw [UInt32.lt_iff_toNat_lt, UInt32.le_iff_toNat_le, hv]
  omega

private theorem ends_doubling {y : UInt32} (hb : s.bad = 0) (hg : OnGrid y) (hlt : s.low < y)
    (hce : y ≤ s.config.ceiling) : s.nextCandidate ≠ 0 := by
  have hl : s.low < s.config.ceiling := UInt32.lt_of_lt_of_le hlt hce
  have hlt' := UInt32.lt_iff_toNat_lt.mp hlt
  have hc' := UInt32.le_iff_toNat_le.mp hce
  have h613 := hc.base
  have hmax := hc.ceiling
  have hb' := UInt32.le_iff_toNat_le.mp hbase
  unfold OnGrid at hg
  have hnx : s.low < s.canonicalCandidate
      (if s.config.ceiling / 2 < s.low then s.config.ceiling else s.low * 2) := by
    split
    · refine (canonicalCandidate_above hc hbase (UInt32.le_refl _) ?_).1
      omega
    rename_i hhalf
    rw [UInt32.lt_iff_toNat_lt, UInt32.toNat_div] at hhalf
    simp only [UInt32.reduceToNat] at hhalf
    have hd : (s.low * 2).toNat = s.low.toNat * 2 := by
      rw [UInt32.toNat_mul]
      simp only [UInt32.reduceToNat]
      omega
    refine (canonicalCandidate_above hc hbase ?_ ?_).1
    · rw [UInt32.le_iff_toNat_le, hd]
      omega
    · rw [hd]
      omega
  rw [nextCandidate_doubles hb hl, if_neg (UInt32.not_le.mpr hnx)]
  exact ne_zero_of_lt hnx

private theorem ends_bisecting {y : UInt32} (hb : s.bad ≠ 0) (hba : OnGrid s.bad)
    (hhi : s.bad ≤ s.config.ceiling) (hg : OnGrid y) (hlt : s.low < y) (hls : y < s.bad) :
    s.nextCandidate ≠ 0 := by
  have hlt' := UInt32.lt_iff_toNat_lt.mp hlt
  have hls' := UInt32.lt_iff_toNat_lt.mp hls
  have hhi' := UInt32.le_iff_toNat_le.mp hhi
  unfold OnGrid at hg hba
  have hmax := hc.ceiling
  have hs : (s.bad - s.low).toNat = s.bad.toNat - s.low.toNat :=
    UInt32.toNat_sub_of_le _ _ (UInt32.le_iff_toNat_le.mpr (by omega))
  have hm : (s.low + (s.bad - s.low) / 2).toNat = s.low.toNat + (s.bad.toNat - s.low.toNat) / 2 := by
    rw [UInt32.toNat_add, UInt32.toNat_div, hs]
    simp only [UInt32.reduceToNat]
    omega
  have hbu : s.low.toNat < (s.low.toNat + (s.bad.toNat - s.low.toNat) / 2 + 40) / 16 * 16 - 40 := by
    omega
  obtain ⟨hnx, hle⟩ := canonicalCandidate_above hc hbase (x := s.low + (s.bad - s.low) / 2)
    (by rw [UInt32.le_iff_toNat_le, hm]; omega) (by rw [hm]; exact hbu)
  have hn : s.canonicalCandidate (s.low + (s.bad - s.low) / 2) < s.bad := by
    rw [UInt32.le_iff_toNat_le, hm] at hle
    rw [UInt32.lt_iff_toNat_lt]
    omega
  rw [nextCandidate_bisects hb, if_neg]
  · exact ne_zero_of_lt hnx
  · rw [not_or, UInt32.not_le, UInt32.not_le]
    exact ⟨hnx, hn⟩

end Ends

theorem Gauged.ends (h : Gauged limit s) (hc : s.config.Carried limit)
    (hz : s.nextCandidate = 0) : Top s.config limit s.low := by
  refine ⟨h.reached, fun y hg hlt hl => ?_⟩
  by_contra hce
  rw [UInt32.not_lt] at hce
  by_cases hb : s.bad = 0
  · exact ends_doubling hc h.base hb hg hlt hce hz
  · obtain ⟨hba, _, hmax⟩ := h.bad.resolve_left hb
    have hls : y < s.bad := UInt32.lt_iff_toNat_lt.mpr (by omega)
    exact ends_bisecting hc h.base hb hba hmax hg hlt hls hz

private theorem nextCandidate_grid (hc : s.config.Carried limit) (hne : s.nextCandidate ≠ 0) :
    OnGrid s.nextCandidate := by
  by_cases hb : s.bad = 0
  · by_cases hl : s.low < s.config.ceiling
    · rw [nextCandidate_doubles hb hl] at hne ⊢
      generalize (if s.config.ceiling / 2 < s.low then s.config.ceiling else s.low * 2) = x at hne ⊢
      split at hne
      · exact absurd rfl hne
      · next hle =>
        rw [if_neg hle]
        exact canonicalCandidate_grid hc hne
    · exact absurd (nextCandidate_full hb (UInt32.not_lt.mp hl)) hne
  · rw [nextCandidate_bisects hb] at hne ⊢
    split at hne
    · exact absurd rfl hne
    · next hle =>
      rw [if_neg hle]
      exact canonicalCandidate_grid hc hne

/-- A round on such a path in which a candidate was chosen, zero at its end. -/
structure Picked (limit : ℕ) (s : State) : Prop extends Gauged limit s where
  carried : s.config.Carried limit
  length : s.rounds.length = 3
  rounds : ∀ i < s.results, Top s.config limit (s.round i)
  confirmed : s.confirmed = s.config.base ∨ Top s.config limit s.confirmed
  ended : s.candidate = 0 → Top s.config limit s.low
  candidate : s.candidate = 0 ∨ OnGrid s.candidate ∧ Between s

theorem Gauged.picked (h : Gauged limit s) (hc : s.config.Carried limit)
    (hlen : s.rounds.length = 3) (hr : ∀ i < s.results, Top s.config limit (s.round i))
    (hco : s.confirmed = s.config.base ∨ Top s.config limit s.confirmed) :
    Picked limit { s with candidateTries := 0, candidate := s.nextCandidate } := by
  refine ⟨⟨⟨h.results, h.base, h.room, h.high, h.confirming⟩, h.low, h.bad⟩, hc, hlen, hr,
    hco, h.ends hc, ?_⟩
  by_cases hz : s.nextCandidate = 0
  · exact .inl hz
  · exact .inr ⟨nextCandidate_grid hc hz, nextCandidate_between s hz⟩

private theorem opened_grid (hc : s.config.Carried limit) (hne : s.opened.candidate ≠ 0) :
    OnGrid s.opened.candidate := by
  rw [opened_candidate] at hne ⊢
  split at hne
  · next hhint =>
    rw [if_pos hhint]
    exact canonicalCandidate_grid hc hne
  · next hhint =>
    rw [if_neg hhint]
    exact nextCandidate_grid hc hne

theorem opened_picked (hc : s.config.Carried limit) (hlen : s.rounds.length = 3)
    (hr : s.results < 3) (hro : ∀ i < s.results, Top s.config limit (s.round i))
    (hcn : s.confirmed = s.config.base ∨ Top s.config limit s.confirmed)
    (hco : s.confirming = false) : Picked limit s.opened := by
  obtain ⟨hp, -, hb⟩ := opened_placed hr hc.bounds hco
  have hg : Gauged limit s.opened := ⟨hp, .inl rfl, .inl rfl⟩
  refine ⟨hg, hc, hlen, hro, hcn, fun hz => ?_, ?_⟩
  · refine hg.ends hc ?_
    rw [opened_candidate] at hz
    split at hz
    · next hhint => exact absurd hz (ne_zero_of_lt hhint)
    · exact hz
  · by_cases hz : s.opened.candidate = 0
    · exact .inl hz
    · exact .inr ⟨opened_grid hc hz, hb.resolve_left hz⟩

/-- What such a path keeps; `begun` once a search was started. -/
structure Exact (limit : ℕ) (begun : Prop) (s : State) : Prop where
  carried : s.config.Carried limit
  length : s.rounds.length = 3
  confirmed : s.confirmed = s.config.base ∨ Top s.config limit s.confirmed
  round : s.searching = true → s.confirming = false → Gauged limit s ∧ OnGrid s.candidate ∧
    Between s ∧ ∀ i < s.results, Top s.config limit (s.round i)
  carries : s.searching = true → s.confirming = true → s.candidate.toNat ≤ limit
  final : s.confirming = true → s.confirmationCandidate ≠ 0 →
    Top s.config limit s.confirmationCandidate
  periodic : begun → s.searching = true → s.confirming = true → s.confirmationCandidate = 0 →
    Top s.config limit s.confirmed
  finished : begun → s.searching = false → Top s.config limit s.confirmed

theorem Picked.rounds_closed (h : Picked limit s) (hz : s.candidate = 0) :
    ∀ i < s.closed.results, Top s.config limit (s.closed.round i) :=
  State.rounds_closed h.length h.results (h.ended hz) h.rounds

theorem Settles.exact (h : Settles now s t) (hp : Picked limit s) : Exact limit True t := by
  induction h with
  | @probe s hne =>
    obtain ⟨hg, hb⟩ := hp.candidate.resolve_left hne
    have hid : ¬ (s.confirming = true) := by
      rw [hp.confirming]
      decide
    refine ⟨hp.carried, hp.length, hp.confirmed, fun _ _ => ⟨⟨⟨hp.results, hp.base, hp.room, hp.high,
      hp.confirming⟩, hp.low, hp.bad⟩, hg, hb, hp.rounds⟩, fun _ hc => absurd hc hid,
      fun hc => absurd hc hid, fun _ _ hc => absurd hc hid, fun _ hs => ?_⟩
    cases hs
  | again hz hu _ ih =>
    refine ih (opened_picked hp.carried ?_ (Nat.succ_lt_succ (Undecided.results hu))
      (hp.rounds_closed hz) hp.confirmed hp.confirming)
    exact (List.length_set ..).trans hp.length
  | @done s hz hu =>
    have hv := verdict_closed hu (hp.rounds_closed hz)
    have hlen : s.closed.rounds.length = 3 := (List.length_set ..).trans hp.length
    unfold State.decided
    split
    · next hlt =>
      refine ⟨hp.carried, hlen, hp.confirmed, nofun,
        fun _ _ => hv.le_limit hp.carried, fun _ _ => hv,
        fun _ _ _ hn => absurd hn (ne_zero_of_lt hlt), nofun⟩
    · next hge =>
      have hid : ¬ (s.confirming = true) := by
        rw [hp.confirming]
        decide
      refine ⟨hp.carried, hlen, hp.confirmed, nofun, nofun,
        fun hc => absurd hc hid, nofun, fun _ _ => ?_⟩
      rcases hp.confirmed with hbase | ht
      · have hle : s.closed.verdict ≤ s.config.base := by
          rw [← hbase]
          exact UInt32.not_lt.mp hge
        have heq : s.closed.verdict = s.config.base := by
          rcases hv.reached with heq | ⟨-, hlt, -, -⟩
          · exact heq
          · exact absurd hlt (UInt32.not_lt.mpr hle)
        rw [heq] at hv
        exact hbase.symm ▸ hv
      · exact ht

/-! ### Calls on such a path -/

theorem Gauged.copy (h : Gauged limit s) (hcf : t.config = s.config) (hl : t.low = s.low)
    (hb : t.bad = s.bad) (hr : t.results = s.results)
    (hco : t.confirming = s.confirming) : Gauged limit t := by
  have hhi : t.high = s.high := by
    unfold State.high
    rw [hcf, hb]
  refine ⟨⟨hr ▸ h.results, ?_, ?_, ?_, hco ▸ h.confirming⟩, ?_, ?_⟩
  · rw [hcf, hl]
    exact h.base
  · rw [hhi, hl]
    exact h.room
  · rw [hhi, hcf]
    exact h.high
  · rw [hcf, hl]
    exact h.low
  · rw [hcf, hb]
    exact h.bad

/-- A call keeps the account, and the confirmed size or moves it to the largest one. -/
structure Keeps (limit : ℕ) (begun : Prop) (s t : State) : Prop where
  exact : Exact limit begun t
  confirmed : t.confirmed = s.confirmed ∨ Top t.config limit t.confirmed

theorem Keeps.refl (h : Exact limit begun s) : Keeps limit begun s s :=
  ⟨h, .inl rfl⟩

theorem Keeps.mono (h : Keeps limit True s t) : Keeps limit begun s t := by
  have he := h.exact
  exact ⟨⟨he.carried, he.length, he.confirmed, he.round, he.carries, he.final,
    fun _ => he.periodic trivial, fun _ => he.finished trivial⟩, h.confirmed⟩

theorem startSearch_keeps (hc : s.config.Carried limit) (hlen : s.rounds.length = 3)
    (hco : s.confirmed = s.config.base ∨ Top s.config limit s.confirmed)
    (now : Time) (refreshing : Bool) : Keeps limit True s (s.startSearch now refreshing) := by
  unfold State.startSearch
  extract_lets t
  split
  · next heq =>
    have hce : s.config.ceiling = s.config.base := heq
    have ht : Top s.config limit s.config.base := by
      refine ⟨.inl rfl, fun y _ hlt _ => ?_⟩
      rw [hce]
      exact hlt
    exact ⟨⟨hc, hlen, .inl rfl, nofun, nofun, nofun, nofun, fun _ _ => ht⟩, .inr ht⟩
  · rw [beginRound_eq]
    have hs := resume_settles now t.opened 2 (by omega)
    have hp : Picked limit t.opened := opened_picked hc hlen (Nat.zero_lt_succ 2)
      (fun i hi => absurd hi (Nat.not_lt_zero i)) hco rfl
    exact ⟨hs.exact hp, .inl hs.frame.confirmed⟩

section Calls
variable {begun : Prop} (h : Exact limit begun s)
include h

theorem Exact.advance {low bad : UInt32} (hf : s.inFlight = true) (hc : s.confirming = false)
    (hg : Gauged limit { s with inFlight := false, low := low, bad := bad }) :
    Keeps limit begun s ({ s with inFlight := false, low := low, bad := bad }.advance now) := by
  obtain ⟨-, -, -, hr⟩ := h.round (searching_of_inFlight s hf) hc
  have hp := hg.picked h.carried h.length hr h.confirmed
  have hs := advance_settles { s with inFlight := false, low := low, bad := bad } now
  exact Keeps.mono ⟨hs.exact hp, .inl hs.frame.confirmed⟩

theorem Exact.succeed (hf : s.inFlight = true) (hsz : s.candidate.toNat ≤ limit) :
    Keeps limit begun s (s.succeed now) := by
  have hs := searching_of_inFlight s hf
  unfold State.succeed
  dsimp only
  split
  · next hc =>
    unfold State.confirmSuccess
    split
    · next hne =>
      have ht := h.final hc hne
      exact ⟨⟨h.carried, h.length, .inr ht, nofun, nofun,
        nofun, nofun, fun _ _ => ht⟩, .inr ht⟩
    · next hz =>
      exact ⟨⟨h.carried, h.length, h.confirmed, nofun, nofun, nofun, nofun,
        fun hb _ => h.periodic hb hs hc (not_not.mp hz)⟩, .inl rfl⟩
  · next hc =>
    have hc' := Bool.of_not_eq_true hc
    obtain ⟨hg, hgr, ⟨hl, hhi⟩, -⟩ := h.round hs hc'
    refine h.advance hf hc' ⟨⟨hg.results, ?_, hhi, hg.high, hc'⟩, .inr ⟨hgr, hsz⟩, hg.bad⟩
    exact UInt32.le_trans hg.base (UInt32.le_of_lt hl)

theorem Exact.failInFlight (hf : s.inFlight = true) (hl : limit < s.candidate.toNat)
    (definitive : Bool) : Keeps limit begun s (s.failInFlight now definitive) := by
  have hse := searching_of_inFlight s hf
  have hc : s.confirming = false := by
    by_contra hc
    have := h.carries hse (Bool.of_not_eq_false hc)
    omega
  obtain ⟨hg, hgr, ⟨hlo, hhi⟩, hr⟩ := h.round hse hc
  have hid : ¬ (s.confirming = true) := by
    rw [hc]
    decide
  unfold State.failInFlight
  rw [if_neg hid]
  unfold State.failure
  split
  · refine ⟨⟨h.carried, h.length, h.confirmed, fun _ _ => ⟨hg.copy rfl rfl rfl rfl rfl, hgr,
      ⟨hlo, hhi⟩, hr⟩, fun _ hc => absurd hc hid, fun hc => absurd hc hid,
      fun _ _ hc => absurd hc hid, fun _ hs => ?_⟩, .inl rfl⟩
    cases hs
  · have hl' := UInt32.lt_iff_toNat_lt.mp hlo
    have hv : { s with inFlight := false, bad := s.candidate }.high = s.candidate.toNat :=
      if_neg (ne_zero_of_lt hlo)
    have hle := hg.high
    refine h.advance hf hc ⟨⟨hg.results, hg.base, ?_, ?_, hc⟩, hg.low, .inr ⟨hgr, hl, ?_⟩⟩
    · exact Nat.lt_of_lt_of_eq hl' hv.symm
    · show { s with inFlight := false, bad := s.candidate }.high ≤ s.config.ceiling.toNat + 1
      omega
    · show s.candidate ≤ s.config.ceiling
      rw [UInt32.le_iff_toNat_le]
      omega

theorem Exact.confirmed_le : s.confirmed.toNat ≤ limit := by
  rcases h.confirmed with hbase | ht
  · rw [hbase]
    exact h.carried.limit
  · exact ht.le_limit h.carried

theorem Exact.sending (hp : s.pending = true) (now : Time) :
    Keeps limit begun s (s.sending now s.candidate) := by
  have hs := searching_of_pending s hp
  refine ⟨⟨h.carried, h.length, h.confirmed, fun _ hc => ?_, fun _ => h.carries hs, h.final,
    fun hb _ => h.periodic hb hs, nofun⟩, .inl rfl⟩
  obtain ⟨hg, hr⟩ := h.round hs hc
  exact ⟨hg.copy rfl rfl rfl rfl rfl, hr⟩

theorem Exact.retouched (rtt : Duration) (blackholed : Bool) :
    Keeps limit begun s { s with srtt := rtt, blackholed := blackholed } := by
  refine ⟨⟨h.carried, h.length, h.confirmed, fun hs hc => ?_, h.carries, h.final, h.periodic,
    h.finished⟩, .inl rfl⟩
  obtain ⟨hg, hr⟩ := h.round hs hc
  exact ⟨hg.copy rfl rfl rfl rfl rfl, hr⟩

end Calls

/-- A call that the path allows: what it carries is acknowledged and nothing else, probes have
their size, and no black hole is reported. -/
def Stable (limit : ℕ) (s : State) : Call → Prop
  | .acknowledge _ size _ => size.toNat ≤ limit
  | .adjustCurrent _ size => size = s.candidate
  | .reportBlackhole _ => False
  | c => s.fails c = true → limit < s.candidate.toNat

theorem Stable.fails {c : Call} (hc : Stable limit s c) (hf : s.fails c = true) :
    limit < s.candidate.toNat := by
  cases c with
  | fail | failCurrent | softFailCurrent | tick => exact hc hf
  | _ => cases hf

theorem Exact.call (h : Exact limit begun s) {c : Call} (hc : Stable limit s c) :
    Keeps limit begun s (s.call c) := by
  have ha := s.call_acts c
  generalize s.call c = t at ha ⊢
  cases ha with
  | noted srtt blackholed => exact h.retouched srtt blackholed
  | searched now hint refreshing =>
    have hk := startSearch_keeps (s := { s with searchHint := hint }) h.carried h.length
      h.confirmed now refreshing
    exact Keeps.mono ⟨hk.exact, hk.confirmed⟩
  | fell => exact absurd hc id
  | confirms _ hid =>
    exact ⟨⟨h.carried, h.length, h.confirmed, nofun, fun _ _ => h.confirmed_le,
      fun _ hne => absurd rfl hne, fun hb _ _ _ => h.finished hb hid, nofun⟩, .inl rfl⟩
  | sent now hp => exact h.sending hp now
  | @sized size =>
    have hsz : size = s.candidate := hc
    subst hsz
    exact .refl h
  | acked _ hfl => exact h.succeed hfl hc
  | failed _ definitive hfl hf => exact h.failInFlight hfl (hc.fails hf) definitive

/-! ### Answers -/

theorem Settles.landed (h : Settles now s t) (hf : s.inFlight = false) : t.inFlight = false := by
  induction h with
  | probe => exact hf
  | again _ _ _ ih => exact ih rfl
  | done =>
    unfold State.decided
    split <;> rfl

theorem startSearch_landed (s : State) (now : Time) (refreshing : Bool) :
    (s.startSearch now refreshing).inFlight = false := by
  unfold State.startSearch
  extract_lets t
  split
  · rfl
  · rw [beginRound_eq]
    exact (resume_settles now t.opened 2 (by omega)).landed rfl

private theorem failInFlight_landed (s : State) (now : Time) (definitive : Bool) :
    (s.failInFlight now definitive).inFlight = false := by
  unfold State.failInFlight State.confirmFailure State.failure
  dsimp only
  split
  · split
    · rfl
    · split
      · rfl
      · exact startSearch_landed _ now false
  · split
    · rfl
    · exact (advance_settles _ now).landed rfl

private theorem acknowledge_landed (h : s.inFlight = true) (now : Time) :
    (s.acknowledge s.attempt s.candidate now).2.inFlight = false := by
  unfold State.acknowledge State.confirmSuccess
  rw [if_neg]
  · dsimp only
    split
    · split <;> rfl
    · exact (advance_settles _ now).landed rfl
  · rintro (hin | hne | hne)
    · exact absurd (h.symm.trans hin) (by decide)
    · exact hne rfl
    · exact hne rfl

/-- When a probe is sent and answered, and whether a failure shows as a timeout or at once. -/
structure Answer where
  sentAt : Time
  answeredAt : Time
  late : ℕ
  timeout : Bool

/-- Send the probe that is due and let the path answer it. -/
def probeOnce (limit : ℕ) (a : Answer) (s : State) : State :=
  match s.next a.sentAt with
  | (none, s) => s
  | (some probe, s) =>
    if probe.payloadSize.toNat ≤ limit then
      (s.acknowledge probe.attempt probe.payloadSize a.answeredAt).2
    else if a.timeout then (s.tick (s.deadline + a.late)).2
    else (s.failCurrent a.answeredAt).2

def probeAll (limit : ℕ) (answers : ℕ → Answer) (s : State) : ℕ → State
  | 0 => s
  | n + 1 => (s.probeAll limit answers n).probeOnce limit (answers n)

theorem probeOnce_call (limit : ℕ) (h : s.pending = true) (a : Answer) :
    ∃ c : Call, c.answers = true ∧ Stable limit (s.sending a.sentAt s.candidate) c ∧
      s.probeOnce limit a = (s.sending a.sentAt s.candidate).call c ∧
      (s.probeOnce limit a).inFlight = false := by
  have hnx : s.next a.sentAt =
      (some ⟨s.attempt + 1, s.candidate⟩, s.sending a.sentAt s.candidate) :=
    if_neg (by rw [h]; decide)
  unfold probeOnce
  rw [hnx]
  dsimp only
  split
  · next hle =>
    refine ⟨.acknowledge (s.attempt + 1) s.candidate a.answeredAt, rfl, hle, rfl, ?_⟩
    exact acknowledge_landed (s := s.sending a.sentAt s.candidate) rfl a.answeredAt
  · next hgt =>
    have hl : limit < s.candidate.toNat := Nat.not_le.mp hgt
    split
    · refine ⟨.tick _, rfl, fun _ => hl, rfl, ?_⟩
      unfold State.tick
      rw [if_neg]
      · exact failInFlight_landed _ _ _
      · rintro (hin | he)
        · cases hin
        · exact absurd he (Int.not_lt.mpr (Int.le_add_of_nonneg_right (Int.natCast_nonneg _)))
    · refine ⟨.failCurrent a.answeredAt, rfl, fun _ => hl, rfl, ?_⟩
      rw [failCurrent_inFlight rfl]
      exact failInFlight_landed _ _ _

/-- The calls of a run on the path. -/
def StableRun (limit : ℕ) : State → State → Prop :=
  Relation.ReflTransGen fun s t => ∃ c, Stable limit s c ∧ t = s.call c

theorem StableRun.keeps (h : StableRun limit s t) (he : Exact limit begun s) :
    Exact limit begun t ∧ t.config = s.config ∧
      (Top s.config limit s.confirmed → Top s.config limit t.confirmed) := by
  induction h with
  | refl => exact ⟨he, rfl, id⟩
  | tail _ hst ih =>
    obtain ⟨c, hc, rfl⟩ := hst
    obtain ⟨he', hcf, ht⟩ := ih
    have hk := he'.call hc
    have hsm := (State.call_config _ c).trans hcf
    refine ⟨hk.exact, hsm, fun h0 => ?_⟩
    rcases hk.confirmed with heq | hn
    · rw [heq]
      exact ht h0
    · rw [hsm] at hn
      exact hn

private theorem probeOnce_config (s : State) (a : Answer) :
    (s.probeOnce limit a).config = s.config := by
  have hnx := (s.call_evolves (.next a.sentAt)).config
  unfold probeOnce
  split
  · next s' heq =>
    rw [call, heq] at hnx
    exact hnx
  · next probe s' heq =>
    rw [call, heq] at hnx
    split
    · exact (s'.call_evolves (.acknowledge ..)).config.trans hnx
    · split
      · exact (s'.call_evolves (.tick _)).config.trans hnx
      · exact (s'.call_evolves (.failCurrent _)).config.trans hnx

theorem probeAll_config (s : State) (answers : ℕ → Answer) (n : ℕ) :
    (s.probeAll limit answers n).config = s.config := by
  induction n with
  | zero => rfl
  | succ _ ih => exact (probeOnce_config _ _).trans ih

/-- While the search is on, every answer is one more probe of it. -/
theorem probeAll_probes {answers : ℕ → Answer} (he : Exact limit begun s)
    (hu : s.searching = true → Underway s) (hf : s.inFlight = false) (n : ℕ)
    (hs : ∀ i < n, (s.probeAll limit answers i).searching = true) :
    Probes s n (s.probeAll limit answers n) ∧ Exact limit begun (s.probeAll limit answers n) ∧
      (s.probeAll limit answers n).inFlight = false := by
  induction n with
  | zero => exact ⟨.nil, he, hf⟩
  | succ n ih =>
    obtain ⟨hpr, hex, hl⟩ := ih fun i hi => hs i (Nat.lt_succ_of_lt hi)
    have hsa := hs n (Nat.lt_succ_self n)
    have hun := ((hpr.bounded hu).1 hsa).1
    unfold probeAll
    generalize s.probeAll limit answers n = t at hpr hex hl hsa hun
    have hp : t.pending = true := by
      unfold State.searching at hsa
      rw [hl, Bool.or_false] at hsa
      exact hsa
    obtain ⟨c, ha, hst, heq, hl'⟩ := probeOnce_call limit hp (answers n)
    have hse : Probes s (n + 1) (t.sending (answers n).sentAt t.candidate) := by
      rw [← send_candidate hp (answers n).sentAt 0]
      refine .send _ _ _ hpr hp fun hc => ⟨?_, UInt32.le_refl _⟩
      exact (hun.placed hsa hc).2.1
    refine ⟨?_, ?_, hl'⟩
    · rw [heq]
      exact .answer c hse rfl ha
    · rw [heq]
      exact ((hex.sending hp _).exact.call hst).exact

theorem probeAll_ends (answers : ℕ → Answer) (he : Exact limit True s)
    (hu : s.searching = true → Underway s) (hf : s.inFlight = false) {bound : ℕ}
    (hb : s.searching = true → s.probesLeft ≤ bound) :
    ∃ n ≤ bound, (s.probeAll limit answers n).searching = false ∧
      Exact limit True (s.probeAll limit answers n) := by
  by_contra hno
  have ha : ∀ n ≤ bound + 1, ∀ i < n, (s.probeAll limit answers i).searching = true := by
    intro n
    induction n with
    | zero => exact fun _ i hi => absurd hi (Nat.not_lt_zero i)
    | succ n ih =>
      intro hn i hi
      have hprev := ih (by omega)
      by_cases hl : i < n
      · exact hprev i hl
      have heq : i = n := by omega
      subst heq
      by_contra hid
      exact hno ⟨i, by omega, Bool.of_not_eq_true hid, (probeAll_probes he hu hf i hprev).2.1⟩
  have hs := ha (bound + 1) (Nat.le_refl _) 0 (Nat.zero_lt_succ _)
  have hp := (probeAll_probes he hu hf (bound + 1) (ha _ (Nat.le_refl _))).1
  have hm := (hp.bounded hu).2
  have := hb hs
  omega

end State

/-- A value of the canonicalizer above BASE that the path and the ceiling allow. -/
def Fits (c : Config) (limit : ℕ) (y : UInt32) : Prop :=
  (∃ x, canonicalCarrierPayload x = y) ∧ c.base < y ∧ y.toNat ≤ min limit c.ceiling.toNat

/-- The largest of them, or BASE if there is none. -/
def Largest (c : Config) (limit : ℕ) (g : UInt32) : Prop :=
  Fits c limit g ∧ (∀ y, Fits c limit y → y ≤ g) ∨ g = c.base ∧ ∀ y, ¬ Fits c limit y

theorem Fits.grid {y : UInt32} (h : Fits c limit y)
    (hc : c.Carried limit) : OnGrid y ∧ y.toNat ≤ limit ∧ y ≤ c.ceiling := by
  obtain ⟨⟨_, rfl⟩, hbase, _⟩ := h
  have h613 := hc.base
  have hb' := UInt32.lt_iff_toNat_lt.mp hbase
  refine ⟨canonicalCarrierPayload_grid (by omega), by omega, ?_⟩
  rw [UInt32.le_iff_toNat_le]
  omega

theorem Top.largest {g : UInt32} (h : Top c limit g)
    (hc : c.Carried limit) : Largest c limit g := by
  have hn : ∀ y, Fits c limit y → y ≤ g := by
    intro y hy
    obtain ⟨hg, hl, hce⟩ := hy.grid hc
    by_contra hlt
    rw [UInt32.not_le] at hlt
    exact UInt32.not_lt.mpr hce (h.above y hg hlt hl)
  rcases h.reached with rfl | ⟨hg, hbase, hl, hce⟩
  · exact .inr ⟨rfl, fun y hy => UInt32.not_lt.mpr (hn y hy) hy.2.1⟩
  refine .inl ⟨⟨⟨g, ?_⟩, hbase, ?_⟩, hn⟩
  · have h613 := hc.base
    have hmax := hc.ceiling
    have hb' := UInt32.lt_iff_toNat_lt.mp hbase
    have hc' := UInt32.le_iff_toNat_le.mp hce
    apply UInt32.toNat_inj.mp
    rw [canonicalCarrierPayload_toNat (by omega) (by omega)]
    unfold OnGrid at hg
    omega
  · exact Nat.le_min.mpr ⟨hl, UInt32.le_iff_toNat_le.mp hce⟩

section Stable
variable {config : Config} {s₀ s s₁ : State} {limit : ℕ} {now : Time}

theorem new_exact (hn : State.new config = some s₀)
    (hca : config.canonicalize = some canonicalCarrierPayload)
    (hce : config.ceiling.toNat ≤ 65535) (hl : config.base.toNat ≤ limit) :
    State.Exact limit False s₀ ∧ s₀.config = config := by
  unfold State.new at hn
  split_ifs at hn with hv
  cases hn
  exact ⟨⟨⟨hca, hv.1, hv.2.1, hce, hl⟩, rfl, .inl rfl, nofun, nofun, nofun,
    fun hb => hb.elim, fun hb => hb.elim⟩, rfl⟩

open State in
/-- On a path that carries probes up to `limit` bytes and no larger ones, a search ends, and from
then on the confirmed size is the largest canonical one that fits. -/
theorem search_exact (hnew : State.new config = some s₀)
    (hcanonical : config.canonicalize = some canonicalCarrierPayload)
    (hceiling : config.ceiling.toNat ≤ 65535) (hlimit : config.base.toNat ≤ limit)
    (hbefore : StableRun limit s₀ s)
    (hstart : s₁ = s.start now ∨ ∃ hint, s₁ = s.startWithHint now hint) (answers : ℕ → Answer) :
    ∃ n ≤ 9 * config.width + 1, (s₁.probeAll limit answers n).searching = false ∧
      ∀ t, StableRun limit (s₁.probeAll limit answers n) t → Largest config limit t.confirmed := by
  obtain ⟨he₀, hcfg₀⟩ := new_exact hnew hcanonical hceiling hlimit
  obtain ⟨he, hcfg, -⟩ := hbefore.keeps he₀
  rw [hcfg₀] at hcfg
  obtain ⟨hint, rfl⟩ : ∃ hint, s₁ = s.startWithHint now hint := by
    rcases hstart with rfl | hstart
    · exact ⟨0, rfl⟩
    · exact hstart
  have hk := startSearch_keeps (s := { s with searchHint := hint }) he.carried he.length he.confirmed
    now false
  have hbou := fun hs => startSearch_underway (s := { s with searchHint := hint }) he.carried.bounds
    now false hs
  have hwid : ({ s with searchHint := hint } : State).config.width = config.width := by
    rw [← hcfg]
  obtain ⟨n, hn, hidle, hex⟩ := probeAll_ends answers hk.exact
    (fun hs => (hbou hs).1) (startSearch_landed _ now false) (fun hs => (hbou hs).2)
  refine ⟨n, hwid ▸ hn, hidle, fun t ht => ?_⟩
  obtain ⟨_, _, htop⟩ := ht.keeps hex
  have hsame : ((s.startWithHint now hint).probeAll limit answers n).config = config :=
    (probeAll_config _ answers n).trans ((startWithHint_evolves s now hint).config.trans hcfg)
  have hlar := (htop (hex.finished trivial hidle)).largest hex.carried
  rw [hsame] at hlar
  exact hlar

end Stable

def sampleStable : Config := { sampleSearch with canonicalize := some canonicalCarrierPayload }

open State in
theorem search_exact_sample : ∃ s₀, State.new sampleStable = some s₀ ∧
    sampleStable.ceiling.toNat ≤ 65535 ∧ sampleStable.base.toNat ≤ 1449 ∧ StableRun 1449 s₀ s₀ ∧
    ∃ n, ∀ t, StableRun 1449 ((s₀.startWithHint 1 1460).probeAll 1449 (fun _ => ⟨2, 3, 0, true⟩) n) t →
      Largest sampleStable 1449 t.confirmed := by
  obtain ⟨s₀, hnew⟩ : ∃ s₀, State.new sampleStable = some s₀ := ⟨_, rfl⟩
  have hlim : sampleStable.base.toNat ≤ 1449 := by decide
  have hrun : StableRun 1449 s₀ s₀ := .refl
  have hsta : s₀.startWithHint 1 1460 = s₀.start 1 ∨
    ∃ hint, s₀.startWithHint 1 1460 = s₀.startWithHint 1 hint := .inr ⟨1460, rfl⟩
  obtain ⟨n, -, -, hn⟩ := search_exact hnew rfl (by decide) hlim hrun hsta
    fun _ => ⟨2, 3, 0, true⟩
  exact ⟨s₀, hnew, by decide, hlim, hrun, n, hn⟩

end WgFrag.Control.Pmtu
