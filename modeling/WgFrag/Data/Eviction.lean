import WgFrag.Data.Custody

/-! Which slot a new key takes from another one, and what a refused record leaves of the slots. -/
namespace WgFrag.Data.Reassembly
open WgFrag.Lib Reassembler List

variable {r r₁ : Reassembler} {i : ℕ} {now : Time} {key : Key} {record : Record}

/-! ### The slot of a new key -/

abbrev AtQuota (r : Reassembler) (key : Key) : Prop :=
  r.config.perPeerSlots ≤ (r.peerCount key.peerID).toNat

/-- The assembling slots that a new key may take over. -/
def Candidate (r : Reassembler) (key : Key) (i : ℕ) : Prop :=
  (r.slot i).state = .assembling ∧ (AtQuota r key → (r.slot i).key.peerID = key.peerID)

def NeedsEviction (r : Reassembler) (key : Key) : Prop :=
  AtQuota r key ∨ ∀ i < r.slots.length, (r.slot i).state ≠ .free

theorem crowded_iff (hwf : r.Wf) : Crowded r key ↔ NeedsEviction r key := by
  refine or_congr_right ⟨fun h => (takeFreeSlot_none hwf h).2, fun h => ?_⟩
  cases hh : r.freeHead with
  | none => rfl
  | some i =>
    obtain ⟨⟨hi, hfr⟩, -⟩ := freeList_head hwf.free hh
    exact absurd hfr (h i hi)

private theorem scanned_iff_candidate :
    Scanned r (if AtQuota r key then some key.peerID else none) i ↔
    Candidate r key i := by
  unfold Scanned Candidate
  by_cases hq : AtQuota r key
  · simp [hq, eq_comm]
  · simp [hq]

theorem victim_spec (h : victim r key = some i) :
    Candidate r key i ∧ ∀ j, Candidate r key j → (r.slot i).rank ≤ (r.slot j).rank := by
  obtain ⟨hs, hle⟩ := oldestAssembling_some h
  exact ⟨scanned_iff_candidate.mp hs, fun j hj => hle j (scanned_iff_candidate.mpr hj)⟩

theorem not_hasSlot_iff :
    ¬ HasSlot r key ↔ NeedsEviction r key ∧ ∀ i, ¬ Candidate r key i := by
  unfold HasSlot NeedsEviction Candidate
  change ¬ (if AtQuota r key then _ else _) ↔ _
  by_cases hq : AtQuota r key
  · simp [hq]
  rw [if_neg hq]
  simp only [hq, false_or, false_imp_iff, and_true, not_exists, not_and, not_not]
  constructor
  · intro h
    refine ⟨fun i hi hfr => ?_, fun i hs => ?_⟩
    · cases hfr.symm.trans (h i hi)
    · cases hs.symm.trans (h i (lt_of_state (by simp [hs])))
  · rintro ⟨hu, hn⟩ i hi
    cases hs : (r.slot i).state with
    | free => exact absurd hs (hu i hi)
    | assembling => exact absurd hs (hn i)
    | completed => rfl

/-! ### The first record of a new slot -/

section New
variable {s : Slot} {born : UInt64}
  (hslot : r.slot i = s.started now key record.header.fragmentCount born)
  (hrec : Acceptable r.config key record)
include hslot hrec

private theorem any_isNone_store (hc : record.header.fragmentCount ≠ 1) :
    ((r.slot i).store record).frags.any Option.isNone = true := by
  rw [hslot]
  have hlt := UInt8.lt_iff_toNat_lt.mp hrec.index
  have hne : record.header.fragmentCount.toNat ≠ 1 := fun h => hc (UInt8.toNat_inj.mp h)
  obtain ⟨k, hk, hki⟩ : ∃ k < record.header.fragmentCount.toNat,
      record.header.fragmentIndex.toNat ≠ k := by
    by_cases h : record.header.fragmentIndex.toNat = 0
    · exact ⟨1, by omega, by omega⟩
    · exact ⟨0, by omega, h⟩
  refine any_eq_true.mpr ⟨none, mem_of_getElem? (i := k) ?_, rfl⟩
  show ((List.replicate _ none).set _ _)[k]? = _
  rw [getElem?_set_ne hki]
  simp [hk]

private theorem contiguousLength_whole (hc : record.header.fragmentCount = 1) :
    ((r.slot i).store record).frags.any Option.isNone = false ∧
    contiguousLength ((r.slot i).store record) =
      if record.header.offset = 0 then some record.data.length else none := by
  rw [hslot]
  have hi : record.header.fragmentIndex.toNat = 0 := by
    have hlt := UInt8.lt_iff_toNat_lt.mp hrec.index
    rw [hc] at hlt
    exact Nat.lt_one_iff.mp hlt
  refine ⟨by simp [Slot.started, Slot.store, hc, hi], ?_⟩
  by_cases ho : record.header.offset = 0
  · simp [contiguousLength, contiguousLoop, Slot.started, Slot.store, hc, hi, extent, ho]
  · have ho' : record.header.offset.toNat ≠ 0 := fun h => ho (UInt16.toNat_inj.mp h)
    simp [contiguousLength, contiguousLoop, Slot.started, Slot.store, hc, hi, extent, ho,
      ho']

theorem storeRecord_displaced (evicted : Option Key) (hwf : r.Wf)
    (hc : record.header.fragmentCount = 1) (ho : record.header.offset ≠ 0) :
    (storeRecord i evicted record r).1 = .error .coverage ∧
      ((storeRecord i evicted record r).2.slot i).state = .free := by
  have hf : Fits r.config (r.slot i) record := by
    rw [hslot]
    exact fits_started hrec
  obtain ⟨hfu, hlen⟩ := contiguousLength_whole hslot hrec hc
  rw [if_neg ho] at hlen
  have hst := storeRecord_uncovered evicted hwf hf hfu hlen
  have herr := congrArg Prod.fst (storeRecord_coverage evicted hf hfu hlen)
  generalize storeRecord i evicted record r = out at hst herr ⊢
  cases hst with
  | refused _ _ hcomp =>
    rw [hslot] at hcomp
    cases hcomp
  | dropped _ _ _ _ _ hfr => exact ⟨herr, hfr⟩
  | duplicate | accepted | completed => cases herr

/-- Only a whole packet that does not begin at its first byte is refused by a new slot. -/
theorem storeRecord_started (evicted : Option Key) :
    (∃ result, (storeRecord i evicted record r).1 = .ok result ∧ result.evicted = evicted ∧
      ((storeRecord i evicted record r).2.slot i).Active ∧
      ((storeRecord i evicted record r).2.slot i).key = key) ∨
    (storeRecord i evicted record r).1 = .error .coverage ∧ record.header.fragmentCount = 1 ∧
      record.header.offset ≠ 0 := by
  have hf : Fits r.config (r.slot i) record := by
    rw [hslot]
    exact fits_started hrec
  by_cases hc : record.header.fragmentCount = 1
  · obtain ⟨hfu, hlen⟩ := contiguousLength_whole hslot hrec hc
    by_cases ho : record.header.offset = 0
    · rw [if_pos ho] at hlen
      rw [storeRecord_completed evicted hf hfu hlen]
      refine .inl ⟨_, rfl, rfl, ?_⟩
      rw [slot_setSlot_self hf.lt, hslot]
      exact ⟨⟨nofun, rfl⟩, rfl⟩
    · rw [if_neg ho] at hlen
      rw [storeRecord_coverage evicted hf hfu hlen]
      exact .inr ⟨rfl, hc, ho⟩
  · rw [storeRecord_accepted evicted hf (any_isNone_store hslot hrec hc)]
    refine .inl ⟨_, rfl, rfl, ?_⟩
    rw [slot_setSlot_self hf.lt, hslot]
    exact ⟨⟨nofun, rfl⟩, rfl⟩

end New

/-- A call for a new key takes over the slot `i` of another one. -/
structure Replaces (r : Reassembler) (now : Time) (key : Key) (record : Record) (i : ℕ) : Prop where
  needed : NeedsEviction r key
  candidate : Candidate r key i
  oldest : ∀ j, Candidate r key j → (r.slot i).rank ≤ (r.slot j).rank
  taken : ∃ r₁, Allocated r now key record.header.fragmentCount i (some (r.slot i).key) r₁ ∧
    accept now key record r = storeRecord i (some (r.slot i).key) record r₁
  stored : ∀ result, (accept now key record r).1 = .ok result →
    result.evicted = some (r.slot i).key ∧ ((accept now key record r).2.slot i).Active ∧
    ((accept now key record r).2.slot i).key = key

theorem accept_new_key (now : Time) (hwf : r.Wf) (hp : key.peerID < r.config.maxPeers)
    (hs : key.dataSessionID ≠ 0) (hrec : Acceptable r.config key record)
    (hfresh : ∀ i, (r.slot i).Active → (r.slot i).key ≠ key) :
    (∀ i, (r.slot i).state ≠ .free → (accept now key record r).2.slot i ≠ r.slot i →
      Replaces r now key record i) ∧
    ((accept now key record r).1 = .error .peerQuota ∨
      (accept now key record r).1 = .error .noSlot ↔
      NeedsEviction r key ∧ ∀ i, ¬ Candidate r key i) := by
  rcases accept_allocates now hwf hp hs hrec hfresh with
    ⟨i, ev, r₁, hal, hvi, ha⟩ | ⟨hno, e, he, ha⟩
  · obtain ⟨born, hb⟩ := hal.slot
    have hr1 : Acceptable r₁.config key record := by
      rw [(Steps.config hal.steps).1]
      exact hrec
    have hac : (r₁.slot i).Active := by
      rw [hb]
      exact ⟨nofun, rfl⟩
    have hst := storeRecord_stored ev (Steps.wf hal.steps hwf) hac hr1
    have hen := storeRecord_started hb hr1 ev
    rw [ha]
    constructor
    · intro j hj hch
      obtain rfl : j = i := by
        by_contra hji
        exact hch ((hst.others hji).trans (hal.others j hji))
      obtain ⟨hcr, hv⟩ := hvi.resolve_left fun h => hj (freeList_head hwf.free h.2.1).1.2
      obtain ⟨hcand, hle⟩ := victim_spec hv
      obtain rfl := hal.evicts hcand.1
      refine ⟨(crowded_iff hwf).mp hcr, hcand, hle, ⟨r₁, hal, ha⟩, fun result hre => ?_⟩
      rw [ha] at hre ⊢
      rcases hen with ⟨_, hok, hr⟩ | ⟨her, -⟩
      · obtain rfl := Except.ok.inj (hok.symm.trans hre)
        exact hr
      · cases her.symm.trans hre
    · refine iff_of_false ?_ ?_
      · rcases hen with ⟨_, hok, -⟩ | ⟨her, -⟩
        · simp [hok]
        · simp [her]
      · rintro ⟨hneed, hn⟩
        rcases hvi with ⟨hcr, -⟩ | ⟨-, hv⟩
        · exact hcr ((crowded_iff hwf).mpr hneed)
        · exact hn i (victim_spec hv).1
  · rw [ha]
    refine ⟨fun i _ hch => absurd rfl hch, iff_of_true ?_ (not_hasSlot_iff.mp hno)⟩
    exact he.imp (congrArg _) (congrArg _)

/-! ### What a refused record leaves -/

theorem Stored.evicted {evicted : Option Key} {result : Result}
    {out : Except Error Result × Reassembler} (h : Stored r i evicted record out)
    (hok : out.1 = .ok result) : result.evicted = evicted := by
  cases h with
  | refused | dropped => cases hok
  | duplicate | accepted | completed =>
    cases hok
    rfl

/-- A slot of another key that has changed was evicted. -/
theorem Outcome.evicted {out : Except Error Result × Reassembler}
    (h : Outcome now key record r out) (hwf : r.Wf) (hs : (r.slot i).state ≠ .free)
    (hk : (r.slot i).key ≠ key) (hch : out.2.slot i ≠ r.slot i) :
    evicts now key record r = some (r.slot i).key ∧
      ∀ result, out.1 = .ok result → result.evicted = some (r.slot i).key := by
  cases h with
  | refused e _ _ hsl =>
    obtain ⟨hd, hw⟩ := (hsl i).resolve_left hch
    have ha := active_of_assembling hwf (assembling_of hs hd.before)
    exact ⟨(hw ha).resolve_left hk, nofun⟩
  | stored k ev _ hev hl hst =>
    have heq : ev = some (r.slot i).key := by
      by_cases hik : i = k
      · subst hik
        cases hl with
        | live _ _ hkey => exact absurd hkey hk
        | fresh _ _ _ _ _ _ hb he => exact he (assembling_of hs hb) hk
      · rw [hst.others hik] at hch
        cases hl with
        | live => exact absurd rfl hch
        | fresh _ _ _ _ _ _ _ _ ho =>
          obtain ⟨-, hkey, -⟩ := (ho i hik).resolve_left hch
          exact absurd hkey hk
    subst heq
    exact ⟨hev, fun _ hok => hst.evicted hok⟩

theorem accept_of_evicts {k : Key} (hwf : r.Wf) (h : evicts now key record r = some k) :
    (∃ result, (accept now key record r).1 = .ok result) ∨
      record.header.fragmentCount = 1 ∧ record.header.offset ≠ 0 := by
  unfold evicts at h
  split at h
  · next i ev hkey hv ho =>
    subst h
    rcases locate_spec now record.header.fragmentCount hwf (validateKey_ok hkey).1 with
      ⟨i', _, r₁, hlo, hl⟩ | ⟨_, hlo, -⟩
    · rw [hlo] at ho
      cases ho
      have ha : accept now key record r = storeRecord i (some k) record r₁ := by
        unfold accept
        simp only [Eff.bind_apply, Eff.get_apply, hkey, hv, hlo]
      have hrec : Acceptable r₁.config key record := by
        rw [(Steps.config hl.steps).1]
        exact validateRecord_ok.mp hv
      cases hl with
      | fresh _ _ _ _ _ hslot =>
        rw [ha]
        rcases storeRecord_started hslot hrec (some k) with ⟨result, hok, -⟩ | ⟨-, hlone⟩
        · exact .inl ⟨result, hok⟩
        · exact .inr hlone
    · rw [hlo] at ho
      cases ho
  · cases h

/-- A slot that is free for a new key is taken without an eviction. -/
theorem allocateSlot_uncrowded {count : UInt8} {k : Key} (hwf : r.Wf) (h : ¬ Crowded r key) :
    (allocateSlot now key count r).1 ≠ .ok (some (i, some k)) := by
  obtain ⟨hquota, hhead⟩ := not_or.mp h
  obtain ⟨j, hj⟩ := Option.ne_none_iff_exists'.mp hhead
  unfold allocateSlot
  simp only [Eff.bind_apply, Eff.get_apply]
  rw [if_neg hquota]
  simp only [Eff.bind_apply, takeFreeSlot_some hwf hj]
  cases startSlot j now key count (r.taken j) with
  | mk reply =>
    cases reply with
    | error => nofun
    | ok =>
      simp only [Eff.pure_apply]
      nofun

/-- A slot that is cleared makes room in the free list and in the quota of its peer. -/
theorem Reassembler.Clears.uncrowded (h : Clears r i r₁) (hwf : r.Wf) (ha : (r.slot i).Active)
    (hk : (r.slot i).key = key) : ¬ Crowded r₁ key := by
  have hle := hwf.quota key.peerID
  have hpos : 0 < r.config.perPeerSlots := hwf.config.2.2.2.2.1
  rintro (hquota | hhead)
  · rw [h.config, h.count, if_pos ⟨ha, congrArg Key.peerID hk⟩, toNat_countDown] at hquota
    omega
  · rw [h.head] at hhead
    cases hhead

theorem evicts_some {k : Key} (hwf : r.Wf) (h : evicts now key record r = some k) :
    validateKey r.config key = .ok () ∧ validateRecord r.config key record = .ok () ∧
      (∀ j, (r.slot j).Active → (r.slot j).key ≠ key) ∧ NeedsEviction r key ∧
      ∃ i, Candidate r key i := by
  unfold evicts at h
  split at h
  case h_2 => cases h
  next i ev hkey hrec hloc =>
  subst h
  refine ⟨hkey, hrec, ?_⟩
  unfold locate liveSlot at hloc
  simp only [Eff.bind_apply, Eff.get_apply] at hloc
  cases hf : r.findKey key with
  | none =>
    have hfresh : ∀ j, (r.slot j).Active → (r.slot j).key ≠ key :=
      fun j hj => findKey_none hwf hf hj
    simp only [hf] at hloc
    change (allocateSlot now key record.header.fragmentCount r).1 = _ at hloc
    have hcrowded : Crowded r key := by
      by_contra hno
      exact allocateSlot_uncrowded hwf hno hloc
    refine ⟨hfresh, (crowded_iff hwf).mp hcrowded, ?_⟩
    rcases allocateSlot_spec hwf hfresh (validateKey_ok hkey).1 with
      ⟨j, _, _, -, -, ⟨hno, -⟩ | ⟨-, hv⟩⟩ | ⟨hnone, -⟩
    · exact absurd hcrowded hno
    · exact ⟨j, (victim_spec hv).1⟩
    · rw [hnone] at hloc
      cases hloc
  | some j =>
    obtain ⟨ha, hk⟩ := findKey_some hwf hf
    simp only [hf] at hloc
    by_cases hex : (r.slot j).state = .assembling ∧ r.expired (r.slot j) now
    · have hc := clearSlot_spec hwf ha.1
      rw [if_pos hex] at hloc
      exact absurd hloc (allocateSlot_uncrowded hc.wf (hc.uncrowded hwf ha hk))
    · rw [if_neg hex] at hloc
      cases hloc

section Evict
variable {config : Config} {hash : Key → UInt64} (hnew : new config hash = .ok r)
include hnew

/-- In any reachable state, a valid record of a new key. -/
theorem accept_replaces (calls : List Call) (now : Time)
    (hkey : validateKey config key = .ok ()) (hrec : validateRecord config key record = .ok ())
    (hfresh : ∀ i, ((r.run calls).slot i).Active → ((r.run calls).slot i).key ≠ key) :
    (config.perPeerSlots < 4294967296 →
      ∀ p, ((r.run calls).peerCount p).toNat = (r.run calls).load p) ∧
    (∀ i, ((r.run calls).slot i).state ≠ .free →
      (accept now key record (r.run calls)).2.slot i ≠ (r.run calls).slot i →
      Replaces (r.run calls) now key record i) ∧
    ((accept now key record (r.run calls)).1 = .error .peerQuota ∨
      (accept now key record (r.run calls)).1 = .error .noSlot ↔
      NeedsEviction (r.run calls) key ∧ ∀ i, ¬ Candidate (r.run calls) key i) := by
  have hwf₀ := (new_wf hnew).1
  have hwf := run_wf hwf₀ calls
  obtain ⟨hpeer, hses⟩ := validateKey_ok hkey
  rw [← run_config hnew hwf₀ calls] at hpeer hrec
  refine ⟨fun hquo p => ?_, accept_new_key now hwf hpeer hses (validateRecord_ok.mp hrec) hfresh⟩
  rw [← new_config hnew] at hquo
  exact Steps.exact (run_steps hwf₀ calls) hquo (new_exact hnew) p

end Evict

/-- One assembling slot, of a peer whose quota is one. -/
def sampleHalf : List Call := [.accept 0 ⟨0, 1, 0, 5⟩ (firstHalf 5)]

theorem accept_replaces_sample : ∃ r, new sampleConfig = .ok r ∧
    Replaces (r.run sampleHalf) 1 ⟨0, 1, 0, 6⟩ (firstHalf 6) 0 := by
  obtain ⟨r, hr, hslot⟩ : ∃ r, new sampleConfig = .ok r ∧ (r.run sampleHalf).slots.length = 2 ∧
      ((r.run sampleHalf).slot 0).state = .assembling ∧
      (∀ i < 2, ((r.run sampleHalf).slot i).key ≠ ⟨0, 1, 0, 6⟩) ∧
      ((accept 1 ⟨0, 1, 0, 6⟩ (firstHalf 6) (r.run sampleHalf)).2.slot 0).key = ⟨0, 1, 0, 6⟩ :=
    ⟨_, rfl, by decide +kernel, by decide +kernel, by decide +kernel, by decide +kernel⟩
  obtain ⟨hlen, hs, hkeys, hnow⟩ := hslot
  refine ⟨r, hr, (accept_replaces hr sampleHalf 1 rfl rfl fun i ha => ?_).2.1 0 (by simp [hs]) ?_⟩
  · exact hkeys i (hlen ▸ lt_of_active ha)
  · intro hsame
    rw [hsame] at hnow
    exact hkeys 0 (by decide) hnow

/-- A record that is refused leaves the slots of other keys alone and at most removes that of its
own, and whatever slot of another key is taken is reported. -/
structure Spares (now : Time) (key : Key) (record : Record) (r : Reassembler) : Prop where
  own : (∃ e, (accept now key record r).1 = .error e) → ∀ i,
    (accept now key record r).2.slot i = r.slot i ∨
      ((accept now key record r).2.slot i).state = .free
  others : (∃ e, (accept now key record r).1 = .error e) → ∀ i, (r.slot i).state ≠ .free →
    (r.slot i).key ≠ key → (accept now key record r).2.slot i = r.slot i
  reported : ∀ i, (r.slot i).state ≠ .free → (r.slot i).key ≠ key →
    (accept now key record r).2.slot i ≠ r.slot i →
    ∃ result, (accept now key record r).1 = .ok result ∧ result.evicted = some (r.slot i).key

/-- A whole packet that does not begin at its first byte, for which a slot of another key must be
taken and can be. -/
structure Harmful (r : Reassembler) (key : Key) (record : Record) : Prop where
  validKey : validateKey r.config key = .ok ()
  validRecord : validateRecord r.config key record = .ok ()
  fresh : ∀ i, (r.slot i).Active → (r.slot i).key ≠ key
  needed : NeedsEviction r key
  candidate : ∃ i, Candidate r key i
  whole : record.header.fragmentCount = 1
  displaced : record.header.offset ≠ 0

private theorem spares_of_not_harmful (hwf : r.Wf) (now : Time) (hsafe : ¬ Harmful r key record) :
    Spares now key record r := by
  have hout := accept_outcome hwf now key record
  have hrep : ∀ i, (r.slot i).state ≠ .free → (r.slot i).key ≠ key →
      (accept now key record r).2.slot i ≠ r.slot i →
      ∃ result, (accept now key record r).1 = .ok result ∧
        result.evicted = some (r.slot i).key := by
    intro i hs hk hch
    obtain ⟨hev, hrep⟩ := hout.evicted hwf hs hk hch
    rcases accept_of_evicts hwf hev with ⟨result, hok⟩ | ⟨hcnt, hoff⟩
    · exact ⟨result, hok, hrep result hok⟩
    · obtain ⟨hkey, hrec, hfresh, hneed, hcand⟩ := evicts_some hwf hev
      exact absurd ⟨hkey, hrec, hfresh, hneed, hcand, hcnt, hoff⟩ hsafe
  refine ⟨fun ⟨e, he⟩ i => ?_, fun ⟨e, he⟩ i hs hk => ?_, hrep⟩
  · cases hout' : accept now key record r with
    | mk reply m' =>
      rw [hout'] at hout he
      cases hout with
      | refused _ _ _ hsl => exact (hsl i).imp_right fun h => h.1.after
      | stored _ _ _ _ _ _ hok =>
        obtain ⟨_, hok⟩ := hok
        cases hok.symm.trans he
  · by_contra hch
    obtain ⟨_, hok, -⟩ := hrep i hs hk hch
    cases hok.symm.trans he

/-- The slot that is taken is free in the end, and the error does not tell of it. -/
theorem Harmful.harms (h : Harmful r key record) (hwf : r.Wf) (now : Time) :
    ¬ Spares now key record r := by
  intro hsp
  have hrec := validateRecord_ok.mp h.validRecord
  obtain ⟨hpeer, hses⟩ := validateKey_ok h.validKey
  rcases accept_allocates now hwf hpeer hses hrec h.fresh with
    ⟨i, ev, r₁, hal, hvi, ha⟩ | ⟨hno, -⟩
  · obtain ⟨-, hv⟩ := hvi.resolve_left fun hnot => hnot.1 ((crowded_iff hwf).mpr h.needed)
    have hcand := (victim_spec hv).1.1
    obtain ⟨born, hslot⟩ := hal.slot
    have hrec₁ : Acceptable r₁.config key record := by
      rw [(Steps.config hal.steps).1]
      exact hrec
    obtain ⟨herr, hfree⟩ := storeRecord_displaced hslot hrec₁ ev (Steps.wf hal.steps hwf) h.whole
      h.displaced
    rw [← ha] at herr hfree
    have hsame := hsp.others ⟨_, herr⟩ i (by simp [hcand])
      (h.fresh i (active_of_assembling hwf hcand))
    rw [hsame, hcand] at hfree
    cases hfree
  · obtain ⟨i, hcand⟩ := h.candidate
    exact (not_hasSlot_iff.mp hno).2 i hcand

/-- In any reachable state, a record spares the slots of other keys if and only if it is not a whole
packet away from its first byte for which another packet would be evicted. -/
theorem accept_spares {config : Config} {hash : Key → UInt64} (hnew : new config hash = .ok r)
    (calls : List Call) (now : Time) (key : Key) (record : Record) :
    Spares now key record (r.run calls) ↔ ¬ Harmful (r.run calls) key record := by
  have hwf := run_wf (new_wf hnew).1 calls
  exact ⟨fun hspares hharmful => hharmful.harms hwf now hspares, spares_of_not_harmful hwf now⟩

theorem accept_spares_sample : ∃ r, new sampleConfig = .ok r ∧
    ((r.run sampleHalf).slot 0).state = .assembling ∧ ∃ result,
      (accept 1 ⟨0, 1, 0, 6⟩ (firstHalf 6) (r.run sampleHalf)).1 = .ok result ∧
      result.evicted = some ((r.run sampleHalf).slot 0).key := by
  obtain ⟨r, hr, hs, hkey, hnow⟩ : ∃ r, new sampleConfig = .ok r ∧
      ((r.run sampleHalf).slot 0).state = .assembling ∧
      ((r.run sampleHalf).slot 0).key ≠ ⟨0, 1, 0, 6⟩ ∧
      ((accept 1 ⟨0, 1, 0, 6⟩ (firstHalf 6) (r.run sampleHalf)).2.slot 0).key = ⟨0, 1, 0, 6⟩ :=
    ⟨_, rfl, by decide +kernel, by decide +kernel, by decide +kernel⟩
  have hsafe : ¬ Harmful (r.run sampleHalf) ⟨0, 1, 0, 6⟩ (firstHalf 6) :=
    fun h => absurd h.whole (by decide)
  refine ⟨r, hr, hs, ((accept_spares hr sampleHalf 1 ⟨0, 1, 0, 6⟩ (firstHalf 6)).mpr
    hsafe).reported 0 (by simp [hs]) hkey fun hsame => ?_⟩
  rw [hsame] at hnow
  exact hkey hnow

/-- A whole packet that does not begin at its first byte. -/
def displaced : Record := ⟨⟨0, 1, 0, 1, 6, 1⟩, [7]⟩

/-- It takes the slot of another packet, is refused, and nothing tells of the eviction. -/
theorem accept_harms : displaced.Valid ∧ ∃ r, new sampleConfig = .ok r ∧
    ((r.run sampleHalf).slot 0).state = .assembling ∧
    ((r.run sampleHalf).slot 0).key = ⟨0, 1, 0, 5⟩ ∧
    (accept 1 ⟨0, 1, 0, 6⟩ displaced (r.run sampleHalf)).1 = .error .coverage ∧
    ((accept 1 ⟨0, 1, 0, 6⟩ displaced (r.run sampleHalf)).2.slot 0).state = .free :=
  ⟨by decide, _, rfl, by decide +kernel, by decide +kernel, by decide +kernel, by decide +kernel⟩

end WgFrag.Data.Reassembly
