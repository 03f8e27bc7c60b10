import WgFrag.Data.Balance

/-! The calls of a receiver keep its books: the number of packets held, the budget, and the
deadline of the oldest gap. -/
namespace WgFrag.Data
open WgFrag.Lib Limits List
open Reassembly (Reassembler Packet SlotHandle Owned Holding)
open Reorder (Reorderer Flushes Accepts Advances)

variable {r r' : Receiver} {lane : UInt8} {q : Reorderer} {hand packets given taken : List Packet}
  {packet p : Packet} {sink : Sink} {now : Time}
variable {seen : List UInt8} {beforeHeld : ℤ} {t : Time} {ordered : Reorder.Result} {α : Type}

/-! ### Gap deadlines -/

def Receiver.gapDeadline (r : Receiver) (lane : UInt8) : Time :=
  (r.reorders lane).gapStartedAt + r.config.reorderMaxDelay

/-- `t` is the earliest deadline of the gaps; it is zero without a gap. -/
structure Earliest (r : Receiver) (t : Time) : Prop where
  idle : r.waiting = [] → t = 0
  le : ∀ lane, (r.reorders lane).pending ≠ [] → t ≤ r.gapDeadline lane
  attained : r.waiting ≠ [] → ∃ lane, (r.reorders lane).pending ≠ [] ∧ t = r.gapDeadline lane

/-- Gaps began after the zero instant. -/
def Receiver.Started (r : Receiver) : Prop :=
  ∀ lane, (r.reorders lane).pending ≠ [] → 0 < (r.reorders lane).gapStartedAt

structure OnTime (r : Receiver) : Prop where
  started : r.Started
  earliest : Earliest r r.reorderDeadline

theorem waiting_eq_nil : r.waiting = [] ↔ ∀ lane, (r.reorders lane).pending = [] := by
  simp only [eq_nil_iff_forall_not_mem, mem_waiting]
  exact ⟨fun h lane p hp => h p ⟨lane, hp⟩, fun h p ⟨lane, hp⟩ => h lane p hp⟩

/-- The deadline of the lanes in `seen`. -/
def EarliestOf (r : Receiver) (seen : List UInt8) (t : Time) : Prop :=
  (t = 0 ∧ ∀ lane ∈ seen, (r.reorders lane).pending = []) ∨
    ((∃ lane ∈ seen, (r.reorders lane).pending ≠ [] ∧ t = r.gapDeadline lane) ∧
      ∀ lane ∈ seen, (r.reorders lane).pending ≠ [] → t ≤ r.gapDeadline lane)

/-- The lanes without packets do not matter. -/
theorem earliestOf_iff (ha : ∀ lane, (r.reorders lane).pending ≠ [] → lane ∈ seen) :
    EarliestOf r seen t ↔ Earliest r t := by
  constructor
  · rintro (⟨ht, he⟩ | ⟨⟨l, hl, hp, ht⟩, hle⟩)
    · have hn : ∀ lane, (r.reorders lane).pending = [] := by
        intro lane
        by_contra hp
        exact hp (he lane (ha lane hp))
      exact ⟨fun _ => ht, fun l hp => absurd (hn l) hp,
        fun hw => absurd (waiting_eq_nil.mpr hn) hw⟩
    · exact ⟨fun hw => absurd (waiting_eq_nil.mp hw l) hp, fun l' hp' => hle l' (ha l' hp') hp',
        fun _ => ⟨l, hp, ht⟩⟩
  · intro h
    by_cases hw : r.waiting = []
    · exact .inl ⟨h.idle hw, fun l _ => waiting_eq_nil.mp hw l⟩
    · obtain ⟨l, hp, ht⟩ := h.attained hw
      exact .inr ⟨⟨l, ha l hp, hp, ht⟩, fun l' _ hp' => h.le l' hp'⟩

theorem EarliestOf.congr (h : EarliestOf r seen t)
    (heq : ∀ lane ∈ seen, ((r'.reorders lane).pending = [] ↔ (r.reorders lane).pending = []) ∧
      ((r.reorders lane).pending ≠ [] → r'.gapDeadline lane = r.gapDeadline lane)) :
    EarliestOf r' seen t := by
  rcases h with ⟨ht, he⟩ | ⟨⟨l, hl, hp, ht⟩, hle⟩
  · exact .inl ⟨ht, fun l hl => (heq l hl).1.mpr (he l hl)⟩
  refine .inr ⟨⟨l, hl, mt (heq l hl).1.mp hp, ht.trans ((heq l hl).2 hp).symm⟩, ?_⟩
  intro l' hl' hp'
  have hp := mt (heq l' hl').1.mpr hp'
  rw [(heq l' hl').2 hp]
  exact hle l' hl' hp

section Scan
variable (hqueue : ∀ lane, (r.reorders lane).Ok)
  (hpos : ∀ lane, (r.reorders lane).pending ≠ [] → 0 < r.gapDeadline lane)
include hqueue hpos

theorem earlierOf_step {seen : List UInt8} {t : Time} (h : EarliestOf r seen t) (lane : UInt8) :
    EarliestOf r (seen ++ [lane]) (r.earlierOf t lane) := by
  have he : (r.reorders lane).count = 0 ↔ (r.reorders lane).pending = [] := by
    rw [(hqueue lane).tallied.count, length_eq_zero_iff]
  have hmem : ∀ l, l ∈ seen ++ [lane] ↔ l ∈ seen ∨ l = lane := by simp
  unfold Receiver.earlierOf
  by_cases hn : (r.reorders lane).pending = []
  · rw [if_pos (he.mpr hn)]
    rcases h with ⟨ht, hal⟩ | ⟨⟨l, hl, ha⟩, hle⟩
    · refine .inl ⟨ht, fun l hl => ?_⟩
      rcases (hmem l).mp hl with hl | rfl
      · exact hal l hl
      · exact hn
    · refine .inr ⟨⟨l, (hmem l).mpr (.inl hl), ha⟩, fun l' hl' hp => ?_⟩
      rcases (hmem l').mp hl' with hl' | rfl
      · exact hle l' hl' hp
      · exact absurd hn hp
  · rw [if_neg (mt he.mp hn)]
    show EarliestOf r (seen ++ [lane]) (if t = 0 ∨ r.gapDeadline lane < t
      then r.gapDeadline lane else t)
    right
    rcases h with ⟨ht, hal⟩ | ⟨⟨l, hl, hp, ht⟩, hle⟩
    · rw [if_pos (.inl ht)]
      refine ⟨⟨lane, (hmem lane).mpr (.inr rfl), hn, rfl⟩, fun l hl hp => ?_⟩
      rcases (hmem l).mp hl with hl | rfl
      · exact absurd (hal l hl) hp
      · exact le_refl _
    · have htpos := hpos l hp
      rw [← ht] at htpos
      by_cases hlt : r.gapDeadline lane < t
      · rw [if_pos (.inr hlt)]
        refine ⟨⟨lane, (hmem lane).mpr (.inr rfl), hn, rfl⟩, fun l' hl' hp' => ?_⟩
        rcases (hmem l').mp hl' with hl' | rfl
        · exact le_of_lt (lt_of_lt_of_le hlt (hle l' hl' hp'))
        · exact le_refl _
      · rw [if_neg (not_or.mpr ⟨ne_of_gt htpos, hlt⟩)]
        refine ⟨⟨l, (hmem l).mpr (.inl hl), hp, ht⟩, fun l' hl' hp' => ?_⟩
        rcases (hmem l').mp hl' with hl' | rfl
        · exact hle l' hl' hp'
        · exact not_lt.mp hlt

private theorem foldl_earlierOf {seen rest : List UInt8} {t : Time} (h : EarliestOf r seen t) :
    EarliestOf r (seen ++ rest) (rest.foldl r.earlierOf t) := by
  induction rest generalizing seen t with
  | nil => simpa using h
  | cons lane _ ih =>
    have hnx := ih (earlierOf_step hqueue hpos h lane)
    rw [append_assoc] at hnx
    exact hnx

private theorem earliest_foldl : Earliest r (lanes.foldl r.earlierOf 0) := by
  have h : EarliestOf r ([] ++ lanes) (lanes.foldl r.earlierOf 0) :=
    foldl_earlierOf hqueue hpos (.inl ⟨rfl, by simp⟩)
  exact (earliestOf_iff fun lane _ => mem_lanes lane).mp h

end Scan

/-! ### Bookkeeping -/

/-- The packets held are counted, and within the budget. -/
structure Balanced (hand : List Packet) (r : Receiver) : Prop where
  custody : Custody hand r
  counted : r.reorderHeld = r.waiting.length
  within : r.reorderHeld ≤ r.reorderBudget

/-- Only the count and the deadline changed. -/
def Booked (r r' : Receiver) : Prop :=
  ∃ held deadline, r' = { r with reorderHeld := held, reorderDeadline := deadline }

theorem Booked.custody (h : Booked r r') (hc : Custody hand r) : Custody hand r' := by
  obtain ⟨_, _, rfl⟩ := h
  exact ⟨hc.enabled, hc.output, hc.store, hc.delay, hc.budget, hc.queue, hc.lane, hc.owned⟩

theorem refresh_booked (r : Receiver) (recompute : Bool) (now : Time) :
    ∃ t, r.refreshReorderDeadline recompute now = { r with reorderDeadline := t } := by
  unfold Receiver.refreshReorderDeadline
  split
  · exact ⟨0, rfl⟩
  split
  · exact ⟨_, rfl⟩
  · split
    · exact ⟨r.reorderDeadline, rfl⟩
    · exact ⟨_, rfl⟩

theorem consider_booked (r : Receiver) (candidate : Time) :
    ∃ t, r.considerReorderDeadline candidate = { r with reorderDeadline := t } := by
  unfold Receiver.considerReorderDeadline
  split_ifs
  · exact ⟨r.reorderDeadline, rfl⟩
  · exact ⟨_, rfl⟩
  · exact ⟨r.reorderDeadline, rfl⟩

theorem OnTime.retimed (hs : r.Started) (h : Earliest r t) :
    OnTime { r with reorderDeadline := t } :=
  ⟨hs, ⟨h.idle, h.le, h.attained⟩⟩

theorem refresh_idle (hw : r.waiting = []) (hcn : r.reorderHeld = r.waiting.length)
    (recompute : Bool) : OnTime (r.refreshReorderDeadline recompute now) := by
  have hz : r.reorderHeld = 0 := by
    rw [hcn, hw]
    rfl
  have hn := waiting_eq_nil.mp hw
  unfold Receiver.refreshReorderDeadline
  rw [if_pos (.inr hz)]
  exact OnTime.retimed (fun l hp => absurd (hn l) hp) ⟨fun _ => rfl,
    fun l hp => absurd (hn l) hp, fun hne => absurd hw hne⟩

theorem refresh_onTime (hc : Custody hand r) (hcn : r.reorderHeld = r.waiting.length)
    (hs : r.Started) : OnTime (r.refreshReorderDeadline true now) := by
  have hpos : ∀ lane, (r.reorders lane).pending ≠ [] → 0 < r.gapDeadline lane := by
    intro lane hp
    exact add_pos (hs lane hp) hc.delay
  by_cases hz : r.reorderHeld = 0
  · exact refresh_idle (eq_nil_of_length_eq_zero (by omega)) hcn true
  · unfold Receiver.refreshReorderDeadline
    rw [if_neg (by simp [hc.enabled, hz]), if_neg (by simp), if_neg (by simp)]
    exact OnTime.retimed hs (earliest_foldl hc.queue hpos)

theorem OnTime.congr (h : OnTime r) (hd : r'.reorderDeadline = r.reorderDeadline)
    (hconfig : r'.config = r.config)
    (heq : ∀ lane, ((r'.reorders lane).pending = [] ↔ (r.reorders lane).pending = []) ∧
      ((r.reorders lane).pending ≠ [] →
        (r'.reorders lane).gapStartedAt = (r.reorders lane).gapStartedAt)) : OnTime r' := by
  constructor
  · intro lane hp'
    have hp := mt (heq lane).1.mpr hp'
    rw [(heq lane).2 hp]
    exact h.started lane hp
  · rw [hd]
    have ha := (earliestOf_iff fun lane _ => mem_lanes lane).mpr h.earliest
    refine (earliestOf_iff fun lane _ => mem_lanes lane).mp (ha.congr fun lane _ => ?_)
    refine ⟨(heq lane).1, fun hp => ?_⟩
    unfold Receiver.gapDeadline
    rw [(heq lane).2 hp, hconfig]

theorem Kept.onTime (h : Kept r r') (ht : OnTime r) : OnTime r' := by
  apply ht.congr h.reorderDeadline h.config
  intro lane
  rw [h.reorders]
  exact ⟨Iff.rfl, fun _ => rfl⟩

theorem started_setLane (hs : r.Started) (hq : q.pending ≠ [] → 0 < q.gapStartedAt) :
    (r.setLane lane q).Started := by
  intro l
  show (Function.update r.reorders lane q l).pending ≠ [] → _
  by_cases hl : l = lane
  · subst hl
    simp only [Receiver.setLane, Function.update_self]
    exact hq
  · simp only [Receiver.setLane, Function.update_of_ne hl]
    exact hs l

/-! ### Events -/

/-- What happens to the packets in hand: a queue takes some of them and gives others back, which
are delivered, or one is dropped. -/
inductive Event (sink : Sink) : List Packet × Receiver → List Packet × Receiver → Prop
  | pass {r r₁ r' : Receiver} {lane : UInt8} {q : Reorderer} {hand taken given : List Packet}
    {err : Option ReceiverError} : (∀ p ∈ taken, p.key.laneID = lane) →
    (given ++ q.pending).Perm (taken ++ (r.reorders lane).pending) →
    Advances (r.reorders lane).next given q.next → Booked (r.setLane lane q) r₁ →
    Delivered sink given none r₁ err r' → Event sink (taken ++ hand, r) (hand, r')
  | book {r r' : Receiver} {hand : List Packet} : Booked r r' → Event sink (hand, r) (hand, r')
  | drop {r : Receiver} {hand : List Packet} (p : Packet) : Event sink (p :: hand, r)
    (hand, { r with reassembly := (r.reassembly.release p.handle).2 })

def Fixed (r r' : Receiver) : Prop :=
  r'.config = r.config ∧ r'.reorderBudget = r.reorderBudget

theorem Fixed.trans {r'' : Receiver} (h : Fixed r r') (h' : Fixed r' r'') : Fixed r r'' :=
  ⟨h'.1.trans h.1, h'.2.trans h.2⟩

theorem Booked.fixed (h : Booked r r') : Fixed r r' := by
  obtain ⟨_, _, rfl⟩ := h
  exact ⟨rfl, rfl⟩

theorem Event.fixed {s t : List Packet × Receiver} (h : Event sink s t) : Fixed s.2 t.2 := by
  cases h with
  | pass _ _ _ hbooked hd =>
    have hs := hbooked.fixed
    exact ⟨hd.kept.config.trans hs.1, hd.kept.reorderBudget.trans hs.2⟩
  | book h => exact h.fixed
  | drop => exact ⟨rfl, rfl⟩

theorem events_fixed {s t : List Packet × Receiver}
    (h : Relation.ReflTransGen (Event sink) s t) : Fixed s.2 t.2 := by
  induction h with
  | refl => exact ⟨rfl, rfl⟩
  | tail _ h ih => exact ih.trans h.fixed

structure Ends (sink : Sink) (now : Time) (hand : List Packet) (r : Receiver)
    (hand' : List Packet) (out : Except ReceiverError Unit × Receiver) : Prop where
  balanced : Balanced hand' out.2
  fine : out.1 = .ok () ∨ out.1 = .error .sink ∧ ¬ sink.Takes
  onTime : 0 < now → OnTime r → OnTime out.2
  events : Relation.ReflTransGen (Event sink) (hand, r) (hand', out.2)

theorem Ends.trans {hand' hand'' : List Packet} {out : Except ReceiverError Unit × Receiver}
    (h : Ends sink now hand r hand' (.ok (), r')) (h' : Ends sink now hand' r' hand'' out) :
    Ends sink now hand r hand'' out :=
  ⟨h'.balanced, h'.fine, fun hnow ht => h'.onTime hnow (h.onTime hnow ht), h.events.trans h'.events⟩

theorem deliver_spec (sink : Sink) (h : Custody (given ++ hand) r) :
    ∃ err, Delivered sink given none r err (deliver given sink r).2 ∧
      Custody hand (deliver given sink r).2 ∧ ((deliver given sink r).1 = .ok () ∨
        (deliver given sink r).1 = .error .sink ∧ ¬ sink.Takes) := by
  obtain ⟨hd, hc⟩ := deliverLoop_spec sink none h
  unfold deliver
  generalize r.deliverLoop sink given none = out at hd hc
  obtain ⟨err, _⟩ := out
  cases err with
  | none => exact ⟨none, hd, hc, .inl rfl⟩
  | some e =>
    have he : e = .sink := by
      rcases hd.error with he | he
      · cases he
      · exact Option.some.inj he
    subst he
    refine ⟨some .sink, hd, hc, .inr ⟨rfl, fun htk => ?_⟩⟩
    have := hd.taken rfl htk
    cases this

section Pass
variable {r₁ : Receiver} (sink : Sink) (hb : Balanced (taken ++ hand) r)
  (htaken : ∀ p ∈ taken, p.key.laneID = lane) (hq : q.Ok)
  (hconfig : q.config = (r.reorders lane).config)
  (hperm : (given ++ q.pending).Perm (taken ++ (r.reorders lane).pending))
  (hadvances : Advances (r.reorders lane).next given q.next)
  (hbooked : Booked (r.setLane lane q) r₁)
  (hheld : r₁.reorderHeld = r.reorderHeld + taken.length - given.length)
  (hwithin : r₁.reorderHeld ≤ r.reorderBudget)
include hb htaken hq hconfig hperm hadvances hbooked hheld hwithin

/-- A queue moves packets, the count follows, and what it gave is delivered. -/
theorem pass_balanced : Balanced hand (deliver given sink r₁).2 ∧
    Custody (given ++ hand) r₁ ∧ r₁.reorderHeld = r₁.waiting.length ∧
    Kept r₁ (deliver given sink r₁).2 ∧ ((deliver given sink r₁).1 = .ok () ∨
      (deliver given sink r₁).1 = .error .sink ∧ ¬ sink.Takes) ∧
    Event sink (taken ++ hand, r) (hand, (deliver given sink r₁).2) := by
  have hc := hbooked.custody (hb.custody.setLane hq hconfig hperm)
  obtain ⟨_, hd, hcu, hfine⟩ := deliver_spec sink hc
  have hcn : r₁.reorderHeld = r₁.waiting.length := by
    have hlen := length_waiting_setLane r lane q
    have hm := hperm.length_eq
    rw [length_append, length_append] at hm
    have := hb.counted
    obtain ⟨held, _, rfl⟩ := hbooked
    show held = (r.setLane lane q).waiting.length
    dsimp only at hheld
    omega
  have hbu : r₁.reorderBudget = r.reorderBudget := by
    obtain ⟨_, _, rfl⟩ := hbooked
    rfl
  refine ⟨⟨hcu, ?_, ?_⟩, hc, hcn, hd.kept, hfine, .pass htaken hperm hadvances hbooked hd⟩
  · rw [hd.kept.reorderHeld, hd.kept.waiting]
    exact hcn
  · rw [hd.kept.reorderHeld, hd.kept.reorderBudget, hbu]
    exact hwithin

theorem pass_spec (hti : r₁.reorderHeld = r₁.waiting.length → 0 < now → OnTime r → OnTime r₁) :
    Ends sink now (taken ++ hand) r hand (deliver given sink r₁) := by
  obtain ⟨hba, -, hcn, hk, hfine, he⟩ := pass_balanced sink hb htaken hq hconfig
    hperm hadvances hbooked hheld hwithin
  exact ⟨hba, hfine, fun hnow ht => hk.onTime (hti hcn hnow ht), .single he⟩

end Pass

theorem Balanced.drop (hb : Balanced (packet :: hand) r) :
    release packet.handle r = (.ok (), { r with
      reassembly := (r.reassembly.release packet.handle).2 }) ∧
    Balanced hand { r with reassembly := (r.reassembly.release packet.handle).2 } := by
  obtain ⟨hok, ho, -⟩ := hb.custody.owned.release
  have hconfig : (r.reassembly.release packet.handle).2.config = r.reassembly.config :=
    (Reassembly.Steps.config
      (Reassembly.call_steps hb.custody.owned.wf (.release packet.handle))).1
  constructor
  · unfold release
    generalize r.reassembly.release packet.handle = out at hok
    obtain ⟨_, _⟩ := out
    subst hok
    rfl
  · refine ⟨hb.custody.kept ⟨rfl, rfl, rfl, rfl, rfl, rfl, hconfig⟩ ho, hb.counted, hb.within⟩

theorem Ends.drop (hb : Balanced (packet :: hand) r) :
    Ends sink now (packet :: hand) r hand (release packet.handle r) := by
  obtain ⟨hrun, hr⟩ := hb.drop
  rw [hrun]
  refine ⟨hr, .inl rfl, fun _ ht => ?_, .single (.drop packet)⟩
  exact ht.congr rfl rfl fun _ => ⟨Iff.rfl, fun _ => rfl⟩

/-! ### Payloads -/

theorem onLane_ok {x : Eff Reorderer Reorder.Error α} {a : α}
    (h : x (r.reorders lane) = (.ok a, q)) : onLane lane x r = (.ok a, r.setLane lane q) := by
  unfold onLane
  rw [h]

theorem orRelease_ok {x : ReceiverM α} {a : α}
    (h : x r = (.ok a, r')) : orRelease packet x r = (.ok a, r') := by
  unfold orRelease
  rw [h]

theorem orRelease_error {x : ReceiverM α} {e : ReceiverError}
    (h : x r = (.error e, r')) : orRelease packet x r =
      (.error e, { r' with reassembly := (r'.reassembly.release packet.handle).2 }) := by
  unfold orRelease
  rw [h]

private theorem foldl_olderOf {oldest : Option UInt8}
    (hs : ∀ lane, oldest = some lane → (r.reorders lane).count ≠ 0) :
    (∀ lane, seen.foldl r.olderOf oldest = some lane → (r.reorders lane).count ≠ 0) ∧
      (seen.foldl r.olderOf oldest = none →
        oldest = none ∧ ∀ lane ∈ seen, (r.reorders lane).count = 0) := by
  induction seen generalizing oldest with
  | nil => exact ⟨hs, fun h => ⟨h, by simp⟩⟩
  | cons lane seen ih =>
    rw [foldl_cons]
    unfold Receiver.olderOf
    split
    · next hskip =>
      obtain ⟨hf, hn⟩ := ih hs
      refine ⟨hf, fun h => ?_⟩
      obtain ⟨rfl, he⟩ := hn h
      refine ⟨rfl, fun l hl => ?_⟩
      rcases mem_cons.mp hl with rfl | hl
      · simpa using hskip
      · exact he l hl
    · next ht =>
      have hla : ∀ l, some lane = some l → (r.reorders l).count ≠ 0 := by
        rintro _ ⟨⟩ h
        exact ht (.inl h)
      obtain ⟨hf, hn⟩ := ih hla
      refine ⟨hf, fun h => ?_⟩
      cases (hn h).1

theorem oldestReorderLane_some (hc : Custody hand r) (h : r.oldestReorderLane = some lane) :
    (r.reorders lane).pending ≠ [] := by
  have hcn := (foldl_olderOf (by simp)).1 lane h
  rw [(hc.queue lane).tallied.count, ne_eq, length_eq_zero_iff] at hcn
  exact hcn

theorem oldestReorderLane_none (hc : Custody hand r) (h : r.oldestReorderLane = none) :
    r.waiting = [] := by
  rw [waiting_eq_nil]
  intro lane
  have hcn := ((foldl_olderOf (by simp)).2 h).2 lane (mem_lanes lane)
  rw [(hc.queue lane).tallied.count, length_eq_zero_iff] at hcn
  exact hcn

theorem capacity_lt_output (hc : Custody hand r) (lane : UInt8) :
    (r.reorders lane).config.capacity + 1 = r.outputSize := by
  rw [hc.lane, hc.output]
  rfl

theorem flushed_ends (sink : Sink) (now : Time) {virtual : Option Packet}
    (hb : Balanced (virtual.toList ++ hand) r) (hl : ∀ p ∈ virtual.toList, p.key.laneID = lane)
    (hfl : Flushes (r.reorders lane) virtual given q) (hq : q.Ok) :
    Ends sink now (virtual.toList ++ hand) r hand (deliver given sink ({ r.setLane lane q with
        reorderHeld := r.reorderHeld + virtual.toList.length - given.length
        : Receiver }.refreshReorderDeadline true now)) := by
  have hc : Custody (given ++ hand) (r.setLane lane q) := by
    apply hb.custody.setLane hq hfl.config
    rw [hfl.empty, append_nil]
    exact hfl.perm
  have hlen := hfl.perm.length_eq
  rw [length_append] at hlen
  obtain ⟨t, ht⟩ := refresh_booked { r.setLane lane q with
    reorderHeld := r.reorderHeld + virtual.toList.length - given.length } true now
  refine pass_spec sink hb hl hq hfl.config ?_ hfl.advances ⟨_, t, ht⟩ ?_ ?_ ?_
  · rw [hfl.empty, append_nil]
    exact hfl.perm
  · rw [ht]
  · have := hb.within
    rw [ht]
    dsimp only
    omega
  · intro hcn _ hon
    have hc' : (r.reorderHeld + virtual.toList.length - given.length : ℤ) =
        (r.setLane lane q).waiting.length := by
      rw [ht] at hcn
      exact hcn
    have hbooked : Custody (given ++ hand) { r.setLane lane q with
        reorderHeld := r.reorderHeld + virtual.toList.length - given.length } :=
      Booked.custody ⟨_, _, rfl⟩ hc
    refine refresh_onTime hbooked hc' ?_
    exact started_setLane hon.started fun hp => absurd hfl.empty hp

private theorem flushOldestReorder_eq {oldest : UInt8} (hl : r.oldestReorderLane = some oldest)
    (hfl : Reorder.flush r.outputSize (r.reorders oldest) = (.ok given, q)) :
    flushOldestReorder now sink r = deliver given sink
      ({ r.setLane oldest q with reorderHeld := r.reorderHeld - given.length
        : Receiver }.refreshReorderDeadline true now) := by
  unfold flushOldestReorder
  simp only [Eff.bind_apply, Eff.get_apply, hl, onLane_ok hfl, Eff.modify_apply]
  rfl

private theorem deliverLoop_held (sink : Sink) (packets : List Packet) (err : Option ReceiverError)
    (r : Receiver) : (r.deliverLoop sink packets err).2.reorderHeld = r.reorderHeld := by
  induction packets generalizing r err with
  | nil => rfl
  | cons packet _ ih => exact (ih _ _).trans (handOver_spec sink r packet err).1.reorderHeld

private theorem deliver_held (sink : Sink) (packets : List Packet) (r : Receiver) :
    (deliver packets sink r).2.reorderHeld = r.reorderHeld := by
  have h := deliverLoop_held sink packets none r
  unfold deliver
  generalize r.deliverLoop sink packets none = out at h
  obtain ⟨err, _⟩ := out
  cases err with
  | none | some => exact h

theorem flushOldestReorder_spec {oldest : UInt8} (hb : Balanced hand r)
    (hl : r.oldestReorderLane = some oldest) :
    Ends sink now hand r hand (flushOldestReorder now sink r) ∧
      (flushOldestReorder now sink r).2.reorderHeld < r.reorderHeld := by
  have ho := capacity_lt_output hb.custody oldest
  obtain ⟨given, q, hrun, hfl, hq⟩ := Reorder.flush_spec (hb.custody.queue oldest)
    (show (r.reorders oldest).config.capacity ≤ r.outputSize by omega)
  have hs := oldestReorderLane_some hb.custody hl
  have hends := flushed_ends sink now (show Balanced ((none : Option Packet).toList ++ hand) r
    from hb) (by simp) hfl hq
  have hn : r.reorderHeld + (none : Option Packet).toList.length - given.length =
      r.reorderHeld - given.length := by simp
  rw [hn] at hends
  rw [flushOldestReorder_eq hl hrun]
  have hlen := hfl.perm.length_eq
  have hpos := length_pos_iff.mpr hs
  obtain ⟨_, ht⟩ := refresh_booked { r.setLane oldest q with
    reorderHeld := r.reorderHeld - given.length } true now
  refine ⟨hends, ?_⟩
  rw [deliver_held, ht]
  simp at hlen ⊢
  omega

/-- The count and the deadline after a queue has accepted a packet. -/
def Receiver.rebooked (now : Time) (beforeHeld : ℤ) (lane : UInt8) (ordered : Reorder.Result)
    (r : Receiver) : Receiver :=
  let r := if ordered.status = .queued then
      { r with reorderHeld := r.reorderHeld + 1 : Receiver }.considerReorderDeadline
        ((r.reorders lane).gapStartedAt + r.config.reorderMaxDelay)
    else { r with reorderHeld := r.reorderHeld - (ordered.delivered.length - 1) }
  if r.reorderHeld = 0 ∨ beforeHeld = 0 then r.refreshReorderDeadline false now
  else if ordered.status = .flushed ∨
      (ordered.status = .delivered ∧ 1 < ordered.delivered.length) then
    r.refreshReorderDeadline true now
  else r

theorem rebooked_booked (now : Time) (beforeHeld : ℤ) (lane : UInt8) (ordered : Reorder.Result)
    (r : Receiver) : ∃ t, r.rebooked now beforeHeld lane ordered = { r with
      reorderHeld := if ordered.status = .queued then r.reorderHeld + 1
        else r.reorderHeld - (ordered.delivered.length - 1)
      reorderDeadline := t } := by
  unfold Receiver.rebooked
  by_cases hqu : ordered.status = .queued
  · rw [if_pos hqu, if_pos hqu]
    obtain ⟨t, ht⟩ := consider_booked { r with reorderHeld := r.reorderHeld + 1 }
      ((r.reorders lane).gapStartedAt + r.config.reorderMaxDelay)
    rw [ht]
    dsimp only
    split_ifs
    · exact refresh_booked _ _ _
    · exact refresh_booked _ _ _
    · exact ⟨t, rfl⟩
  · rw [if_neg hqu, if_neg hqu]
    dsimp only
    split_ifs
    · exact refresh_booked _ _ _
    · exact refresh_booked _ _ _
    · exact ⟨r.reorderDeadline, rfl⟩

theorem rebooked_left (hc : Custody hand r)
    (hst : ordered.status = .delivered ∨ ordered.status = .flushed)
    (hcn : r.reorderHeld - (ordered.delivered.length - 1) = r.waiting.length)
    (hbe : beforeHeld = 0 → r.waiting = []) (hs : r.Started)
    (heq : ordered.status = .delivered → ordered.delivered.length ≤ 1 → OnTime r) :
    OnTime (r.rebooked now beforeHeld lane ordered) := by
  have hqu : ordered.status ≠ .queued := by
    rcases hst with h | h
    · simp [h]
    · simp [h]
  unfold Receiver.rebooked
  rw [if_neg hqu]
  dsimp only
  split_ifs with hid hm
  · have hw : r.waiting = [] := by
      rcases hid with hz | hz
      · apply eq_nil_of_length_eq_zero
        omega
      · exact hbe hz
    exact refresh_idle (by exact hw) hcn false
  · exact refresh_onTime (Booked.custody ⟨_, _, rfl⟩ hc) hcn hs
  · obtain ⟨hn, hf⟩ := not_or.mp hm
    have hd := hst.resolve_right hn
    have hon := heq hd (by simpa [hd] using hf)
    exact hon.congr rfl rfl fun _ => ⟨Iff.rfl, fun _ => rfl⟩

section Joined
variable (hon : OnTime r) (hnow : 0 < now) (hc : Custody hand (r.setLane lane q))
  (hjoined : q.pending ≠ []) (hfirst : (r.reorders lane).pending = [] → q.gapStartedAt = now)
  (hlater : (r.reorders lane).pending ≠ [] → q.gapStartedAt = (r.reorders lane).gapStartedAt)
include hon hnow hc hjoined hfirst hlater

omit hc hjoined in
private theorem joined_started : (r.setLane lane q).Started := by
  refine started_setLane hon.started fun _ => ?_
  by_cases hp : (r.reorders lane).pending = []
  · rw [hfirst hp]
    exact hnow
  · rw [hlater hp]
    exact hon.started lane hp

/-- The deadline of a lane that a packet has joined is taken into account. -/
theorem joined_earliest : Earliest (r.setLane lane q)
    ((r.setLane lane q).earlierOf r.reorderDeadline lane) := by
  have hq : (r.setLane lane q).reorders lane = q := Function.update_self ..
  have ho : ∀ l, l ≠ lane → (r.setLane lane q).reorders l = r.reorders l :=
    fun l hl => Function.update_of_ne hl ..
  have hs := joined_started hon hnow hfirst hlater
  have hpos : ∀ l, ((r.setLane lane q).reorders l).pending ≠ [] →
      0 < (r.setLane lane q).gapDeadline l := fun l hp => add_pos (hs l hp) hc.delay
  have hold : EarliestOf r (lanes.filter fun l => (r.reorders l).pending ≠ [])
      r.reorderDeadline := by
    apply (earliestOf_iff _).mpr hon.earliest
    intro l hp
    exact mem_filter.mpr ⟨mem_lanes l, by simpa using hp⟩
  -- The lanes that had packets before keep their gaps.
  have hse : EarliestOf (r.setLane lane q)
      (lanes.filter fun l => (r.reorders l).pending ≠ []) r.reorderDeadline := by
    refine hold.congr fun l hl => ?_
    have hp : (r.reorders l).pending ≠ [] := by simpa using (mem_filter.mp hl).2
    unfold Receiver.gapDeadline
    by_cases hla : l = lane
    · subst hla
      rw [hq, hlater hp]
      exact ⟨by simp [hp, hjoined], fun _ => rfl⟩
    · rw [ho l hla]
      exact ⟨Iff.rfl, fun _ => rfl⟩
  apply (earliestOf_iff _).mp (earlierOf_step hc.queue hpos hse lane)
  intro l hp
  by_cases hla : l = lane
  · simp [hla]
  · rw [ho l hla] at hp
    simp [mem_lanes, hp]

end Joined

private theorem consider_eq (hc : Custody hand r) (hheld : 0 ≤ r.reorderHeld)
    (hp : (r.reorders lane).pending ≠ []) :
    { r with reorderHeld := r.reorderHeld + 1 : Receiver }.considerReorderDeadline
      ((r.reorders lane).gapStartedAt + r.config.reorderMaxDelay) =
    { r with
      reorderHeld := r.reorderHeld + 1
      reorderDeadline := r.earlierOf r.reorderDeadline lane } := by
  have hcn : ¬ (r.reorders lane).count = 0 := by
    rw [(hc.queue lane).tallied.count, length_eq_zero_iff]
    exact hp
  have hs : ¬ (¬ r.config.reorderEnabled = true ∨ r.reorderHeld + 1 = 0) := by
    rintro (h | h)
    · exact h hc.enabled
    · omega
  unfold Receiver.considerReorderDeadline Receiver.earlierOf
  rw [if_neg hs, if_neg hcn]
  dsimp only
  split <;> rfl

theorem rebooked_queued (hon : OnTime r)
    (hnow : 0 < now) (hc : Custody hand (r.setLane lane q)) (hjoined : q.pending ≠ [])
    (hfirst : (r.reorders lane).pending = [] → q.gapStartedAt = now)
    (hlater : (r.reorders lane).pending ≠ [] → q.gapStartedAt = (r.reorders lane).gapStartedAt)
    (hst : ordered.status = .queued) (hheld : 0 ≤ r.reorderHeld) :
    OnTime ((r.setLane lane q).rebooked now beforeHeld lane ordered) := by
  have hq : (r.setLane lane q).reorders lane = q := Function.update_self ..
  have hs := joined_started hon hnow hfirst hlater
  have he := joined_earliest hon hnow hc hjoined hfirst hlater
  have hso : ((r.setLane lane q).reorders lane).pending ≠ [] := by
    rw [hq]
    exact hjoined
  have hti : OnTime { r.setLane lane q with
      reorderHeld := (r.setLane lane q).reorderHeld + 1
      reorderDeadline := (r.setLane lane q).earlierOf (r.setLane lane q).reorderDeadline lane } :=
    ⟨hs, he.idle, he.le, he.attained⟩
  unfold Receiver.rebooked
  rw [if_pos hst, consider_eq hc hheld hso]
  dsimp only
  rw [hst]
  split_ifs with hid
  · -- The deadline is set by now, so the refresh leaves it.
    obtain ⟨l, hp, ht⟩ := he.attained fun hw => hso (waiting_eq_nil.mp hw lane)
    have hne : (r.setLane lane q).earlierOf r.reorderDeadline lane ≠ 0 := by
      rw [ht]
      exact ne_of_gt (add_pos (hs l hp) hc.delay)
    have hh' : ¬ (r.setLane lane q).reorderHeld + 1 = 0 := by
      show ¬ r.reorderHeld + 1 = 0
      omega
    unfold Receiver.refreshReorderDeadline
    rw [if_neg (by simp only [hc.enabled, hh']; simp), if_neg (fun h => hne h.2),
      if_pos (by simp)]
    exact hti
  · rename_i h
    simp at h
  · exact hti

theorem acceptOrdered_eq
    (hrun : Reorder.accept now packet r.outputSize (r.reorders packet.key.laneID) =
      (.ok ordered, q)) : acceptOrdered now sink packet beforeHeld r =
    if ordered.status = .late ∨ ordered.status = .duplicate
    then release packet.handle (r.setLane packet.key.laneID q)
    else deliver ordered.delivered sink
      ((r.setLane packet.key.laneID q).rebooked now beforeHeld packet.key.laneID ordered) := by
  unfold acceptOrdered Receiver.rebooked
  simp only [Eff.bind_apply, Eff.get_apply, orRelease_ok (onLane_ok hrun)]
  by_cases hlate : ordered.status = .late ∨ ordered.status = .duplicate
  · rw [if_pos hlate, if_pos hlate]
  rw [if_neg hlate, if_neg hlate]
  by_cases hqu : ordered.status = .queued
  · rw [if_pos hqu, if_pos hqu]
    simp only [Eff.bind_apply, Eff.get_apply, Eff.modify_apply]
    split_ifs <;> rfl
  · rw [if_neg hqu, if_neg hqu]
    simp only [Eff.bind_apply, Eff.get_apply, Eff.modify_apply]
    split_ifs <;> rfl

def Receiver.Keyed (r : Receiver) (packet : Packet) : Prop :=
  packet.key.peerID = 0 ∧ packet.key.dataSessionID = r.config.dataSessionID

theorem Receiver.Keyed.matches (h : r.Keyed packet) (hc : Custody hand r) :
    (r.reorders packet.key.laneID).matchesLane packet = true := by
  unfold Reorderer.matchesLane
  rw [hc.lane]
  simp [ReceiverConfig.lane, h.1, h.2]

section Ordered
variable (sink : Sink) (now : Time) {beforeHeld : ℤ} {ordered : Reorder.Result}
  (hb : Balanced ([packet] ++ hand) r)
include hb

theorem left_ends (hbe : beforeHeld = 0 → r.reorderHeld = 0)
    (hst : ordered.status = .delivered ∨ ordered.status = .flushed) (hq : q.Ok)
    (hconfig : q.config = (r.reorders packet.key.laneID).config)
    (hperm : (ordered.delivered ++ q.pending).Perm
      (packet :: (r.reorders packet.key.laneID).pending))
    (hs : ordered.delivered ≠ [])
    (hadvances : Advances (r.reorders packet.key.laneID).next ordered.delivered q.next)
    (hg : q.pending ≠ [] → q.gapStartedAt = (r.reorders packet.key.laneID).gapStartedAt) :
    Ends sink now (packet :: hand) r hand (deliver ordered.delivered sink
      ((r.setLane packet.key.laneID q).rebooked now beforeHeld packet.key.laneID ordered)) := by
  have hc := hb.custody.setLane hq hconfig hperm
  have hlen := hperm.length_eq
  rw [length_append, length_cons] at hlen
  have hpos := length_pos_iff.mpr hs
  have hm : q.pending ≠ [] → (r.reorders packet.key.laneID).pending ≠ [] := by
    intro h hn
    have := length_pos_iff.mpr h
    rw [hn, length_nil] at hlen
    omega
  obtain ⟨t, hbooked⟩ := rebooked_booked now beforeHeld packet.key.laneID ordered
    (r.setLane packet.key.laneID q)
  have hqu : ordered.status ≠ .queued := by
    rcases hst with h | h
    · simp [h]
    · simp [h]
  rw [if_neg hqu] at hbooked
  refine pass_spec sink hb (by simp) hq hconfig hperm hadvances
    ⟨_, t, hbooked⟩ ?_ ?_ ?_
  · rw [hbooked]
    show r.reorderHeld - _ = _
    simp
    omega
  · rw [hbooked]
    have := hb.within
    show r.reorderHeld - _ ≤ _
    omega
  · intro hcn _ hon
    rw [hbooked] at hcn
    refine rebooked_left hc hst hcn ?_ ?_ ?_
    · intro h
      apply eq_nil_of_length_eq_zero
      have hcn : r.reorderHeld - (ordered.delivered.length - 1) =
        (r.setLane packet.key.laneID q).waiting.length := hcn
      omega
    · refine started_setLane hon.started fun h => ?_
      rw [hg h]
      exact hon.started _ (hm h)
    · intro _ ho
      refine hon.congr rfl rfl fun l => ?_
      by_cases hl : l = packet.key.laneID
      · subst hl
        have heq : q.pending = [] ↔ (r.reorders packet.key.laneID).pending = [] := by
          rw [← length_eq_zero_iff, ← length_eq_zero_iff]
          omega
        simp only [Receiver.setLane, Function.update_self]
        exact ⟨heq, fun h => hg (mt heq.mp h)⟩
      · rw [show (r.setLane packet.key.laneID q).reorders l = r.reorders l
          from Function.update_of_ne hl ..]
        exact ⟨Iff.rfl, fun _ => rfl⟩

private theorem queued_ends (hs : ordered.status = .queued) (hn : ordered.delivered = [])
    (hq : q.Ok) (hconfig : q.config = (r.reorders packet.key.laneID).config)
    (hperm : q.pending.Perm (packet :: (r.reorders packet.key.laneID).pending))
    (hnx : q.next = (r.reorders packet.key.laneID).next) (hrm : r.reorderHeld < r.reorderBudget)
    (hfirst : (r.reorders packet.key.laneID).pending = [] → q.gapStartedAt = now)
    (hlater : (r.reorders packet.key.laneID).pending ≠ [] →
      q.gapStartedAt = (r.reorders packet.key.laneID).gapStartedAt) :
    Ends sink now (packet :: hand) r hand (deliver ordered.delivered sink
      ((r.setLane packet.key.laneID q).rebooked now beforeHeld packet.key.laneID ordered)) := by
  have hjoined : q.pending ≠ [] := by
    intro h
    rw [h] at hperm
    exact absurd hperm.length_eq (by simp)
  have hm : ([] ++ q.pending).Perm ([packet] ++ (r.reorders packet.key.laneID).pending) := hperm
  have hc := hb.custody.setLane hq hconfig hm
  obtain ⟨t, hbooked⟩ := rebooked_booked now beforeHeld packet.key.laneID ordered
    (r.setLane packet.key.laneID q)
  rw [if_pos hs] at hbooked
  have hheld : 0 ≤ r.reorderHeld := by
    have := hb.counted
    omega
  rw [hn]
  refine pass_spec sink hb (by simp) hq hconfig hm hnx ⟨_, t, hbooked⟩ ?_ ?_ ?_
  · rw [hbooked]
    show r.reorderHeld + 1 = _
    simp
  · rw [hbooked]
    exact hrm
  · intro _ hnow hon
    exact rebooked_queued hon hnow hc hjoined hfirst hlater hs hheld

/-- Every way in which a queue accepts a packet leaves the books right. -/
theorem acceptOrdered_spec (hkey : r.Keyed packet) (hbe : beforeHeld = 0 → r.reorderHeld = 0)
    (hrm : (r.reorders packet.key.laneID).wouldQueue packet.key.laneSequence = true →
      r.reorderHeld < r.reorderBudget) :
    Ends sink now (packet :: hand) r hand (acceptOrdered now sink packet beforeHeld r) := by
  have hok := hb.custody.queue packet.key.laneID
  obtain ⟨_, q, hrun, ha, hq⟩ := Reorder.accept_spec now hok
    (hkey.matches hb.custody) (le_of_eq (capacity_lt_output hb.custody packet.key.laneID))
  have heq : r.setLane packet.key.laneID (r.reorders packet.key.laneID) = r := by
    unfold Receiver.setLane
    rw [Function.update_eq_self]
  rw [acceptOrdered_eq hrun]
  cases ha with
  | delivered hse hperm hadvances hconfig hg =>
    refine left_ends sink now hb hbe (.inl rfl) hq hconfig (hperm.cons packet) (by simp) ?_ hg
    refine ⟨?_, ?_⟩
    · rw [Reorder.distance_eq_zero.mpr hse]
      decide
    · rw [hse]
      exact hadvances
  | late =>
    rw [if_pos (.inl rfl), heq]
    exact Ends.drop hb
  | duplicate =>
    rw [if_pos (.inr rfl), heq]
    exact Ends.drop hb
  | @flushed _ out _ _ _ hfl =>
    have hperm : (out ++ q.pending).Perm (packet :: (r.reorders packet.key.laneID).pending) := by
      rw [hfl.empty, append_nil]
      exact hfl.perm
    have hs : out ≠ [] := by
      rintro rfl
      exact absurd hfl.perm.length_eq (by simp)
    exact left_ends sink now hb hbe (.inr rfl) hq hfl.config hperm hs hfl.advances
      fun h => absurd hfl.empty h
  | queued hah hn hsp hperm hnx hconfig hfirst hlater =>
    rw [if_neg (by simp)]
    exact queued_ends sink now hb rfl rfl hq hconfig hperm hnx
      (hrm ((Reorder.wouldQueue_iff hok).mpr ⟨hah, hn, hsp⟩)) hfirst hlater

theorem flushLane_spec (hkey : r.Keyed packet)
    (hw : (r.reorders packet.key.laneID).wouldQueue packet.key.laneSequence = true) :
    Ends sink now (packet :: hand) r hand (flushLane now sink packet r) := by
  obtain ⟨flushed, _, hrun, hfl, hq⟩ := Reorder.flushIncluding_spec
    (hb.custody.queue packet.key.laneID) (hkey.matches hb.custody)
    (le_of_eq (capacity_lt_output hb.custody packet.key.laneID)) hw
  have hends := flushed_ends sink now (show Balanced ((some packet).toList ++ hand) r from hb)
    (by simp) hfl hq
  have hheld : r.reorderHeld + (some packet).toList.length - flushed.length =
      r.reorderHeld - (flushed.length - 1) := by
    simp
    omega
  rw [hheld] at hends
  unfold flushLane
  simp only [Eff.bind_apply, Eff.get_apply, orRelease_ok (onLane_ok hrun), Eff.modify_apply]
  exact hends

theorem acceptCompleted_spec (hkey : r.Keyed packet) :
    Ends sink now (packet :: hand) r hand (acceptCompleted now sink packet r) := by
  unfold acceptCompleted
  simp only [Eff.bind_apply, Eff.get_apply]
  have hpos := hb.custody.budget
  by_cases hfu : r.config.reorderEnabled = true ∧ (r.reorderBudget : ℤ) ≤ r.reorderHeld ∧
      (r.reorders packet.key.laneID).wouldQueue packet.key.laneSequence = true
  · rw [if_pos hfu]
    cases hold : r.oldestReorderLane with
    | none =>
      have hid := oldestReorderLane_none hb.custody hold
      have hcn := hb.counted
      rw [hid, length_nil] at hcn
      omega
    | some =>
      dsimp only
      split
      · exact flushLane_spec sink now hb hkey hfu.2.2
      obtain ⟨hends, hlt⟩ := flushOldestReorder_spec hb hold
      rw [Eff.bind_apply]
      generalize hrun : flushOldestReorder now sink r = out at hends hlt
      obtain ⟨res, r₁⟩ := out
      have hb1 := hends.balanced
      cases res with
      | error =>
        -- The sink failed; the packet in hand is released and the error goes out.
        rw [orRelease_error hrun]
        have hd := hb1.drop.2
        refine ⟨hd, ?_, fun hnow ht => ?_, hends.events.tail (.drop packet)⟩
        · rcases hends.fine with he | ⟨he, htk⟩
          · cases he
          · exact .inr ⟨he, htk⟩
        · exact (hends.onTime hnow ht).congr rfl rfl fun _ => ⟨Iff.rfl, fun _ => rfl⟩
      | ok =>
        rw [orRelease_ok hrun]
        obtain ⟨hconfig, hbu⟩ := events_fixed hends.events
        have hkey1 : r₁.Keyed packet := ⟨hkey.1, hkey.2.trans (congrArg _ hconfig.symm)⟩
        refine hends.trans (acceptOrdered_spec sink now hb1 hkey1 ?_ ?_)
        · have := hfu.2.1
          omega
        intro _
        have hwithin := hb.within
        dsimp only at hlt hbu
        omega
  · rw [if_neg hfu]
    refine acceptOrdered_spec sink now hb hkey id fun hw => ?_
    by_contra hno
    exact hfu ⟨hb.custody.enabled, by omega, hw⟩

end Ordered

end WgFrag.Data
