import WgFrag.Data.Reorder

/-! What the calls of a reorder queue do: the packets that wait are a window of distinct
sequences ahead of the expected one, and they leave it in sequence order. -/
namespace WgFrag.Data.Reorder
open WgFrag.Lib List
open Reassembly (Packet)

/-! ### Sequences -/

/-- How far the packet lies ahead of the sequence. -/
def distance (next : UInt32) (p : Packet) : ℕ := (p.key.laneSequence - next).toNat

variable {r r' : Reorderer} {p q : Packet} {next : UInt32} {i : ℕ}
variable {out n : ℕ} {virtual : Option Packet}

theorem aheadOf_iff : aheadOf p.key.laneSequence next = true ↔
    1 ≤ distance next p ∧ distance next p < 2147483648 := by
  unfold aheadOf distance
  rw [Bool.and_eq_true, bne_iff_ne, decide_eq_true_eq, UInt32.lt_iff_toNat_lt,
    show halfSequenceSpace.toNat = 2147483648 from rfl, ne_eq, ← UInt32.toNat_inj]
  simp only [UInt32.toNat_zero]
  omega

theorem distance_eq_zero : distance next p = 0 ↔ p.key.laneSequence = next := by
  unfold distance
  have hp := p.key.laneSequence.toNat_lt
  have hn := next.toNat_lt
  rw [← UInt32.toNat_inj, UInt32.toNat_sub]
  omega

/-- The distance of a packet once a closer one has been taken. -/
theorem distance_next (h : distance next p ≤ distance next q)
    (hne : p.key.laneSequence ≠ q.key.laneSequence) :
    distance (p.key.laneSequence + 1) q + distance next p + 1 = distance next q := by
  unfold distance at h ⊢
  have hne : p.key.laneSequence.toNat ≠ q.key.laneSequence.toNat := fun h =>
    hne (UInt32.toNat_inj.mp h)
  have hp := p.key.laneSequence.toNat_lt
  have hq := q.key.laneSequence.toNat_lt
  simp only [UInt32.toNat_sub, UInt32.toNat_add] at h ⊢
  have : (1 : UInt32).toNat = 1 := rfl
  omega

/-- The packets come one after the other, each less than half the sequence space ahead of the
sequence expected then. -/
def Advances : UInt32 → List Packet → UInt32 → Prop
  | next, [], next' => next' = next
  | next, p :: out, next' => distance next p < 2147483648 ∧
    Advances (p.key.laneSequence + 1) out next'

/-- The packets have distinct sequences in the half space from `next` on. -/
structure Window (next : UInt32) (packets : List Packet) : Prop where
  near : ∀ p ∈ packets, distance next p < 2147483648
  distinct : (packets.map fun p => p.key.laneSequence).Nodup

theorem Window.perm {packets packets' : List Packet} (h : Window next packets)
    (hpm : packets.Perm packets') : Window next packets' := by
  constructor
  · intro p hp
    exact h.near p (hpm.mem_iff.mpr hp)
  · exact (hpm.map _).nodup_iff.mp h.distinct

theorem Window.tail {packets : List Packet} (h : Window next (p :: packets))
    (hmin : ∀ q ∈ packets, distance next p ≤ distance next q) :
    Window (p.key.laneSequence + 1) packets := by
  have hd := nodup_cons.mp h.distinct
  constructor
  · intro q hq
    have hne : p.key.laneSequence ≠ q.key.laneSequence := fun he =>
      hd.1 (mem_map.mpr ⟨q, hq, he.symm⟩)
    have := distance_next (hmin q hq) hne
    have := h.near q (mem_cons_of_mem _ hq)
    omega
  · exact hd.2

/-! ### Entries -/

theorem mem_pending : p ∈ r.pending ↔ ∃ i : ℕ, r.entries[i]? = some (some p) := by
  unfold Reorderer.pending
  rw [mem_filterMap]
  constructor
  · rintro ⟨_, he, rfl⟩
    exact mem_iff_getElem?.mp he
  · rintro ⟨_, hi⟩
    exact ⟨some p, mem_of_getElem? hi, rfl⟩

theorem mem_used : (i, p) ∈ r.used ↔ r.entries[i]? = some (some p) := by
  unfold Reorderer.used
  simp only [mem_filterMap, mem_range, Option.map_eq_some_iff, Option.join_eq_some_iff,
    Prod.mk.injEq]
  constructor
  · rintro ⟨_, -, _, hq, rfl, rfl⟩
    exact hq
  · intro h
    exact ⟨i, (lt_of_get h), p, h, rfl, rfl⟩

theorem contains_iff {sequence : UInt32} :
    r.contains sequence = true ↔ ∃ p ∈ r.pending, p.key.laneSequence = sequence := by
  unfold Reorderer.contains Reorderer.pending
  simp only [any_eq_true, Option.any_eq_true, beq_iff_eq, mem_filterMap, id]
  simp

theorem pending_set {entries : List (Option Packet)} {x : Option Packet} (y : Option Packet)
    (h : entries[i]? = some x) : (x.toList ++ (entries.set i y).filterMap id).Perm
      (y.toList ++ entries.filterMap id) := by
  induction entries generalizing i with
  | nil => simp at h
  | cons e entries ih =>
    cases i with
    | zero =>
      obtain rfl := Option.some.inj h
      cases e with
      | none => cases y <;> simp
      | some a =>
        cases y with
        | none => simp
        | some b => simpa using List.Perm.swap b a _
    | succ i =>
      have ih := ih (i := i) (by simpa using h)
      cases e with
      | none => simpa using ih
      | some a =>
        have hl : (x.toList ++ a :: (entries.set i y).filterMap id).Perm
            (a :: (x.toList ++ (entries.set i y).filterMap id)) := perm_middle
        have hr : (y.toList ++ a :: entries.filterMap id).Perm
            (a :: (y.toList ++ entries.filterMap id)) := perm_middle
        simpa using hl.trans ((ih.cons a).trans hr.symm)

theorem pending_take (h : r.entries[i]? = some (some p)) :
    (p :: (r.take i).pending).Perm r.pending := pending_set none h

theorem length_pending_le : r.pending.length ≤ r.entries.length := length_filterMap_le ..

structure Tallied (r : Reorderer) : Prop where
  capacity : r.entries.length = r.config.capacity
  count : r.count = r.pending.length

theorem Tallied.take (h : Tallied r) (hi : r.entries[i]? = some (some p)) (next : UInt32) :
    Tallied { r.take i with next := next } := by
  constructor
  · show (r.entries.set i none).length = r.config.capacity
    rw [length_set, h.capacity]
  have hlen := (pending_take hi).length_eq
  have hc := h.count
  rw [length_cons] at hlen
  show r.count - 1 = (r.take i).pending.length
  omega

/-! ### Draining -/

/-- What `drainContiguous` does: the packets come out without a gap. -/
structure Drains (r : Reorderer) (out : List Packet) (r' : Reorderer) : Prop where
  tallied : Tallied r'
  config : r'.config = r.config
  gap : r'.gapStartedAt = r.gapStartedAt
  perm : (out ++ r'.pending).Perm r.pending
  advances : Advances r.next out r'.next
  window : Window r'.next r'.pending
  stopped : ∀ p ∈ r'.pending, p.key.laneSequence ≠ r'.next

theorem drainLoop_spec (hn : r.count ≤ n) (ht : Tallied r) (hw : Window r.next r.pending) :
    Drains r (Reorderer.drainLoop n r).1 (Reorderer.drainLoop n r).2 := by
  induction n generalizing r with
  | zero =>
    have hno : r.pending = [] := by
      apply eq_nil_of_length_eq_zero
      have := ht.count
      omega
    refine ⟨ht, rfl, rfl, .refl _, rfl, hw, ?_⟩
    show ∀ p ∈ r.pending, _
    simp [hno]
  | succ n ih =>
    unfold Reorderer.drainLoop
    split
    · next hf =>
      refine ⟨ht, rfl, rfl, .refl _, rfl, hw, ?_⟩
      intro p hp hs
      obtain ⟨i, hi⟩ := mem_pending.mp hp
      have := find?_eq_none.mp hf (i, p) (mem_used.mpr hi)
      simp [hs] at this
    · next i p hf =>
      have hi := mem_used.mp (mem_of_find?_eq_some hf)
      have hs : p.key.laneSequence = r.next := by simpa using find?_some hf
      have hpm := pending_take hi
      have hz : distance r.next p = 0 := distance_eq_zero.mpr hs
      have hw' : Window (r.next + 1) (r.take i).pending := by
        rw [← hs]
        apply (hw.perm hpm.symm).tail
        omega
      have ht' := ht.take hi (r.next + 1)
      have hc : ({ r.take i with next := r.next + 1 } : Reorderer).count ≤ n := by
        show r.count - 1 ≤ n
        omega
      have hr := ih hc ht' hw'
      refine ⟨hr.tallied, hr.config, hr.gap, ?_, ⟨?_, ?_⟩, hr.window, hr.stopped⟩
      · exact (hr.perm.cons p).trans hpm
      · rw [hz]
        decide
      · rw [hs]
        exact hr.advances

/-! ### Flushing -/

theorem closestAhead_some (h : r.closestAhead = some (i, p)) :
    r.entries[i]? = some (some p) ∧ ∀ q ∈ r.pending, distance r.next p ≤ distance r.next q := by
  refine ⟨mem_used.mp (argmin_mem h), ?_⟩
  intro q hq
  obtain ⟨_, hj⟩ := mem_pending.mp hq
  have hle := le_of_mem_argmin (mem_used.mpr hj) h
  exact hle

theorem closestAhead_none (h : r.closestAhead = none) : r.pending = [] := by
  have hn : r.used = [] := argmin_eq_none.mp h
  apply eq_nil_iff_forall_not_mem.mpr
  intro p hp
  obtain ⟨_, hi⟩ := mem_pending.mp hp
  have hmem := mem_used.mpr hi
  rw [hn] at hmem
  cases hmem

/-- What a flush of the queue, with the virtual packet, does. -/
structure Flushes (r : Reorderer) (virtual : Option Packet) (out : List Packet) (r' : Reorderer) :
    Prop where
  tallied : Tallied r'
  config : r'.config = r.config
  empty : r'.pending = []
  perm : out.Perm (virtual.toList ++ r.pending)
  advances : Advances r.next out r'.next

private theorem virtualFirst_le (h : r.virtualFirst p = true) (hq : q ∈ r.pending) :
    distance r.next p ≤ distance r.next q := by
  unfold Reorderer.virtualFirst at h
  cases hc : r.closestAhead with
  | none =>
    rw [closestAhead_none hc] at hq
    cases hq
  | some e =>
    have hmin := (closestAhead_some (i := e.1) (p := e.2) hc).2 q hq
    have hlt : p.key.laneSequence - r.next < e.2.key.laneSequence - r.next := by simpa [hc] using h
    have hlt : distance r.next p < distance r.next e.2 := UInt32.lt_iff_toNat_lt.mp hlt
    omega

private theorem virtualFirst_ge (h : ¬ r.virtualFirst p = true) :
    ∃ e, r.closestAhead = some e ∧ distance r.next e.2 ≤ distance r.next p := by
  unfold Reorderer.virtualFirst at h
  cases hc : r.closestAhead with
  | none => simp [hc] at h
  | some e =>
    have hle : ¬ p.key.laneSequence - r.next < e.2.key.laneSequence - r.next := by
      simpa [hc] using h
    refine ⟨e, rfl, ?_⟩
    exact Nat.le_of_not_lt fun hlt => hle (UInt32.lt_iff_toNat_lt.mpr hlt)

private theorem flushLoop_virtual {out : List Packet} (hp : r.virtualFirst p = true)
    (hrun : flushLoop n none { r with next := p.key.laneSequence + 1 } = (.ok out, r')) :
    flushLoop (n + 1) (some p) r = (.ok (p :: out), r') := by
  have hf : (some p).filter r.virtualFirst = some p := by simp [Option.filter, hp]
  unfold flushLoop
  simp only [Eff.bind_apply, Eff.get_apply, hf, Eff.set_apply, hrun, Eff.pure_apply]

private theorem flushLoop_entry {out : List Packet}
    (hv : virtual.filter r.virtualFirst = none) (hc : r.closestAhead = some (i, p))
    (hrun : flushLoop n virtual { r.take i with next := p.key.laneSequence + 1 } =
      (.ok out, r')) : flushLoop (n + 1) virtual r = (.ok (p :: out), r') := by
  unfold flushLoop
  simp only [Eff.bind_apply, Eff.get_apply, hv, hc, Eff.set_apply, hrun, Eff.pure_apply]

theorem flushLoop_spec (ht : Tallied r) (hn : n = r.pending.length + virtual.toList.length)
    (hw : Window r.next (virtual.toList ++ r.pending)) :
    ∃ out r', flushLoop n virtual r = (.ok out, r') ∧ Flushes r virtual out r' := by
  induction n generalizing r virtual with
  | zero =>
    have hno : r.pending = [] := eq_nil_of_length_eq_zero (by omega)
    have hvi : virtual.toList = [] := eq_nil_of_length_eq_zero (by omega)
    refine ⟨[], r, rfl, ht, rfl, hno, ?_, rfl⟩
    rw [hvi, hno]
    exact .refl _
  | succ n ih =>
    cases hv : virtual.filter r.virtualFirst with
    | some p =>
      obtain ⟨rfl, hp⟩ := Option.filter_eq_some_iff.mp hv
      have hmin : ∀ q ∈ r.pending, distance r.next p ≤ distance r.next q :=
        fun q hq => virtualFirst_le hp hq
      have ht' : Tallied { r with next := p.key.laneSequence + 1 } := ⟨ht.capacity, ht.count⟩
      have hn' : n = r.pending.length + (none : Option Packet).toList.length := Nat.succ.inj hn
      obtain ⟨out, r', hrun, hfl⟩ := ih ht' hn' (hw.tail hmin)
      refine ⟨p :: out, r', flushLoop_virtual hp hrun, hfl.tallied, hfl.config,
        hfl.empty, hfl.perm.cons p, hw.near p (mem_cons_self ..), hfl.advances⟩
    | none =>
      have hnt : ∀ v, virtual = some v → ¬ r.virtualFirst v = true := by
        rintro v rfl
        exact Option.filter_eq_none_iff.mp hv v rfl
      cases hc : r.closestAhead with
      | none =>
        -- Nothing is left to take, so the virtual packet goes first.
        have hno := closestAhead_none hc
        cases virtual with
        | none =>
          rw [hno] at hn
          cases hn
        | some v =>
          obtain ⟨e, he, -⟩ := virtualFirst_ge (hnt v rfl)
          rw [hc] at he
          cases he
      | some e =>
        obtain ⟨i, p⟩ := e
        obtain ⟨hi, hmin⟩ := closestAhead_some hc
        have hpm := pending_take hi
        have ha : (p :: (virtual.toList ++ (r.take i).pending)).Perm
            (virtual.toList ++ r.pending) :=
          perm_middle.symm.trans (hpm.append_left _)
        have hmin : ∀ q ∈ virtual.toList ++ (r.take i).pending,
            distance r.next p ≤ distance r.next q := by
          intro q hq
          rcases mem_append.mp hq with hq | hq
          · obtain ⟨_, he, hle⟩ := virtualFirst_ge (hnt q (by simpa using hq))
            rw [hc] at he
            cases he
            exact hle
          · exact hmin q (hpm.mem_iff.mp (mem_cons_of_mem _ hq))
        have hlen := hpm.length_eq
        have hn' : n = (r.take i).pending.length + virtual.toList.length := by
          rw [length_cons] at hlen
          omega
        obtain ⟨out, r', hrun, hfl⟩ := ih (ht.take hi (p.key.laneSequence + 1)) hn'
          ((hw.perm ha.symm).tail hmin)
        have hne := (hw.perm ha.symm).near p (mem_cons_self ..)
        exact ⟨p :: out, r', flushLoop_entry hv hc hrun, hfl.tallied, hfl.config,
          hfl.empty, (hfl.perm.cons p).trans ha, hne, hfl.advances⟩

/-! ### The calls -/

structure Reorderer.Ok (r : Reorderer) : Prop where
  enabled : r.config.enabled = true
  tallied : Tallied r
  lane : ∀ p ∈ r.pending, r.matchesLane p = true
  ahead : ∀ p ∈ r.pending, aheadOf p.key.laneSequence r.next = true
  distinct : (r.pending.map fun p => p.key.laneSequence).Nodup
  gap : r.pending = [] → r.gapStartedAt = 0

theorem Reorderer.Ok.window (h : r.Ok) : Window r.next r.pending :=
  ⟨fun p hp => (aheadOf_iff.mp (h.ahead p hp)).2, h.distinct⟩

theorem new_ok {config : Config} (h : new config = .ok r) (hen : config.enabled = true) :
    r.Ok ∧ r.config = config ∧ r.pending = [] ∧ r.next = config.nextSequence := by
  unfold new at h
  rw [if_neg (by simp [hen])] at h
  split at h
  · cases h
  obtain rfl := Except.ok.inj h
  have he : (⟨config, config.nextSequence, List.replicate config.capacity none, 0, 0⟩ :
      Reorderer).pending = [] := by
    simp [Reorderer.pending]
  refine ⟨⟨hen, ⟨by simp, by rw [he]; rfl⟩, ?_, ?_, ?_, fun _ => rfl⟩, rfl, he, rfl⟩
  · rw [he]
    simp
  · rw [he]
    simp
  · rw [he]
    simp

theorem Flushes.ok {out : List Packet} (h : Flushes r virtual out r')
    (he : r.config.enabled = true) (hg : r'.gapStartedAt = 0) : r'.Ok := by
  refine ⟨h.config ▸ he, h.tallied, ?_, ?_, ?_, fun _ => hg⟩
  · rw [h.empty]
    simp
  · rw [h.empty]
    simp
  · rw [h.empty]
    simp

theorem flushWith_spec (ht : Tallied r) (hw : Window r.next (virtual.toList ++ r.pending)) :
    ∃ out r', flushWith virtual r = (.ok out, r') ∧ Flushes r virtual out r' ∧
      r'.gapStartedAt = 0 := by
  obtain ⟨out, r', hrun, hfl⟩ := flushLoop_spec ht rfl hw
  refine ⟨out, { r' with gapStartedAt := 0 }, ?_, ?_, rfl⟩
  · unfold flushWith
    simp only [Eff.bind_apply, Eff.get_apply, ht.count, hrun, Eff.modify_apply, Eff.pure_apply]
  · exact ⟨⟨hfl.tallied.capacity, hfl.tallied.count⟩, hfl.config, hfl.empty, hfl.perm, hfl.advances⟩

inductive Accepts (r : Reorderer) (now : Time) (packet : Packet) : Result → Reorderer → Prop
  | delivered {r' : Reorderer} {drained : List Packet} : packet.key.laneSequence = r.next →
    (drained ++ r'.pending).Perm r.pending → Advances (r.next + 1) drained r'.next →
    r'.config = r.config → (r'.pending ≠ [] → r'.gapStartedAt = r.gapStartedAt) →
    Accepts r now packet ⟨.delivered, packet :: drained⟩ r'
  | late : packet.key.laneSequence ≠ r.next → aheadOf packet.key.laneSequence r.next = false →
    Accepts r now packet ⟨.late, []⟩ r
  | duplicate : aheadOf packet.key.laneSequence r.next = true →
    r.contains packet.key.laneSequence = true → Accepts r now packet ⟨.duplicate, []⟩ r
  | flushed {r' : Reorderer} {out : List Packet} :
    aheadOf packet.key.laneSequence r.next = true →
    r.contains packet.key.laneSequence = false → r.pending.length = r.config.capacity →
    Flushes r (some packet) out r' → r'.gapStartedAt = 0 →
    Accepts r now packet ⟨.flushed, out⟩ r'
  | queued {r' : Reorderer} : aheadOf packet.key.laneSequence r.next = true →
    r.contains packet.key.laneSequence = false → r.pending.length < r.config.capacity →
    r'.pending.Perm (packet :: r.pending) → r'.next = r.next → r'.config = r.config →
    (r.pending = [] → r'.gapStartedAt = now) →
    (r.pending ≠ [] → r'.gapStartedAt = r.gapStartedAt) →
    Accepts r now packet ⟨.queued, []⟩ r'

/-- A packet ahead of the queue that is not in it joins its window. -/
theorem Reorderer.Ok.join (h : r.Ok) (ha : aheadOf p.key.laneSequence r.next = true)
    (hn : r.contains p.key.laneSequence = false) : Window r.next (p :: r.pending) := by
  constructor
  · intro q hq
    rcases mem_cons.mp hq with rfl | hq
    · exact (aheadOf_iff.mp ha).2
    · exact h.window.near q hq
  · rw [map_cons, nodup_cons]
    refine ⟨?_, h.distinct⟩
    intro hmem
    obtain ⟨q, hq, hs⟩ := mem_map.mp hmem
    rw [contains_iff.mpr ⟨q, hq, hs⟩] at hn
    cases hn

theorem insert_spec (ht : Tallied r) (hrm : r.pending.length < r.config.capacity)
    (p : Packet) : Tallied (r.insert p) ∧ (r.insert p).pending.Perm (p :: r.pending) ∧
      (r.insert p).count = r.pending.length + 1 ∧ (r.insert p).next = r.next ∧
      (r.insert p).config = r.config ∧ (r.insert p).gapStartedAt = r.gapStartedAt := by
  unfold Reorderer.insert
  cases hf : r.entries.findIdx? Option.isNone with
  | none =>
    -- Without a free entry the queue would be full.
    have ha : ∀ e ∈ r.entries, e.isNone = false := by
      simpa [findIdx?_eq_none_iff] using hf
    have hlen : r.pending.length = r.entries.length := by
      unfold Reorderer.pending
      rw [length_filterMap_eq_countP, countP_eq_length]
      intro e he
      have := ha e he
      cases e with
      | none => cases this
      | some => rfl
    have := ht.capacity
    omega
  | some i =>
    obtain ⟨hi, hn, -⟩ := findIdx?_eq_some_iff_getElem.mp hf
    have hg : r.entries[i]? = some none := by
      rw [getElem?_eq_getElem hi]
      simpa using hn
    have hpm : ((r.entries.set i (some p)).filterMap id).Perm (p :: r.pending) :=
      pending_set (some p) hg
    refine ⟨⟨?_, ?_⟩, hpm, ?_, rfl, rfl, rfl⟩
    · show (r.entries.set i (some p)).length = _
      rw [length_set]
      exact ht.capacity
    · show r.count + 1 = ((r.entries.set i (some p)).filterMap id).length
      rw [hpm.length_eq, ht.count]
      rfl
    · show r.count + 1 = _
      rw [ht.count]

section Accept
variable (now : Time) {packet : Packet} {out : ℕ} (hok : r.Ok)
  (hlane : r.matchesLane packet = true) (hout : r.config.capacity + 1 ≤ out)
include hok hlane hout

/-- The checks of `accept` before it looks at the sequence. -/
theorem accept_unfold : accept now packet out r = (if packet.key.laneSequence = r.next then
      (.ok ⟨.delivered, packet :: ({ r with next := r.next + 1 }.drainContiguous).1⟩,
        if ({ r with next := r.next + 1 }.drainContiguous).2.count = 0
        then { ({ r with next := r.next + 1 }.drainContiguous).2 with gapStartedAt := 0 }
        else ({ r with next := r.next + 1 }.drainContiguous).2)
    else if ¬ aheadOf packet.key.laneSequence r.next then (.ok ⟨.late, []⟩, r)
    else if r.contains packet.key.laneSequence then (.ok ⟨.duplicate, []⟩, r)
    else if r.count = r.entries.length then
      (flushWith (some packet) >>= fun flushed => pure ⟨.flushed, flushed⟩) r
    else (.ok ⟨.queued, []⟩, if (r.insert packet).count = 1
      then { r.insert packet with gapStartedAt := now } else r.insert packet)) := by
  have hc := hok.tallied.capacity
  unfold accept
  simp only [Eff.bind_apply, Eff.get_apply]
  rw [if_neg (by simp [hlane]), if_neg (by simp [hok.enabled]), if_neg (by omega)]
  split_ifs <;> rfl

theorem accept_delivered (hs : packet.key.laneSequence = r.next) :
    ∃ res r', accept now packet out r = (.ok res, r') ∧ Accepts r now packet res r' ∧ r'.Ok := by
  have hw : Window (r.next + 1) r.pending := by
    constructor
    · intro q hq
      obtain ⟨_, _⟩ := aheadOf_iff.mp (hok.ahead q hq)
      have hz : distance r.next packet = 0 := distance_eq_zero.mpr hs
      have hne : packet.key.laneSequence ≠ q.key.laneSequence := by
        intro he
        rw [hs] at he
        have := distance_eq_zero.mpr he.symm
        omega
      have hle : distance r.next packet ≤ distance r.next q := by omega
      have hnx := distance_next hle hne
      rw [hs] at hnx
      omega
    · exact hok.distinct
  have hd : Drains { r with next := r.next + 1 } _ _ :=
    drainLoop_spec (Nat.le_refl _) ⟨hok.tallied.capacity, hok.tallied.count⟩ hw
  have hrun := accept_unfold now hok hlane hout
  rw [if_pos hs] at hrun
  refine ⟨_, _, hrun, ?_⟩
  change Drains { r with next := r.next + 1 } ({ r with next := r.next + 1 }.drainContiguous).1
    ({ r with next := r.next + 1 }.drainContiguous).2 at hd
  generalize ({ r with next := r.next + 1 }.drainContiguous).2 = d at hd ⊢
  have ha : ∀ p ∈ d.pending, aheadOf p.key.laneSequence d.next = true := by
    intro p hp
    rw [aheadOf_iff]
    refine ⟨Nat.one_le_iff_ne_zero.mpr fun hz => ?_, hd.window.near p hp⟩
    exact hd.stopped p hp (distance_eq_zero.mp hz)
  have hmem : ∀ p ∈ d.pending, p ∈ r.pending := fun p hp =>
    hd.perm.mem_iff.mp (mem_append_right _ hp)
  have hl : ∀ p ∈ d.pending, d.matchesLane p = true := by
    intro p hp
    have := hok.lane p (hmem p hp)
    unfold Reorderer.matchesLane at this ⊢
    rw [hd.config]
    exact this
  split
  · next hc =>
    have hem : d.pending = [] := by
      apply eq_nil_of_length_eq_zero
      rw [← hd.tallied.count]
      exact hc
    refine ⟨.delivered hs hd.perm hd.advances hd.config fun hne => absurd hem hne, ?_⟩
    exact ⟨hd.config ▸ hok.enabled, ⟨hd.tallied.capacity, hd.tallied.count⟩, hl,
      ha, hd.window.distinct, fun _ => rfl⟩
  · next hc =>
    refine ⟨.delivered hs hd.perm hd.advances hd.config fun _ => hd.gap, ?_⟩
    refine ⟨hd.config ▸ hok.enabled, hd.tallied, hl, ha, hd.window.distinct,
      fun hem => ?_⟩
    rw [hd.tallied.count, hem] at hc
    exact absurd rfl hc

private theorem accept_queued (hs : packet.key.laneSequence ≠ r.next)
    (hah : aheadOf packet.key.laneSequence r.next = true)
    (hnw : r.contains packet.key.laneSequence = false)
    (hrm : r.pending.length < r.config.capacity) :
    ∃ res r', accept now packet out r = (.ok res, r') ∧ Accepts r now packet res r' ∧ r'.Ok := by
  obtain ⟨ht, hpm, hcn, hnx, hc, hg⟩ := insert_spec hok.tallied hrm packet
  have hfu : ¬ r.count = r.entries.length := by
    rw [hok.tallied.count, hok.tallied.capacity]
    omega
  have hrun := accept_unfold now hok hlane hout
  rw [if_neg hs, if_neg (by simp [hah]), if_neg (by simp [hnw]), if_neg hfu] at hrun
  have hn : r.pending = [] ↔ (r.insert packet).count = 1 := by
    rw [hcn, ← length_eq_zero_iff]
    omega
  have hl : ∀ p ∈ (r.insert packet).pending, (r.insert packet).matchesLane p = true := by
    intro p hp
    unfold Reorderer.matchesLane
    rw [hc]
    rcases mem_cons.mp (hpm.mem_iff.mp hp) with rfl | hp
    · exact hlane
    · exact hok.lane p hp
  have ha : ∀ p ∈ (r.insert packet).pending,
      aheadOf p.key.laneSequence (r.insert packet).next = true := by
    intro p hp
    rw [hnx]
    rcases mem_cons.mp (hpm.mem_iff.mp hp) with rfl | hp
    · exact hah
    · exact hok.ahead p hp
  have hd := ((hok.join hah hnw).perm hpm.symm).distinct
  have hso : (r.insert packet).pending ≠ [] := by
    intro he
    have := hpm.length_eq
    rw [he] at this
    cases this
  refine ⟨_, _, hrun, ?_⟩
  split
  · next ho =>
    have he := hn.mpr ho
    refine ⟨.queued hah hnw hrm hpm hnx hc (fun _ => rfl)
      fun hne => absurd he hne, ?_⟩
    exact ⟨hc ▸ hok.enabled, ⟨ht.capacity, ht.count⟩, hl, ha, hd,
      fun he => absurd he hso⟩
  · next ho =>
    refine ⟨.queued hah hnw hrm hpm hnx hc
      (fun he => absurd (hn.mp he) ho) fun _ => hg, ?_⟩
    exact ⟨hc ▸ hok.enabled, ht, hl, ha, hd, fun he => absurd he hso⟩

theorem accept_spec :
    ∃ res r', accept now packet out r = (.ok res, r') ∧ Accepts r now packet res r' ∧ r'.Ok := by
  by_cases hs : packet.key.laneSequence = r.next
  · exact accept_delivered now hok hlane hout hs
  have hrun := accept_unfold now hok hlane hout
  rw [if_neg hs] at hrun
  by_cases ha : aheadOf packet.key.laneSequence r.next = true
  · rw [if_neg (by simp [ha])] at hrun
    by_cases hn : r.contains packet.key.laneSequence = true
    · rw [if_pos hn] at hrun
      exact ⟨_, _, hrun, .duplicate ha hn, hok⟩
    have hn := (Bool.not_eq_true _).mp hn
    by_cases hfu : r.pending.length = r.config.capacity
    · have hfu' : r.count = r.entries.length := by
        rw [hok.tallied.count, hok.tallied.capacity, hfu]
      obtain ⟨flushed, _, hfl, hspec, hg⟩ := flushWith_spec hok.tallied
        (show Window r.next ((some packet).toList ++ r.pending) from hok.join ha hn)
      rw [if_neg (by simp [hn]), if_pos hfu', Eff.bind_apply, hfl] at hrun
      exact ⟨_, _, hrun, .flushed ha hn hfu hspec hg, hspec.ok hok.enabled hg⟩
    · have hle := length_pending_le (r := r)
      rw [hok.tallied.capacity] at hle
      exact accept_queued now hok hlane hout hs ha hn (by omega)
  · rw [if_pos (by simpa using ha)] at hrun
    exact ⟨_, _, hrun, .late hs (by simpa using ha), hok⟩

end Accept

private theorem flushes_nothing (hok : r.Ok) (he : r.pending = []) : Flushes r none [] r :=
  ⟨hok.tallied, rfl, he, by rw [he]; exact .refl _, rfl⟩

theorem flush_spec (hok : r.Ok) (hout : r.config.capacity ≤ out) :
    ∃ flushed r', flush out r = (.ok flushed, r') ∧ Flushes r none flushed r' ∧ r'.Ok := by
  unfold flush
  simp only [Eff.bind_apply, Eff.get_apply]
  by_cases he : r.pending = []
  · rw [if_pos (.inr (by rw [hok.tallied.count, he]; rfl))]
    exact ⟨[], r, rfl, flushes_nothing hok he, hok⟩
  have hc : ¬ (¬ r.config.enabled = true ∨ r.count = 0) := by
    rw [hok.tallied.count, length_eq_zero_iff]
    simp [hok.enabled, he]
  rw [if_neg hc, if_neg (by rw [hok.tallied.capacity]; omega)]
  obtain ⟨flushed, r', hrun, hfl, hg⟩ := flushWith_spec hok.tallied
    (show Window r.next ((none : Option Packet).toList ++ r.pending) from hok.window)
  exact ⟨flushed, r', hrun, hfl, hfl.ok hok.enabled hg⟩

theorem tick_due {now : Time} (h : ¬ now < r.gapStartedAt + r.config.maxDelay) :
    tick now out r = flush out r := by
  unfold tick flush
  simp only [Eff.bind_apply, Eff.get_apply, h, or_false]

theorem tick_early {now : Time} (h : now < r.gapStartedAt + r.config.maxDelay) :
    tick now out r = (.ok [], r) := by
  unfold tick
  simp only [Eff.bind_apply, Eff.get_apply]
  rw [if_pos (.inr (.inr h))]
  rfl

/-- A gap that has not waited long enough stays; otherwise the queue is flushed. -/
theorem tick_spec (now : Time) (hok : r.Ok) (hout : r.config.capacity ≤ out) :
    (tick now out r = (.ok [], r) ∧ now < r.gapStartedAt + r.config.maxDelay) ∨
    ∃ flushed r', tick now out r = (.ok flushed, r') ∧ Flushes r none flushed r' ∧ r'.Ok := by
  by_cases hw : now < r.gapStartedAt + r.config.maxDelay
  · exact .inl ⟨tick_early hw, hw⟩
  · right
    rw [tick_due hw]
    exact flush_spec hok hout

theorem wouldQueue_iff (hok : r.Ok) {sequence : UInt32} : r.wouldQueue sequence = true ↔
    aheadOf sequence r.next = true ∧ r.contains sequence = false ∧
      r.pending.length < r.config.capacity := by
  have hne : aheadOf sequence r.next = true → sequence ≠ r.next := by
    rintro h rfl
    simp [aheadOf] at h
  unfold Reorderer.wouldQueue
  rw [← hok.tallied.count, ← hok.tallied.capacity]
  by_cases ha : aheadOf sequence r.next = true
  · by_cases hn : r.contains sequence = true
    · simp [hn]
    · simp [hok.enabled, ha, hn, hne ha]
  · simp [ha]

theorem flushIncluding_spec {packet : Packet} (hok : r.Ok)
    (hlane : r.matchesLane packet = true) (hout : r.config.capacity + 1 ≤ out)
    (hw : r.wouldQueue packet.key.laneSequence = true) :
    ∃ flushed r', flushIncluding packet out r = (.ok flushed, r') ∧
      Flushes r (some packet) flushed r' ∧ r'.Ok := by
  obtain ⟨ha, hn, -⟩ := (wouldQueue_iff hok).mp hw
  obtain ⟨flushed, r', hrun, hfl, hg⟩ := flushWith_spec hok.tallied
    (show Window r.next ((some packet).toList ++ r.pending) from hok.join ha hn)
  refine ⟨flushed, r', ?_, hfl, hfl.ok hok.enabled hg⟩
  unfold flushIncluding
  simp only [Eff.bind_apply, Eff.get_apply]
  rw [if_neg (by simp [hok.enabled]), if_neg (by simp [hlane]),
    if_neg (by rw [hok.tallied.capacity]; omega), hrun]

theorem reset_spec (hok : r.Ok) (next : UInt32) {dropped : ℕ} (hout : r.pending.length ≤ dropped) :
    ∃ r', reset next dropped r = (.ok r.pending, r') ∧ r'.Ok ∧ r'.pending = [] ∧ r'.next = next ∧
      r'.config = r.config := by
  have he : ({ r with
      entries := List.replicate r.entries.length none
      count := 0
      next := next
      gapStartedAt := 0 } : Reorderer).pending = [] := by
    simp [Reorderer.pending]
  refine ⟨_, ?_, ?_, he, rfl, rfl⟩
  · unfold reset
    simp only [Eff.bind_apply, Eff.get_apply]
    rw [if_neg (by rw [hok.tallied.count]; omega)]
    rfl
  · refine ⟨hok.enabled, ⟨?_, ?_⟩, ?_, ?_, ?_, fun _ => rfl⟩
    · show (List.replicate r.entries.length none).length = _
      rw [length_replicate]
      exact hok.tallied.capacity
    · rw [he]
      rfl
    · rw [he]
      simp
    · rw [he]
      simp
    · rw [he]
      simp

end WgFrag.Data.Reorder
