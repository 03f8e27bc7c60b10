import WgFrag.Data.Slots
import Mathlib.Data.Prod.Lex
import Mathlib.Logic.Relation

/-! What one call of the reassembler does to its slots. -/
namespace WgFrag.Data.Reassembly
open WgFrag.Lib Reassembler List

/-- The record may go into the slot: its index is not present and its bytes are not taken. -/
structure Fits (c : Config) (s : Slot) (record : Record) : Prop where
  assembling : s.state = .assembling
  count : s.count = record.header.fragmentCount
  index : record.header.fragmentIndex < record.header.fragmentCount
  absent : s.frags[record.header.fragmentIndex.toNat]?.join = none
  apart : overlaps s.frags (extent record) = false
  nonempty : 1 ≤ record.data.length
  bound : record.header.offset.toNat + record.data.length ≤ c.maxPacketSize

/-- The completed slot `i` left the index and the counters; its bytes stay. -/
structure Reassembler.Detaches (r : Reassembler) (i : ℕ) (r' : Reassembler) : Prop where
  wf : r'.Wf
  slots : r'.slots = r.slots.set i { r.slot i with detached := true, counted := false }
  config : r'.config = r.config
  hash : r'.hash = r.hash
  count : ∀ p, r'.peerCount p = if (r.slot i).key.peerID = p
    then countDown (r.peerCount p) else r.peerCount p

inductive Step : Reassembler → Reassembler → Prop
  | clear {r r' : Reassembler} (i : ℕ) :
    (r.slot i).state ≠ .free → Clears r i r' → Step r r'
  | start {r r' : Reassembler} (i : ℕ) (now : Time) (key : Key) (count : UInt8) :
    i < r.slots.length → (r.slot i).state = .free →
    (r.peerCount key.peerID).toNat < r.config.perPeerSlots →
    Starts r i now key count r' → Step r r'
  | store {r : Reassembler} (i : ℕ) (record : Record) :
    Fits r.config (r.slot i) record → Step r (r.setSlot i ((r.slot i).store record))
  | complete {r : Reassembler} (i len : ℕ) :
    (r.slot i).state = .assembling → (r.slot i).frags.any Option.isNone = false →
    contiguousLength (r.slot i) = some len → Step r (r.setSlot i ((r.slot i).completed len))
  | detach {r r' : Reassembler} (i : ℕ) :
    (r.slot i).Active → Detaches r i r' → Step r r'

abbrev Steps : Reassembler → Reassembler → Prop := Relation.ReflTransGen Step

variable {r r' : Reassembler} {i j : ℕ}
variable {c : Config} {peer : Option ℕ}

theorem Fits.lt {record : Record} (h : Fits c (r.slot i) record) :
    i < r.slots.length := lt_of_state (by simp [h.assembling])

/-! ### Every step keeps the invariant -/

@[simp] theorem store_frags_length (s : Slot) (record : Record) :
    (s.store record).frags.length = s.frags.length := by
  simp [Slot.store]

private theorem length_splice {buf data : Bytes} {start : ℕ}
    (h : start + data.length ≤ buf.length) :
    (splice buf start data).length = buf.length := by
  simp [splice]
  omega

theorem store_wf {record : Record} (hwf : r.Wf) (hfits : Fits r.config (r.slot i) record) :
    (r.setSlot i ((r.slot i).store record)).Wf := by
  have hne : (r.slot i).state ≠ .free := by simp [hfits.assembling]
  have hok := hwf.each i (lt_of_state hne)
  have ho : ((r.slot i).store record).state ≠ .completed := by
    show (r.slot i).state ≠ _
    simp [hfits.assembling]
  have hs : ((r.slot i).store record).Ok r.config := by
    constructor
    · show (splice (r.slot i).buf _ _).length = _
      rw [length_splice (by rw [hok.buf]; exact hfits.bound), hok.buf]
    · intro _
      rw [store_frags_length]
      exact hok.frags hne
    · exact fun hc => absurd hc ho
    · exact fun hc => absurd hc ho
    · exact hok.detached
    · exact hok.counted
    · exact hok.peer
  exact setSlot_wf hwf hne hs hne Iff.rfl rfl

theorem active_of_assembling (hwf : r.Wf) (hs : (r.slot i).state = .assembling) :
    (r.slot i).Active := by
  have hne : (r.slot i).state ≠ .free := by simp [hs]
  have hok := hwf.each i (lt_of_state hne)
  refine ⟨hne, ?_⟩
  by_contra hd
  have := hok.detached (by simpa using hd)
  simp [hs] at this

theorem complete_wf {len : ℕ} (hwf : r.Wf) (hs : (r.slot i).state = .assembling)
    (hfu : (r.slot i).frags.any Option.isNone = false)
    (hlen : contiguousLength (r.slot i) = some len) :
    (r.setSlot i ((r.slot i).completed len)).Wf := by
  have ha := active_of_assembling hwf hs
  have hok := hwf.each i (lt_of_active ha)
  have ha' : ((r.slot i).completed len).Active := by
    constructor
    · simp [Slot.completed]
    · exact ha.2
  have hc : ((r.slot i).completed len).Ok r.config := by
    constructor
    · exact hok.buf
    · exact fun _ => hok.frags ha.1
    · exact fun _ => hfu
    · exact fun _ => hlen
    · exact fun _ => rfl
    · exact ⟨fun _ => ha', fun _ => hok.counted.mpr ha⟩
    · exact fun _ => hok.peer ha
  exact setSlot_wf hwf ha.1 hc ha'.1 ⟨fun _ => ha, fun _ => ha'⟩ rfl

theorem Step.wf (h : Step r r') (hwf : r.Wf) : r'.Wf := by
  cases h with
  | clear _ _ hc => exact hc.wf
  | start _ _ _ _ _ _ _ hs => exact hs.wf
  | store _ _ hfits => exact store_wf hwf hfits
  | complete _ _ hs hfu hlen => exact complete_wf hwf hs hfu hlen
  | detach _ _ hd => exact hd.wf

theorem Step.config (h : Step r r') : r'.config = r.config ∧ r'.hash = r.hash := by
  cases h with
  | clear _ _ hc => exact ⟨hc.config, hc.hash⟩
  | start _ _ _ _ _ _ _ hs => exact ⟨hs.config, hs.hash⟩
  | store | complete => exact ⟨rfl, rfl⟩
  | detach _ _ hd => exact ⟨hd.config, hd.hash⟩

theorem Steps.wf (h : Steps r r') (hwf : r.Wf) : r'.Wf := by
  induction h with
  | refl => exact hwf
  | tail _ hs ih => exact hs.wf ih

theorem Steps.config (h : Steps r r') : r'.config = r.config ∧ r'.hash = r.hash := by
  induction h with
  | refl => exact ⟨rfl, rfl⟩
  | tail _ hs ih => exact ⟨hs.config.1.trans ih.1, hs.config.2.trans ih.2⟩

/-! ### The key of a record -/

theorem findKey_some {key : Key} (hwf : r.Wf) (h : r.findKey key = some i) :
    (r.slot i).Active ∧ (r.slot i).key = key := by
  obtain ⟨ha, hkey⟩ := findKey_sound hwf.index h
  simp only [isActive, Bool.and_eq_true, beq_iff_eq] at hkey
  exact ⟨ha, hkey.2⟩

theorem findKey_active (hwf : r.Wf) (ha : (r.slot i).Active) :
    r.findKey (r.slot i).key = some i := by
  apply findKey_complete hwf.index ha
  simp [isActive, ha.1, ha.2]

theorem findKey_none {key : Key} (hwf : r.Wf) (h : r.findKey key = none)
    (ha : (r.slot j).Active) : (r.slot j).key ≠ key := by
  rintro rfl
  rw [findKey_active hwf ha] at h
  cases h

theorem Reassembler.Clears.slot (h : Clears r i r') (hi : i < r.slots.length) :
    r'.slot j = if i = j then (r.slot i).cleared r.freeHead else r.slot j :=
  slot_of_set h.slots hi

/-- Every slot active after a clear was active before it, and is as it was. -/
theorem Reassembler.Clears.active (h : Clears r i r') (hi : i < r.slots.length)
    (ha : (r'.slot j).Active) : i ≠ j ∧ r'.slot j = r.slot j := by
  rw [h.slot hi] at ha ⊢
  split at ha
  · exact absurd rfl ha.1
  · next hij => exact ⟨hij, if_neg hij⟩

/-! ### Finding the slot of a record -/

/-- The slot was given up: it was not completed, and it is free. -/
structure Dropped (s s' : Slot) : Prop where
  before : s.state ≠ .completed
  after : s'.state = .free
  generation : s'.generation = s.generation ∨ s'.generation = s.generation + 1

theorem dropped_cleared {s : Slot} {next : Option ℕ} (h : s.state ≠ .completed) :
    Dropped s (s.cleared next) := ⟨h, rfl, .inl rfl⟩

/-- No slot of the key may take another record at that time. -/
def Stale (r : Reassembler) (now : Time) (key : Key) : Prop :=
  ∀ j, (r.slot j).Active → (r.slot j).key = key →
    (r.slot j).state = .assembling ∧ r.expired (r.slot j) now = true

/-- How `locate` gets the slot `i` for a record: the live slot of the key as it stands, or a
newly started one, for which an assembling slot may have been evicted. -/
inductive Located (r : Reassembler) (now : Time) (key : Key) (count : UInt8) :
    ℕ → Option Key → Reassembler → Prop
  | live (i : ℕ) : (r.slot i).Active → (r.slot i).key = key →
    ((r.slot i).state = .assembling → r.expired (r.slot i) now = false) →
    Located r now key count i none r
  | fresh {r₁ : Reassembler} (i : ℕ) (evicted : Option Key) (born : UInt64) : Steps r r₁ →
    Stale r now key → r₁.slot i = (r.slot i).started now key count born →
    (r.slot i).state ≠ .completed →
    ((r.slot i).state = .assembling → (r.slot i).key ≠ key → evicted = some (r.slot i).key) →
    (∀ j, j ≠ i → r₁.slot j = r.slot j ∨
      (r.slot j).Active ∧ (r.slot j).key = key ∧ Dropped (r.slot j) (r₁.slot j)) →
    Located r now key count i evicted r₁

/-- The live slot of the key, or none once its expired slot is cleared. -/
theorem liveSlot_spec (hwf : r.Wf) (now : Time) (key : Key) :
    (∃ i, liveSlot now key r = (.ok (some i), r) ∧ (r.slot i).Active ∧ (r.slot i).key = key ∧
      ((r.slot i).state = .assembling → r.expired (r.slot i) now = false)) ∨
    ∃ r₁, liveSlot now key r = (.ok none, r₁) ∧ Steps r r₁ ∧ Stale r now key ∧
      (∀ j, (r₁.slot j).Active → (r₁.slot j).key ≠ key) ∧
      ∀ j, r₁.slot j = r.slot j ∨
        (r.slot j).Active ∧ (r.slot j).key = key ∧ ∃ next, r₁.slot j = (r.slot j).cleared next := by
  unfold liveSlot
  simp only [Eff.bind_apply, Eff.get_apply]
  cases hf : r.findKey key with
  | none =>
    refine .inr ⟨r, rfl, .refl, fun j ha hk => ?_, fun j hj => findKey_none hwf hf hj,
      fun j => .inl rfl⟩
    exact absurd hk (findKey_none hwf hf ha)
  | some i =>
    obtain ⟨ha, hkey⟩ := findKey_some hwf hf
    dsimp only
    split
    · next hex =>
      have hc := clearSlot_spec hwf ha.1
      have hi := lt_of_active ha
      have huniq : ∀ j, (r.slot j).Active → (r.slot j).key = key → i = j :=
        fun j hj hjk => hwf.index.keys i j ha hj (hkey.trans hjk.symm)
      refine .inr ⟨_, rfl, .single (.clear i ha.1 hc), ?_, ?_, ?_⟩
      · intro j hj hjk
        obtain rfl := huniq j hj hjk
        exact hex
      · intro j hj hjk
        obtain ⟨hij, heq⟩ := hc.active hi hj
        rw [heq] at hj hjk
        exact hij (huniq j hj hjk)
      · intro j
        rw [hc.slot hi]
        by_cases hij : i = j
        · subst hij
          exact .inr ⟨ha, hkey, r.freeHead, if_pos rfl⟩
        · exact .inl (if_neg hij)
    · next hex =>
      refine .inl ⟨i, rfl, ha, hkey, fun hs => ?_⟩
      by_contra hne
      exact hex ⟨hs, by simpa using hne⟩

/-! ### A slot for a new key -/

/-- First seen, then started. -/
def Slot.rank (s : Slot) : Time ×ₗ ℕ := toLex (s.firstSeen, s.born.toNat)

private theorem older_iff {s t : Slot} : older s t = true ↔ s.rank < t.rank := by
  unfold older Slot.rank
  rw [Prod.Lex.toLex_lt_toLex]
  simp [UInt64.lt_iff_toNat_lt]

/-- A scan for the oldest slot looks at the slot. -/
def Scanned (r : Reassembler) (peer : Option ℕ) (i : ℕ) : Prop :=
  (r.slot i).state = .assembling ∧ peer.all (· = (r.slot i).key.peerID)

private theorem scanned_iff : Scanned r peer i ↔
    ¬ ((r.slot i).state ≠ .assembling ∨ peer.any (· ≠ (r.slot i).key.peerID)) := by
  cases peer with
  | none => simp [Scanned]
  | some => simp [Scanned]

/-- The oldest of the slots that a scan has seen. -/
def Oldest (r : Reassembler) (peer : Option ℕ) (seen : List ℕ) : Option ℕ → Prop
  | none => ∀ j ∈ seen, ¬ Scanned r peer j
  | some i => Scanned r peer i ∧ ∀ j ∈ seen, Scanned r peer j → (r.slot i).rank ≤ (r.slot j).rank

theorem Oldest.next {seen : List ℕ} {oldest : Option ℕ} (h : Oldest r peer seen oldest) (j : ℕ) :
    Oldest r peer (j :: seen) (r.olderOf peer oldest j) := by
  unfold olderOf
  dsimp only
  split
  · next hskip =>
    have hj : ¬ Scanned r peer j := fun hs => scanned_iff.mp hs hskip
    cases oldest with
    | none => exact forall_mem_cons.mpr ⟨hj, h⟩
    | some => exact ⟨h.1, forall_mem_cons.mpr ⟨fun hs => absurd hs hj, h.2⟩⟩
  · next hscan =>
    have hj := scanned_iff.mpr hscan
    cases oldest with
    | none =>
      rw [Option.all_none, if_pos rfl]
      exact ⟨hj, forall_mem_cons.mpr ⟨fun _ => le_rfl, fun k hk hs => absurd hs (h k hk)⟩⟩
    | some =>
      split
      · next hold =>
        have hlt := older_iff.mp hold
        refine ⟨hj, forall_mem_cons.mpr ⟨fun _ => le_rfl, fun k hk hs => ?_⟩⟩
        exact hlt.le.trans (h.2 k hk hs)
      · next hold =>
        exact ⟨h.1, forall_mem_cons.mpr ⟨fun _ => not_lt.mp (mt older_iff.mpr hold), h.2⟩⟩

theorem Oldest.foldl {seen : List ℕ} {oldest : Option ℕ} (l : List ℕ)
    (h : Oldest r peer seen oldest) :
    Oldest r peer (l.reverse ++ seen) (l.foldl (r.olderOf peer) oldest) := by
  induction l generalizing seen oldest with
  | nil => exact h
  | cons j l ih => simpa using ih (h.next j)

private theorem oldestAssembling_oldest (r : Reassembler) (peer : Option ℕ) :
    Oldest r peer ((List.range r.slots.length).reverse ++ []) (r.oldestAssembling peer) :=
  Oldest.foldl _ fun _ hj => absurd hj not_mem_nil

theorem Scanned.mem (h : Scanned r peer i) : i ∈ (List.range r.slots.length).reverse ++ [] := by
  have hlt : i < r.slots.length := lt_of_state (by simp [h.1])
  simpa using hlt

theorem oldestAssembling_some (h : r.oldestAssembling peer = some i) : Scanned r peer i ∧
    ∀ j, Scanned r peer j → (r.slot i).rank ≤ (r.slot j).rank := by
  have hold := oldestAssembling_oldest r peer
  rw [h] at hold
  exact ⟨hold.1, fun j hj => hold.2 j hj.mem hj⟩

/-- Some slot may be taken for a new key: an assembling one of its peer once the quota of the
peer is used up, any but a completed one otherwise. -/
def HasSlot (r : Reassembler) (key : Key) : Prop :=
  if r.config.perPeerSlots ≤ (r.peerCount key.peerID).toNat then
    ∃ i, (r.slot i).state = .assembling ∧ (r.slot i).key.peerID = key.peerID
  else ∃ i < r.slots.length, (r.slot i).state ≠ .completed

theorem oldestAssembling_none (h : r.oldestAssembling peer = none) : ¬ Scanned r peer i := by
  intro hs
  have hold := oldestAssembling_oldest r peer
  rw [h] at hold
  exact hold i hs.mem hs

/-- A new key needs a slot of another one. -/
def Crowded (r : Reassembler) (key : Key) : Prop :=
  r.config.perPeerSlots ≤ (r.peerCount key.peerID).toNat ∨ r.freeHead = none

/-- The slot that a new key takes over: at the quota of its peer, one of that peer. -/
def victim (r : Reassembler) (key : Key) : Option ℕ :=
  r.oldestAssembling
    (if r.config.perPeerSlots ≤ (r.peerCount key.peerID).toNat then some key.peerID else none)

/-- The slot `i`, free or evicted, was started for the key. -/
structure Allocated (r : Reassembler) (now : Time) (key : Key) (count : UInt8) (i : ℕ)
    (evicted : Option Key) (r₁ : Reassembler) : Prop where
  steps : Steps r r₁
  slot : ∃ born, r₁.slot i = (r.slot i).started now key count born
  before : (r.slot i).state ≠ .completed
  evicts : (r.slot i).state = .assembling → evicted = some (r.slot i).key
  others : ∀ j, j ≠ i → r₁.slot j = r.slot j

section Allocate
variable {now : Time} {key : Key} {count : UInt8}

theorem Reassembler.Starts.allocated {r₁ : Reassembler} (h : Starts r i now key count r₁)
    (hi : i < r.slots.length) (hfr : (r.slot i).state = .free)
    (hq : (r.peerCount key.peerID).toNat < r.config.perPeerSlots) :
    Allocated r now key count i none r₁ := by
  refine ⟨.single (.start i now key count hi hfr hq h), ⟨r.nextBorn + 1, ?_⟩,
    by simp [hfr], by simp [hfr], ?_⟩
  · rw [slot_of_set h.slots hi, if_pos rfl]
  · intro j hj
    rw [slot_of_set h.slots hi, if_neg (Ne.symm hj)]

variable (hwf : r.Wf) (hnew : ∀ j, (r.slot j).Active → (r.slot j).key ≠ key)
  (hpeer : key.peerID < r.config.maxPeers)
include hwf hnew hpeer

theorem replaceSlot_allocated (hs : (r.slot i).state = .assembling)
    (hq : (r.peerCount key.peerID).toNat < r.config.perPeerSlots ∨
      (r.slot i).key.peerID = key.peerID) :
    ∃ r₁, replaceSlot i now key count r = (.ok (i, some (r.slot i).key), r₁) ∧
      Allocated r now key count i (some (r.slot i).key) r₁ := by
  have ha := active_of_assembling hwf hs
  have hi := lt_of_active ha
  have hc := clearSlot_spec hwf ha.1
  have hn' : ∀ j, ((r.clearSlot i).slot j).Active → ((r.clearSlot i).slot j).key ≠ key := by
    intro j hj
    obtain ⟨-, hsm⟩ := hc.active hi hj
    rw [hsm] at hj ⊢
    exact hnew j hj
  -- The quota of the peer has room, or the evicted slot makes room in it.
  have hq' : ((r.clearSlot i).peerCount key.peerID).toNat <
      (r.clearSlot i).config.perPeerSlots := by
    have hle := hwf.quota key.peerID
    have hpos : 0 < r.config.perPeerSlots := hwf.config.2.2.2.2.1
    rw [hc.config, hc.count]
    split
    · rw [toNat_countDown]
      omega
    rename_i hne
    rcases hq with hlt | heq
    · exact hlt
    · exact absurd ⟨ha, heq⟩ hne
  obtain ⟨r₁, hr1, hst⟩ : ∃ r₁, startSlot i now key count ((r.clearSlot i).taken i) =
      (.ok (), r₁) ∧ Starts (r.clearSlot i) i now key count r₁ :=
    startSlot_spec hc.wf hc.head hn' (by rw [hc.config]; exact hpeer) hq'
  obtain ⟨⟨hi', hfr⟩, -⟩ := freeList_head hc.wf.free hc.head
  have hal := hst.allocated hi' hfr hq'
  refine ⟨r₁, ?_, .head (.clear i ha.1 hc) hal.steps, ?_, by simp [hs], fun _ => rfl, ?_⟩
  · simp [replaceSlot, Eff.bind_apply, takeFreeSlot_some hc.wf hc.head, hr1]
  · obtain ⟨born, hb⟩ := hal.slot
    rw [hc.slot hi, if_pos rfl] at hb
    exact ⟨born, hb⟩
  · intro j hj
    rw [hal.others j hj, hc.slot hi, if_neg (Ne.symm hj)]

theorem allocateSlot_spec :
    (∃ i evicted r₁, allocateSlot now key count r = (.ok (some (i, evicted)), r₁) ∧
      Allocated r now key count i evicted r₁ ∧
      (¬ Crowded r key ∧ r.freeHead = some i ∧ Starts r i now key count r₁ ∨
        Crowded r key ∧ victim r key = some i)) ∨
    (allocateSlot now key count r = (.ok none, r) ∧ ¬ HasSlot r key) := by
  unfold allocateSlot HasSlot victim
  simp only [Eff.bind_apply, Eff.get_apply]
  by_cases hq : r.config.perPeerSlots ≤ (r.peerCount key.peerID).toNat
  · rw [if_pos hq, if_pos hq, if_pos hq]
    cases ho : r.oldestAssembling (some key.peerID) with
    | none =>
      refine .inr ⟨rfl, ?_⟩
      rintro ⟨i, hs, hp⟩
      exact oldestAssembling_none ho ⟨hs, by simpa using hp.symm⟩
    | some i =>
      obtain ⟨⟨hs, heq⟩, -⟩ := oldestAssembling_some ho
      have heq : key.peerID = (r.slot i).key.peerID := by simpa using heq
      obtain ⟨r₁, hr1, ha⟩ : ∃ r₁, replaceSlot i now key count r =
          (.ok (i, some (r.slot i).key), r₁) ∧ Allocated r now key count i _ r₁ :=
        replaceSlot_allocated hwf hnew hpeer hs (.inr heq.symm)
      exact .inl ⟨i, _, r₁, Eff.map_ok hr1, ha, .inr ⟨.inl hq, rfl⟩⟩
  · rw [if_neg hq, if_neg hq, if_neg hq]
    have hq : (r.peerCount key.peerID).toNat < r.config.perPeerSlots := by omega
    cases hh : r.freeHead with
    | some i =>
      obtain ⟨r₁, hr1, hst⟩ : ∃ r₁, startSlot i now key count (r.taken i) = (.ok (), r₁) ∧
          Starts r i now key count r₁ := startSlot_spec hwf hh hnew hpeer hq
      obtain ⟨⟨hi, hfr⟩, -⟩ := freeList_head hwf.free hh
      exact .inl ⟨i, none, r₁, by simp [Eff.bind_apply, takeFreeSlot_some hwf hh, hr1],
        hst.allocated hi hfr hq, .inl ⟨not_or.mpr ⟨by omega, by simp [hh]⟩, rfl, hst⟩⟩
    | none =>
      simp only [Eff.bind_apply, (takeFreeSlot_none hwf hh).1, Eff.get_apply]
      cases ho : r.oldestAssembling none with
      | none =>
        refine .inr ⟨rfl, ?_⟩
        rintro ⟨i, hi, hs⟩
        have hu := (takeFreeSlot_none hwf hh).2 i hi
        exact oldestAssembling_none ho ⟨assembling_of hu hs, rfl⟩
      | some i =>
        obtain ⟨⟨hs, -⟩, -⟩ := oldestAssembling_some ho
        obtain ⟨r₁, hr1, ha⟩ : ∃ r₁, replaceSlot i now key count r =
            (.ok (i, some (r.slot i).key), r₁) ∧ Allocated r now key count i _ r₁ :=
          replaceSlot_allocated hwf hnew hpeer hs (.inl hq)
        exact .inl ⟨i, _, r₁, Eff.map_ok hr1, ha, .inr ⟨.inr hh, rfl⟩⟩

end Allocate

theorem locate_spec {key : Key} (now : Time) (count : UInt8) (hwf : r.Wf)
    (hpeer : key.peerID < r.config.maxPeers) :
    (∃ i evicted r₁, locate now key count r = (.ok (some (i, evicted)), r₁) ∧
      Located r now key count i evicted r₁) ∨
    ∃ r₁, locate now key count r = (.ok none, r₁) ∧ Steps r r₁ ∧ ¬ HasSlot r₁ key ∧
      ∀ j, r₁.slot j = r.slot j ∨
        (r.slot j).Active ∧ (r.slot j).key = key ∧ Dropped (r.slot j) (r₁.slot j) := by
  unfold locate
  simp only [Eff.bind_apply]
  rcases liveSlot_spec hwf now key with ⟨i, h0, ha, hkey, hl⟩ | ⟨r0, h0, hse, hst, hnew, hsl⟩
  · exact .inl ⟨i, none, r, by simp [h0], .live i ha hkey hl⟩
  · have ho : ∀ j, r0.slot j = r.slot j ∨
        (r.slot j).Active ∧ (r.slot j).key = key ∧ Dropped (r.slot j) (r0.slot j) := by
      intro j
      rcases hsl j with heq | ⟨ha, hkey, _, hnx⟩
      · exact .inl heq
      · refine .inr ⟨ha, hkey, ?_⟩
        rw [hnx]
        exact dropped_cleared (by simp [(hst j ha hkey).1])
    have hp0 : key.peerID < r0.config.maxPeers := by
      rw [(Steps.config hse).1]
      exact hpeer
    simp only [h0]
    rcases allocateSlot_spec (Steps.wf hse hwf) hnew hp0 with
      ⟨i, ev, r₁, hr1, hal, -⟩ | ⟨hr0, hno⟩
    · refine .inl ⟨i, ev, r₁, hr1, ?_⟩
      obtain ⟨born, hb⟩ := hal.slot
      refine .fresh i ev born (hse.trans hal.steps) hst ?_ ?_ ?_ ?_
      · rcases hsl i with heq | ⟨-, -, _, hnx⟩
        · rw [hb, heq]
        · rw [hb, hnx]
          rfl
      · rcases ho i with heq | ⟨-, -, hd⟩
        · rw [← heq]
          exact hal.before
        · exact hd.before
      · intro hs hkey
        rcases ho i with heq | ⟨-, hkey', -⟩
        · rw [← heq] at hs ⊢
          exact hal.evicts hs
        · exact absurd hkey' hkey
      · intro j hj
        rw [hal.others j hj]
        exact ho j
    · exact .inr ⟨r0, hr0, hse, hno, ho⟩

/-! ### Storing the record -/

/-- The bytes of an extent in the buffer of a slot. -/
def Slot.bytes (s : Slot) (x : Extent) : Bytes := (s.buf.drop x.offset).take x.length

/-- Why a slot refuses a valid record of its key. -/
inductive Conflicts (c : Config) (s : Slot) (record : Record) : Prop
  | count : s.count ≠ record.header.fragmentCount → Conflicts c s record
  | present (y : Extent) : s.frags[record.header.fragmentIndex.toNat]?.join = some y →
    ¬ (y = extent record ∧ s.bytes y = record.data) → Conflicts c s record
  | overlap : overlaps s.frags (extent record) = true → Conflicts c s record
  | coverage : Fits c s record → (s.store record).frags.any Option.isNone = false →
    contiguousLength (s.store record) = none → Conflicts c s record

/-- A reassembler reports that it has no slot for a key. -/
def Error.wantsSlot : Error → Bool
  | .noSlot | .peerQuota => true
  | _ => false

/-- A record was refused for what is in the slot of its key. -/
def Error.Conflicts (e : Error) : Prop := e.isCarrierDrop = true ∧ e.wantsSlot = false

inductive Stored (r : Reassembler) (i : ℕ) (evicted : Option Key) (record : Record) :
    Except Error Result × Reassembler → Prop
  | refused (e : Error) : e.Conflicts → (r.slot i).state = .completed →
    Conflicts r.config (r.slot i) record → Stored r i evicted record (.error e, r)
  | dropped {r' : Reassembler} (e : Error) : e.Conflicts → Steps r r' →
    (r.slot i).state = .assembling → Conflicts r.config (r.slot i) record →
    (r'.slot i).state = .free → (r'.slot i).generation = (r.slot i).generation →
    (∀ j, j ≠ i → r'.slot j = r.slot j) → Stored r i evicted record (.error e, r')
  | duplicate : (r.slot i).frags[record.header.fragmentIndex.toNat]?.join = some (extent record) →
    (r.slot i).bytes (extent record) = record.data →
    Stored r i evicted record (.ok ⟨.duplicate, evicted⟩, r)
  | accepted : Fits r.config (r.slot i) record →
    ((r.slot i).store record).frags.any Option.isNone = true →
    Stored r i evicted record
      (.ok ⟨.accepted, evicted⟩, r.setSlot i ((r.slot i).store record))
  | completed (len : ℕ) : Fits r.config (r.slot i) record →
    ((r.slot i).store record).frags.any Option.isNone = false →
    contiguousLength ((r.slot i).store record) = some len →
    Stored r i evicted record
      (.ok ⟨.completed ⟨⟨i, (r.slot i).generation⟩, (r.slot i).key, len⟩, evicted⟩,
        r.setSlot i (((r.slot i).store record).completed len))

/-- A record that `Accept` does not refuse at once. -/
structure Acceptable (c : Config) (key : Key) (record : Record) : Prop where
  session : record.header.dataSessionID = key.dataSessionID
  lane : record.header.laneID = key.laneID
  sequence : record.header.laneSequence = key.laneSequence
  count : 1 ≤ record.header.fragmentCount ∧ record.header.fragmentCount ≤ 16
  index : record.header.fragmentIndex < record.header.fragmentCount
  nonempty : 1 ≤ record.data.length
  bound : record.header.offset.toNat + record.data.length ≤ c.maxPacketSize

theorem validateRecord_ok {key : Key} {record : Record} :
    validateRecord c key record = .ok () ↔ Acceptable c key record := by
  unfold validateRecord
  constructor
  · intro h
    dsimp only at h
    split_ifs at h with hkey hi hlen ho
    simp only [not_or, not_not, UInt8.not_lt, UInt8.not_le] at hkey hi
    exact ⟨hkey.1, hkey.2.1, hkey.2.2, ⟨hi.1, hi.2.1⟩, hi.2.2, by omega, by omega⟩
  · intro h
    have hc : ¬ (record.header.fragmentCount < 1 ∨ 16 < record.header.fragmentCount ∨
        record.header.fragmentCount ≤ record.header.fragmentIndex) := by
      simp only [not_or, UInt8.not_lt, UInt8.not_le]
      exact ⟨h.count.1, h.count.2, h.index⟩
    have hlen := h.nonempty
    have hb := h.bound
    rw [if_neg (by simp [h.session, h.lane, h.sequence]), if_neg hc, if_neg (by omega),
      if_neg (by omega)]

theorem conflict_stored {evicted : Option Key} {record : Record} {e : Error} (hwf : r.Wf)
    (hs : (r.slot i).state ≠ .free) (he : e.Conflicts)
    (hc : Conflicts r.config (r.slot i) record) : Stored r i evicted record (conflict i e r) := by
  unfold conflict
  simp only [Eff.bind_apply, Eff.get_apply]
  by_cases hcomp : (r.slot i).state = .completed
  · rw [if_pos hcomp]
    exact .refused _ ⟨rfl, rfl⟩ hcomp hc
  rw [if_neg hcomp]
  have hcl := clearSlot_spec hwf hs
  have hsl := fun j => hcl.slot (j := j) (lt_of_state hs)
  refine .dropped e he (.single (.clear i hs hcl)) (assembling_of hs hcomp) hc ?_ ?_ ?_
  · rw [hsl, if_pos rfl]
    rfl
  · rw [hsl, if_pos rfl]
    rfl
  · intro j hj
    rw [hsl, if_neg (Ne.symm hj)]

section Store
variable {record : Record} (evicted : Option Key) (hfits : Fits r.config (r.slot i) record)
include hfits

theorem storeRecord_accepted (hn : ((r.slot i).store record).frags.any Option.isNone = true) :
    storeRecord i evicted record r =
      (.ok ⟨.accepted, evicted⟩, r.setSlot i ((r.slot i).store record)) := by
  have hc : ¬ (r.slot i).count ≠ record.header.fragmentCount := by simp [hfits.count]
  unfold storeRecord
  simp only [Eff.bind_apply, Eff.get_apply, if_neg hc, hfits.absent, hfits.apart]
  show ((modify _ : Eff Reassembler Error Unit) >>= _) r = _
  rw [if_pos hn]
  rfl

theorem storeRecord_completed {len : ℕ}
    (hn : ((r.slot i).store record).frags.any Option.isNone = false)
    (hlen : contiguousLength ((r.slot i).store record) = some len) :
    storeRecord i evicted record r =
      (.ok ⟨.completed ⟨⟨i, (r.slot i).generation⟩, (r.slot i).key, len⟩, evicted⟩,
        r.setSlot i (((r.slot i).store record).completed len)) := by
  have hc : ¬ (r.slot i).count ≠ record.header.fragmentCount := by simp [hfits.count]
  unfold storeRecord
  simp only [Eff.bind_apply, Eff.get_apply, if_neg hc, hfits.absent, hfits.apart]
  show ((modify _ : Eff Reassembler Error Unit) >>= _) r = _
  rw [if_neg (by simp [hn]), hlen]
  simp only [Eff.bind_apply, Eff.modify_apply, Eff.pure_apply, setSlot_setSlot]
  rfl

/-- A conflict over the bytes of the last fragment, found once it is in the slot. -/
theorem storeRecord_coverage (hn : ((r.slot i).store record).frags.any Option.isNone = false)
    (hlen : contiguousLength ((r.slot i).store record) = none) :
    storeRecord i evicted record r =
      (.error .coverage, (r.setSlot i ((r.slot i).store record)).clearSlot i) := by
  have hc : ¬ (r.slot i).count ≠ record.header.fragmentCount := by simp [hfits.count]
  have hsl : (r.setSlot i ((r.slot i).store record)).slot i = (r.slot i).store record :=
    slot_setSlot_self hfits.lt
  have ho : ((r.slot i).store record).state ≠ .completed := by
    show (r.slot i).state ≠ _
    simp [hfits.assembling]
  unfold storeRecord
  simp only [Eff.bind_apply, Eff.get_apply, if_neg hc, hfits.absent, hfits.apart]
  show ((modify _ : Eff Reassembler Error Unit) >>= _) r = _
  rw [if_neg (by simp [hn]), hlen]
  simp only [conflict, Eff.bind_apply, Eff.get_apply, hsl, ho, if_false,
    Eff.modify_apply, Eff.throw_apply]

end Store

theorem storeRecord_uncovered {record : Record} (evicted : Option Key) (hwf : r.Wf)
    (hfits : Fits r.config (r.slot i) record)
    (hn : ((r.slot i).store record).frags.any Option.isNone = false)
    (hlen : contiguousLength ((r.slot i).store record) = none) :
    Stored r i evicted record (storeRecord i evicted record r) := by
  have hne : (r.slot i).state ≠ .free := by simp [hfits.assembling]
  have hwf' := store_wf hwf hfits
  have hsl' : (r.setSlot i ((r.slot i).store record)).slot i = (r.slot i).store record :=
    slot_setSlot_self (lt_of_state hne)
  have hne' : ((r.setSlot i ((r.slot i).store record)).slot i).state ≠ .free := by
    rw [hsl']
    exact hne
  have hc := clearSlot_spec hwf' hne'
  have hsl := fun j => hc.slot (j := j) (lt_of_state hne')
  rw [storeRecord_coverage evicted hfits hn hlen]
  refine .dropped _ ⟨rfl, rfl⟩ (.head (.store i record hfits) (.single (.clear i hne' hc)))
    hfits.assembling (.coverage hfits hn hlen) ?_ ?_ ?_
  · rw [hsl, if_pos rfl]
    rfl
  · rw [hsl, if_pos rfl, hsl']
    rfl
  · intro j hj
    rw [hsl, if_neg (Ne.symm hj), slot_setSlot_ne (Ne.symm hj)]

theorem storeRecord_stored {record : Record} {key : Key} (evicted : Option Key) (hwf : r.Wf)
    (ha : (r.slot i).Active) (hr : Acceptable r.config key record) :
    Stored r i evicted record (storeRecord i evicted record r) := by
  have hok := hwf.each i (lt_of_active ha)
  by_cases hc : (r.slot i).count = record.header.fragmentCount
  · have hc' : ¬ (r.slot i).count ≠ record.header.fragmentCount := by simp [hc]
    cases hf : (r.slot i).frags[record.header.fragmentIndex.toNat]?.join with
    | some y =>
      unfold storeRecord
      simp only [Eff.bind_apply, Eff.get_apply, if_neg hc', hf]
      split
      · next heq =>
        obtain ⟨rfl, hb⟩ := heq
        exact .duplicate hf hb
      · next hdiff =>
        apply conflict_stored hwf ha.1 ⟨rfl, rfl⟩ (.present y hf _)
        rintro ⟨rfl, hb⟩
        exact hdiff ⟨rfl, hb⟩
    | none =>
      by_cases ho : overlaps (r.slot i).frags (extent record) = true
      · unfold storeRecord
        simp only [Eff.bind_apply, Eff.get_apply, if_neg hc', hf, ho]
        exact conflict_stored hwf ha.1 ⟨rfl, rfl⟩ (.overlap ho)
      · have hae : (r.slot i).state = .assembling := by
          refine assembling_of ha.1 fun hst => ?_
          -- A completed slot has all its fragments.
          have hi : record.header.fragmentIndex.toNat < (r.slot i).frags.length := by
            rw [hok.frags ha.1, hc]
            exact UInt8.lt_iff_toNat_lt.mp hr.index
          have hfu := hok.full hst
          simp only [any_eq_false, Option.isNone_iff_eq_none] at hfu
          rw [getElem?_eq_getElem hi] at hf
          exact absurd hf (hfu _ (getElem_mem hi))
        have hfits : Fits r.config (r.slot i) record := ⟨hae, hc, hr.index, hf,
          (Bool.not_eq_true _).mp ho, hr.nonempty, hr.bound⟩
        by_cases hn : ((r.slot i).store record).frags.any Option.isNone = true
        · rw [storeRecord_accepted evicted hfits hn]
          exact .accepted hfits hn
        have hn := (Bool.not_eq_true _).mp hn
        cases hlen : contiguousLength ((r.slot i).store record) with
        | none => exact storeRecord_uncovered evicted hwf hfits hn hlen
        | some len =>
          rw [storeRecord_completed evicted hfits hn hlen]
          exact .completed len hfits hn hlen
  · unfold storeRecord
    simp only [Eff.bind_apply, Eff.get_apply]
    rw [if_pos hc]
    exact conflict_stored hwf ha.1 ⟨rfl, rfl⟩ (.count hc)

/-! ### Accept -/

/-- The key whose slot `accept` takes for a record of another key. -/
def evicts (now : Time) (key : Key) (record : Record) (r : Reassembler) : Option Key :=
  match validateKey r.config key, validateRecord r.config key record,
      (locate now key record.header.fragmentCount r).1 with
  | .ok (), .ok (), .ok (some (_, evicted)) => evicted
  | _, _, _ => none

def Refuses (c : Config) (key : Key) (e : Error) : Prop :=
  e.isCarrierDrop = true ∨ (e = .invalidPeer ∧ c.maxPeers ≤ key.peerID)

inductive Outcome (now : Time) (key : Key) (record : Record) (r : Reassembler) :
    Except Error Result × Reassembler → Prop
  | refused {r' : Reassembler} (e : Error) : Refuses r.config key e → Steps r r' →
    (∀ j, r'.slot j = r.slot j ∨ Dropped (r.slot j) (r'.slot j) ∧
      ((r.slot j).Active → (r.slot j).key = key ∨
        evicts now key record r = some (r.slot j).key)) →
    (e.wantsSlot = true → ¬ HasSlot r' key) → Outcome now key record r (.error e, r')
  | stored {r₁ : Reassembler} {out : Except Error Result × Reassembler} (i : ℕ)
    (evicted : Option Key) : Acceptable r.config key record →
    evicts now key record r = evicted →
    Located r now key record.header.fragmentCount i evicted r₁ →
    Stored r₁ i evicted record out → (∃ result, out.1 = .ok result) →
    Outcome now key record r out

variable {now : Time} {key : Key} {count : UInt8} {record : Record} {r₁ : Reassembler}
  {evicted : Option Key}

theorem Located.steps (h : Located r now key count i evicted r₁) : Steps r r₁ := by
  cases h with
  | live => exact .refl
  | fresh => assumption

theorem Located.active (h : Located r now key count i evicted r₁) :
    (r₁.slot i).Active ∧ (r₁.slot i).key = key := by
  cases h with
  | live _ ha hkey => exact ⟨ha, hkey⟩
  | fresh _ _ _ _ _ hsl =>
    rw [hsl]
    exact ⟨⟨by simp [Slot.started], rfl⟩, rfl⟩

/-- What a refusal after `locate` leaves: the slots as they were, or given up. -/
theorem Located.refused {e : Error} {r' : Reassembler}
    (h : Located r now key record.header.fragmentCount i evicted r₁)
    (hev : evicts now key record r = evicted)
    (hs : Stored r₁ i evicted record (.error e, r')) : Outcome now key record r (.error e, r') := by
  cases hs with
  | refused _ he hcomp =>
    cases h with
    | live => exact .refused e (.inl he.1) .refl (fun j => .inl rfl) (by simp [he.2])
    | fresh _ _ _ _ _ hsl =>
      rw [hsl] at hcomp
      exact absurd hcomp (by simp [Slot.started])
  | dropped _ he hst has _ hfr hg ho =>
    cases h with
    | live _ _ hkey =>
      refine .refused e (.inl he.1) hst (fun j => ?_) (by simp [he.2])
      by_cases hj : j = i
      · subst hj
        exact .inr ⟨⟨by simp [has], hfr, .inl hg⟩, fun _ => .inl hkey⟩
      · exact .inl (ho j hj)
    | fresh _ _ _ hs1 _ hsl hb hei ho1 =>
      refine .refused e (.inl he.1) (hs1.trans hst) (fun j => ?_) (by simp [he.2])
      by_cases hj : j = i
      · subst hj
        refine .inr ⟨⟨hb, hfr, .inr ?_⟩, fun ha => ?_⟩
        · rw [hg, hsl]
          rfl
        by_cases hkey : (r.slot j).key = key
        · exact .inl hkey
        exact .inr (hev.trans (hei (assembling_of ha.1 hb) hkey))
      · rw [ho j hj]
        rcases ho1 j hj with heq | ⟨_, hkey, hd⟩
        · exact .inl heq
        · exact .inr ⟨hd, fun _ => .inl hkey⟩

private theorem dropAssemblingKey_cases (hwf : r.Wf) (key : Key) :
    r.dropAssemblingKey key = r ∨ ∃ i, (r.slot i).Active ∧ (r.slot i).key = key ∧
      (r.slot i).state = .assembling ∧ r.dropAssemblingKey key = r.clearSlot i := by
  unfold dropAssemblingKey
  split
  · next i hf =>
    obtain ⟨ha, hkey⟩ := findKey_some hwf hf
    split
    · next hs => exact .inr ⟨i, ha, hkey, hs, rfl⟩
    · exact .inl rfl
  · exact .inl rfl

theorem validateKey_ok (h : validateKey c key = .ok ()) :
    key.peerID < c.maxPeers ∧ key.dataSessionID ≠ 0 := by
  unfold validateKey at h
  split_ifs at h with hpeer hs
  exact ⟨by omega, hs⟩

theorem accept_outcome (hwf : r.Wf) (now : Time) (key : Key) (record : Record) :
    Outcome now key record r (accept now key record r) := by
  unfold accept
  simp only [Eff.bind_apply, Eff.get_apply]
  cases hkey : validateKey r.config key with
  | error e =>
    unfold validateKey at hkey
    split_ifs at hkey with hpeer hse
    · obtain rfl := Except.error.inj hkey
      exact .refused _ (.inr ⟨rfl, hpeer⟩) .refl (fun j => .inl rfl) nofun
    · obtain rfl := Except.error.inj hkey
      exact .refused _ (.inl rfl) .refl (fun j => .inl rfl) nofun
  | ok =>
    cases hr : validateRecord r.config key record with
    | error e =>
      have he : e.Conflicts := by
        unfold validateRecord at hr
        dsimp only at hr
        split_ifs at hr <;> (obtain rfl := Except.error.inj hr; exact ⟨rfl, rfl⟩)
      rcases dropAssemblingKey_cases hwf key with heq | ⟨i, ha, hik, hs, hcl⟩
      · simp only [Eff.bind_apply, Eff.modify_apply, Eff.throw_apply, heq]
        exact .refused e (.inl he.1) .refl (fun j => .inl rfl) (by simp [he.2])
      simp only [Eff.bind_apply, Eff.modify_apply, Eff.throw_apply, hcl]
      have hc := clearSlot_spec hwf ha.1
      refine .refused e (.inl he.1) (.single (.clear i ha.1 hc)) (fun j => ?_) (by simp [he.2])
      rw [hc.slot (lt_of_active ha)]
      by_cases hj : i = j
      · subst hj
        rw [if_pos rfl]
        exact .inr ⟨dropped_cleared (by simp [hs]), fun _ => .inl hik⟩
      · exact .inl (if_neg hj)
    | ok =>
      have hv := hr
      have hr := validateRecord_ok.mp hr
      rcases locate_spec now record.header.fragmentCount hwf (validateKey_ok hkey).1 with
        ⟨i, ev, r₁, hlo, hl⟩ | ⟨r₁, hlo, hst, hno, hsl⟩
      · have hev : evicts now key record r = ev := by simp [evicts, hkey, hv, hlo]
        have hr1 : Acceptable r₁.config key record := by
          rw [(Steps.config hl.steps).1]
          exact hr
        have hs := storeRecord_stored ev (Steps.wf hl.steps hwf) hl.active.1 hr1
        simp only [Eff.bind_apply, hlo]
        cases ho : storeRecord i ev record r₁ with
        | mk reply =>
          rw [ho] at hs
          cases reply with
          | error => exact hl.refused hev hs
          | ok result => exact .stored i ev hr hev hl hs ⟨result, rfl⟩
      · simp only [Eff.bind_apply, hlo, Eff.get_apply]
        have hdr : ∀ j, r₁.slot j = r.slot j ∨ Dropped (r.slot j) (r₁.slot j) ∧
            ((r.slot j).Active → (r.slot j).key = key ∨
              evicts now key record r = some (r.slot j).key) := by
          intro j
          rcases hsl j with heq | ⟨-, hk, hd⟩
          · exact .inl heq
          · exact .inr ⟨hd, fun _ => .inl hk⟩
        split
        · exact .refused _ (.inl rfl) hst hdr fun _ => hno
        · exact .refused _ (.inl rfl) hst hdr fun _ => hno

/-! ### The first record of a key -/

theorem validateKey_of (hpeer : key.peerID < c.maxPeers)
    (hs : key.dataSessionID ≠ 0) : validateKey c key = .ok () := by
  unfold validateKey
  rw [if_neg (by omega), if_neg hs]

private theorem liveSlot_new (hwf : r.Wf) (hnew : ∀ j, (r.slot j).Active → (r.slot j).key ≠ key) :
    liveSlot now key r = (.ok none, r) := by
  have hf : r.findKey key = none := by
    cases hf : r.findKey key with
    | none => rfl
    | some i =>
      obtain ⟨ha, hk⟩ := findKey_some hwf hf
      exact absurd hk (hnew i ha)
  unfold liveSlot
  simp only [Eff.bind_apply, Eff.get_apply, hf]
  rfl

/-- A record of a new key goes into a slot that is started for it, or finds none. -/
theorem accept_allocates (now : Time) (hwf : r.Wf) (hpeer : key.peerID < r.config.maxPeers)
    (hs : key.dataSessionID ≠ 0) (hr : Acceptable r.config key record)
    (hnew : ∀ j, (r.slot j).Active → (r.slot j).key ≠ key) :
    (∃ i evicted r₁, Allocated r now key record.header.fragmentCount i evicted r₁ ∧
      (¬ Crowded r key ∧ r.freeHead = some i ∧
          Starts r i now key record.header.fragmentCount r₁ ∨
        Crowded r key ∧ victim r key = some i) ∧
      accept now key record r = storeRecord i evicted record r₁) ∨
    ¬ HasSlot r key ∧ ∃ e, (e = .peerQuota ∨ e = .noSlot) ∧
      accept now key record r = (.error e, r) := by
  unfold accept locate
  simp only [Eff.bind_apply, Eff.get_apply, validateKey_of hpeer hs, validateRecord_ok.mpr hr,
    liveSlot_new hwf hnew]
  rcases allocateSlot_spec hwf hnew hpeer with ⟨i, ev, r₁, hr1, ha, hv⟩ | ⟨hr1, hno⟩
  · refine .inl ⟨i, ev, r₁, ha, hv, ?_⟩
    rw [hr1]
  · refine .inr ⟨hno, ?_⟩
    rw [hr1]
    by_cases hq : r.config.perPeerSlots ≤ (r.peerCount key.peerID).toNat
    · exact ⟨_, .inl rfl, by simp [Eff.bind_apply, hq]⟩
    · exact ⟨_, .inr rfl, by simp [Eff.bind_apply, hq]⟩

theorem frags_started (s : Slot) (now : Time) (key : Key) (count : UInt8) (born : UInt64) (k : ℕ) :
    (s.started now key count born).frags[k]?.join = none := by
  by_cases hk : k < count.toNat
  · simp [Slot.started, hk]
  · simp [Slot.started, hk]

private theorem overlaps_started (s : Slot) (now : Time) (key : Key) (count : UInt8) (born : UInt64)
    (x : Extent) : overlaps (s.started now key count born).frags x = false := by
  simp [overlaps, Slot.started]

theorem fits_started {s : Slot} {born : UInt64} (hr : Acceptable c key record) :
    Fits c (s.started now key record.header.fragmentCount born) record :=
  ⟨rfl, rfl, hr.index, frags_started .., overlaps_started .., hr.nonempty, hr.bound⟩

end WgFrag.Data.Reassembly
