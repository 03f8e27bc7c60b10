import WgFrag.Data.Reassembly
import WgFrag.Lib.Linked

/-! The slots of a reassembler, its free list and its key index agree. -/
namespace WgFrag.Data.Reassembly
open WgFrag.Lib List

/-- A slot that the index knows: in use, and not detached from its peer. -/
def Slot.Active (s : Slot) : Prop := s.state ≠ .free ∧ s.detached = false

instance (s : Slot) : Decidable s.Active := inferInstanceAs (Decidable (_ ∧ _))

structure Slot.Ok (c : Config) (s : Slot) : Prop where
  buf : s.buf.length = c.maxPacketSize
  frags : s.state ≠ .free → s.frags.length = s.count.toNat
  full : s.state = .completed → s.frags.any Option.isNone = false
  packet : s.state = .completed → contiguousLength s = some s.packetLen
  detached : s.detached = true → s.state = .completed
  counted : s.counted = true ↔ s.Active
  peer : s.Active → s.key.peerID < c.maxPeers

namespace Reassembler
variable {r : Reassembler} {i j : ℕ}
variable {s : Slot} {r' : Reassembler}

theorem slot_setSlot (s : Slot) :
    (r.setSlot i s).slot j = if i = j ∧ i < r.slots.length then s else r.slot j := by
  unfold slot setSlot
  rw [getD_eq_getElem?_getD, getD_eq_getElem?_getD, getElem?_set]
  by_cases hij : i = j
  · subst hij
    by_cases hi : i < r.slots.length
    · simp [hi]
    · simp [hi]
  · simp [hij]

theorem slot_setSlot_self (h : i < r.slots.length) : (r.setSlot i s).slot i = s := by
  simp [slot_setSlot, h]

theorem slot_setSlot_ne (h : i ≠ j) : (r.setSlot i s).slot j = r.slot j := by
  simp [slot_setSlot, h]

theorem lt_of_state (h : (r.slot i).state ≠ .free) : i < r.slots.length := by
  by_contra hi
  apply h
  unfold slot
  rw [getD_eq_getElem?_getD, getElem?_eq_none (by omega)]
  rfl

theorem assembling_of {s : Slot} (hfr : s.state ≠ .free) (hd : s.state ≠ .completed) :
    s.state = .assembling := by
  cases h : s.state with
  | free => exact absurd h hfr
  | assembling => rfl
  | completed => exact absurd h hd

@[simp] theorem length_setSlot (s : Slot) : (r.setSlot i s).slots.length = r.slots.length := by
  simp [setSlot]

theorem setSlot_setSlot (s s' : Slot) : (r.setSlot i s).setSlot i s' = r.setSlot i s' := by
  simp [setSlot, set_set]

/-! ### The key index -/

/-- The index holds exactly the slots in `P`, whose keys differ. -/
structure Indexed (r : Reassembler) (P : ℕ → Prop) : Prop where
  ok : Probe.Ok r.home r.keySlots
  entries : ∀ i, (∃ p, Probe.Holds r.keySlots p i) ↔ P i
  keys : ∀ i j, P i → P j → (r.slot i).key = (r.slot j).key → i = j
  bound : ∀ i, P i → i < r.slots.length
  room : r.slots.length < r.keySlots.length

variable {P Q : ℕ → Prop}

theorem Indexed.position_lt (h : Indexed r P) (key : Key) : r.keyPosition key < r.keySlots.length :=
  Nat.mod_lt _ (by have := h.room; omega)

theorem Indexed.empty (h : Indexed r P) : ∃ e : ℕ, r.keySlots[e]? = some none := by
  have hs : ∀ p i, Probe.Holds r.keySlots p i → i ∈ List.range r.slots.length := by
    intro p i hi
    exact mem_range.mpr (h.bound i ((h.entries i).mp ⟨p, hi⟩))
  exact Probe.exists_empty h.ok hs (by simpa using h.room)

theorem Indexed.congr (h : Indexed r P) (hPQ : ∀ i, Q i ↔ P i)
    (ht : r'.keySlots = r.keySlots) (hhash : r'.hash = r.hash)
    (hlen : r'.slots.length = r.slots.length)
    (hkey : ∀ i, P i → (r'.slot i).key = (r.slot i).key) : Indexed r' Q := by
  have hh : ∀ i, P i → r'.home i = r.home i := by
    intro i hi
    unfold home keyPosition
    rw [hkey i hi, ht, hhash]
  constructor
  · rw [ht]
    constructor
    · intro p i hi
      rw [hh i ((h.entries i).mp ⟨p, hi⟩)]
      exact h.ok.bound p i hi
    · exact h.ok.unique
    · intro p i hi q hq hd
      rw [hh i ((h.entries i).mp ⟨p, hi⟩)] at hd
      exact h.ok.reach p i hi q hq hd
  · intro i
    rw [ht, h.entries, hPQ]
  · intro i j hi hj hij
    have hi := (hPQ i).mp hi
    have hj := (hPQ j).mp hj
    rw [hkey i hi, hkey j hj] at hij
    exact h.keys i j hi hj hij
  · intro i hi
    rw [hlen]
    exact h.bound i ((hPQ i).mp hi)
  · rw [hlen, ht]
    exact h.room

def withIndex (r : Reassembler) (t : List (Option ℕ)) : Reassembler := { r with keySlots := t }

private theorem home_withIndex {t : List (Option ℕ)} (h : t.length = r.keySlots.length) :
    (r.withIndex t).home = r.home := by
  funext i
  show (r.hash (r.slot i).key).toNat % t.length = r.home i
  rw [h]
  rfl

theorem removeKey_spec (h : Indexed r P) (hi : P i) :
    ∃ t, r.removeKey (r.slot i).key = r.withIndex t ∧ t.length = r.keySlots.length ∧
      Indexed (r.withIndex t) fun j => j ≠ i ∧ P j := by
  obtain ⟨p, hp⟩ := (h.entries i).mpr hi
  obtain ⟨_, he⟩ := h.empty
  -- Only the entry of the slot itself has its key.
  have hs : Probe.search r.keySlots (fun j => (r.slot j).key == (r.slot i).key)
      r.keySlots.length (r.home i) = some p := by
    apply Probe.search_home h.ok hp (by simp)
    intro q j hj hkey
    exact h.keys j i ((h.entries j).mp ⟨q, hj⟩) hi (by simpa using hkey)
  obtain ⟨hok, hlen, hen⟩ := Probe.delete_spec h.ok hp he
  use Probe.delete r.home r.keySlots p
  have hr : r.removeKey (r.slot i).key = r.withIndex (Probe.delete r.home r.keySlots p) := by
    unfold removeKey
    rw [show r.keyPosition (r.slot i).key = r.home i from rfl, hs]
    rfl
  refine ⟨hr, hlen, ?_⟩
  constructor
  · rw [home_withIndex hlen]
    exact hok
  · intro j
    have hj := hen j
    rw [h.entries j] at hj
    exact hj
  · intro j k hj hk hjk
    exact h.keys j k hj.2 hk.2 hjk
  · intro j hj
    exact h.bound j hj.2
  · show r.slots.length < (Probe.delete r.home r.keySlots p).length
    rw [hlen]
    exact h.room

theorem insertKey_spec (h : Indexed r P) (hi : ¬ P i) (hlt : i < r.slots.length)
    (hkey : ∀ j, P j → (r.slot j).key ≠ (r.slot i).key) :
    ∃ t, r.insertKey i = .ok (r.withIndex t) ∧ t.length = r.keySlots.length ∧
      Indexed (r.withIndex t) fun j => j = i ∨ P j := by
  obtain ⟨_, he⟩ := h.empty
  have hh : r.home i < r.keySlots.length := h.position_lt _
  obtain ⟨v, hv, hem, hb⟩ := Probe.vacancy_home he hh
  have hn : ∀ p, ¬ Probe.Holds r.keySlots p i := fun p hp => hi ((h.entries i).mp ⟨p, hp⟩)
  use r.keySlots.set v (some i)
  have hin : r.insertKey i = .ok (r.withIndex (r.keySlots.set v (some i))) := by
    unfold insertKey
    rw [hv]
    rfl
  refine ⟨hin, by simp, ?_⟩
  constructor
  · rw [home_withIndex (by simp)]
    exact Probe.insert_ok h.ok hh hem hn hb
  · intro j
    show (∃ p, Probe.Holds (r.keySlots.set v (some i)) p j) ↔ _
    simp only [Probe.holds_set]
    constructor
    · rintro ⟨p, ⟨-, -, hj⟩ | ⟨-, hj⟩⟩
      · exact .inl (Option.some.inj hj).symm
      · exact .inr ((h.entries j).mp ⟨p, hj⟩)
    · rintro (rfl | hj)
      · exact ⟨v, .inl ⟨rfl, Probe.lt_of_holds hem, rfl⟩⟩
      · obtain ⟨p, hp⟩ := (h.entries j).mpr hj
        refine ⟨p, .inr ⟨?_, hp⟩⟩
        rintro rfl
        exact absurd (hem.symm.trans hp) (by simp)
  · rintro j k (rfl | hj) (rfl | hk) hjk
    · rfl
    · exact absurd hjk.symm (hkey k hk)
    · exact absurd hjk (hkey j hj)
    · exact h.keys j k hj hk hjk
  · rintro j (rfl | hj)
    · exact hlt
    · exact h.bound j hj
  · show r.slots.length < (r.keySlots.set v (some i)).length
    rw [length_set]
    exact h.room

theorem findKey_sound (h : Indexed r P) {key : Key} (hf : r.findKey key = some i) :
    P i ∧ r.isActive key i = true := by
  unfold findKey at hf
  cases hs : Probe.search r.keySlots (r.isActive key) r.keySlots.length (r.keyPosition key) with
  | none => simp [hs] at hf
  | some p =>
    obtain ⟨j, hj, ha⟩ := Probe.search_sound hs
    have hji : j = i := by
      rw [hs] at hf
      simpa [show r.keySlots[p]? = some (some j) from hj] using hf
    subst hji
    exact ⟨(h.entries j).mp ⟨p, hj⟩, ha⟩

theorem findKey_complete (h : Indexed r P) (hi : P i) (ha : r.isActive (r.slot i).key i = true) :
    r.findKey (r.slot i).key = some i := by
  obtain ⟨p, hp⟩ := (h.entries i).mpr hi
  have hs : Probe.search r.keySlots (r.isActive (r.slot i).key) r.keySlots.length
      (r.home i) = some p := by
    apply Probe.search_home h.ok hp ha
    intro q j hj hkey
    have hkey : (r.slot j).key = (r.slot i).key := by
      simp only [isActive, Bool.and_eq_true, beq_iff_eq] at hkey
      exact hkey.2
    exact h.keys j i ((h.entries j).mp ⟨q, hj⟩) hi hkey
  unfold findKey
  rw [show r.keyPosition (r.slot i).key = r.home i from rfl, hs]
  show r.keySlots[p]?.join = some i
  rw [show r.keySlots[p]? = some (some i) from hp]
  rfl

/-! ### The invariant -/

/-- The free list visits exactly the free slots, once each. -/
def FreeList (r : Reassembler) : Prop :=
  ∃ l : List ℕ, Linked (fun i => (r.slot i).freeNext) r.freeHead l ∧ l.Nodup ∧
    ∀ i, i ∈ l ↔ i < r.slots.length ∧ (r.slot i).state = .free

/-- The number of active slots of a peer. -/
def load (r : Reassembler) (peer : ℕ) : ℕ :=
  r.slots.countP fun s => s.Active ∧ s.key.peerID = peer

structure Wf (r : Reassembler) : Prop where
  config : r.config.Valid
  length : r.slots.length = r.config.slots
  each : ∀ i < r.slots.length, (r.slot i).Ok r.config
  index : Indexed r fun i => (r.slot i).Active
  free : FreeList r
  peers : r.peerCounts.length = r.config.maxPeers
  quota : ∀ p, (r.peerCount p).toNat ≤ r.config.perPeerSlots
  load : ∀ p, (r.peerCount p).toNat ≤ r.load p

theorem lt_of_active (h : (r.slot i).Active) : i < r.slots.length := lt_of_state h.1

theorem slot_eq_getElem (h : i < r.slots.length) : r.slot i = r.slots[i] := by
  unfold slot
  rw [getD_eq_getElem?_getD, getElem?_eq_getElem h]
  rfl

theorem slot_of_set (hsl : r'.slots = r.slots.set i s)
    (hi : i < r.slots.length) : r'.slot j = if i = j then s else r.slot j := by
  have h : r'.slot j = (r.setSlot i s).slot j := by
    unfold slot setSlot
    rw [hsl]
  rw [h, slot_setSlot]
  simp [hi]

theorem load_of_set (hsl : r'.slots = r.slots.set i s) (hi : i < r.slots.length) (p : ℕ) :
    r'.load p = r.load p - (if (r.slot i).Active ∧ (r.slot i).key.peerID = p then 1 else 0) +
      if s.Active ∧ s.key.peerID = p then 1 else 0 := by
  unfold load
  rw [hsl, countP_set hi, slot_eq_getElem hi]
  simp

/-- One slot is replaced; the index, the free list and the counters are still right. -/
theorem Wf.replace (hwf : r.Wf) (hi : i < r.slots.length)
    (hsl : r'.slots = r.slots.set i s) (hc : r'.config = r.config)
    (hs : s.Ok r.config) (hid : Indexed r' fun j => (r'.slot j).Active) (hfr : FreeList r')
    (hp : r'.peerCounts.length = r.peerCounts.length)
    (hq : ∀ p, (r'.peerCount p).toNat ≤ r.config.perPeerSlots)
    (hl : ∀ p, (r'.peerCount p).toNat ≤ r'.load p) : r'.Wf := by
  have hlen : r'.slots.length = r.slots.length := by simp [hsl]
  constructor
  · rw [hc]
    exact hwf.config
  · rw [hlen, hc]
    exact hwf.length
  · intro j hj
    rw [slot_of_set hsl hi, hc]
    split
    · exact hs
    · exact hwf.each j (by omega)
  · exact hid
  · exact hfr
  · rw [hp, hc]
    exact hwf.peers
  · rw [hc]
    exact hq
  · exact hl

theorem FreeList.keep (h : FreeList r) (hs : (r.slot i).state ≠ .free)
    (hsl : r'.slots = r.slots.set i s) (hst : s.state ≠ .free)
    (hh : r'.freeHead = r.freeHead) : FreeList r' := by
  have hso : ∀ j, r'.slot j = if i = j then s else r.slot j :=
    fun j => slot_of_set hsl (lt_of_state hs)
  obtain ⟨l, hl, hnd, hmem⟩ := h
  have hil : i ∉ l := fun h => hs ((hmem i).mp h).2
  refine ⟨l, ?_, hnd, ?_⟩
  · rw [hh]
    apply hl.congr
    intro j hj
    show (r'.slot j).freeNext = (r.slot j).freeNext
    rw [hso, if_neg]
    rintro rfl
    exact hil hj
  · intro j
    rw [hmem, hsl, length_set, hso]
    by_cases hij : i = j
    · subst hij
      simp [hs, hst]
    · simp [hij]

theorem FreeList.push (h : FreeList r) (hs : (r.slot i).state ≠ .free)
    (hsl : r'.slots = r.slots.set i ((r.slot i).cleared r.freeHead))
    (hh : r'.freeHead = some i) : FreeList r' := by
  have hi := lt_of_state hs
  have hso : ∀ j, r'.slot j = if i = j then (r.slot i).cleared r.freeHead else r.slot j :=
    fun j => slot_of_set hsl hi
  obtain ⟨l, hl, hnd, hmem⟩ := h
  have hil : i ∉ l := fun h => hs ((hmem i).mp h).2
  refine ⟨i :: l, ?_, nodup_cons.mpr ⟨hil, hnd⟩, ?_⟩
  · rw [hh]
    apply hl.push
    · show (r'.slot i).freeNext = r.freeHead
      rw [hso]
      simp [Slot.cleared]
    · intro j hj
      show (r'.slot j).freeNext = (r.slot j).freeNext
      rw [hso, if_neg]
      rintro rfl
      exact hil hj
  · intro j
    rw [hsl, length_set, hso]
    by_cases hij : i = j
    · subst hij
      simp [hi, Slot.cleared]
    · simp [hij, Ne.symm hij, hmem]

/-! ### Clearing a slot -/

theorem toNat_countDown (n : UInt32) : (countDown n).toNat = n.toNat - 1 := by
  unfold countDown
  split
  · next h =>
    apply UInt32.toNat_sub_of_le
    exact UInt32.lt_iff_toNat_lt.mp h
  · next h =>
    have h : ¬ 0 < n.toNat := h
    omega

theorem peerCount_setPeerCount (p q : ℕ) (n : UInt32) :
    (r.setPeerCount p n).peerCount q =
      if p = q ∧ p < r.peerCounts.length then n else r.peerCount q := by
  unfold peerCount setPeerCount
  rw [getD_eq_getElem?_getD, getD_eq_getElem?_getD, getElem?_set]
  by_cases hpq : p = q
  · subst hpq
    by_cases hp : p < r.peerCounts.length
    · simp [hp]
    · simp [hp]
  · simp [hpq]

theorem uncount_spec (hi : i < r.slots.length) :
    ∃ c, r.uncount i = { r.setSlot i { r.slot i with counted := false } with peerCounts := c } ∧
      c.length = r.peerCounts.length ∧
      ∀ p, c.getD p 0 = if (r.slot i).counted = true ∧ (r.slot i).key.peerID = p
        then countDown (r.peerCount p) else r.peerCount p := by
  unfold uncount
  by_cases hc : (r.slot i).counted = true
  · refine ⟨(r.setPeerCount (r.slot i).key.peerID
      (countDown (r.peerCount (r.slot i).key.peerID))).peerCounts, ?_, ?_, ?_⟩
    · rw [if_pos hc]
      rfl
    · simp [setPeerCount]
    · intro p
      show (r.setPeerCount _ _).peerCount p = _
      rw [peerCount_setPeerCount]
      by_cases hp : (r.slot i).key.peerID = p
      · subst hp
        by_cases hlt : (r.slot i).key.peerID < r.peerCounts.length
        · simp [hc, hlt]
        have hz : r.peerCount (r.slot i).key.peerID = 0 := by
          unfold peerCount
          rw [getD_eq_getElem?_getD, getElem?_eq_none (by omega)]
          rfl
        simp [hlt, hz, countDown]
      · simp [hp]
  · refine ⟨r.peerCounts, ?_, rfl, ?_⟩
    · have hs : ({ r.slot i with counted := false } : Slot) = r.slots[i] := by
        rw [← slot_eq_getElem hi]
        simp only [Bool.not_eq_true] at hc
        rw [← hc]
      rw [hs]
      simp [hc, setSlot]
    · intro p
      rw [if_neg fun h => hc h.1]
      rfl

/-- The index without the slot `i`, which is dropped from it unless it is detached. -/
theorem unindexed (hwf : r.Wf) (hs : (r.slot i).state ≠ .free) :
    ∃ t, (if (r.slot i).detached then r else r.removeKey (r.slot i).key) = r.withIndex t ∧
      t.length = r.keySlots.length ∧
      Indexed (r.withIndex t) fun j => j ≠ i ∧ (r.slot j).Active := by
  by_cases hd : (r.slot i).detached = true
  · refine ⟨r.keySlots, by rw [if_pos hd]; rfl, rfl, ?_⟩
    apply hwf.index.congr _ rfl rfl rfl
    · intro j _
      rfl
    intro j
    constructor
    · exact fun h => h.2
    intro h
    refine ⟨?_, h⟩
    rintro rfl
    exact absurd h.2 (by simp [hd])
  · obtain ⟨t, ht⟩ := removeKey_spec hwf.index ⟨hs, by simpa using hd⟩
    rw [if_neg hd]
    exact ⟨t, ht⟩

/-- The slot `i` became the head of the free list, and nothing else changed in the slots. -/
structure Clears (r : Reassembler) (i : ℕ) (r' : Reassembler) : Prop where
  wf : r'.Wf
  slots : r'.slots = r.slots.set i ((r.slot i).cleared r.freeHead)
  head : r'.freeHead = some i
  config : r'.config = r.config
  hash : r'.hash = r.hash
  count : ∀ p, r'.peerCount p = if (r.slot i).Active ∧ (r.slot i).key.peerID = p
    then countDown (r.peerCount p) else r.peerCount p

/-- The slot `i` left the index `t` and the counters `c`. -/
structure Retired (r : Reassembler) (i : ℕ) (t : List (Option ℕ)) (c : List UInt32) : Prop where
  index : Indexed (r.withIndex t) fun j => j ≠ i ∧ (r.slot j).Active
  length : c.length = r.peerCounts.length
  count : ∀ p, c.getD p 0 = if (r.slot i).Active ∧ (r.slot i).key.peerID = p
    then countDown (r.peerCount p) else r.peerCount p

theorem Retired.wf (h : Retired r i r'.keySlots r'.peerCounts) (hwf : r.Wf)
    (hi : i < r.slots.length) (hsl : r'.slots = r.slots.set i s) (hc : r'.config = r.config)
    (hhash : r'.hash = r.hash) (hs : s.Ok r.config) (hin : ¬ s.Active) (hfr : FreeList r') :
    r'.Wf := by
  apply hwf.replace hi hsl hc hs _ hfr h.length
  · intro p
    have hp := hwf.quota p
    have hcn : r'.peerCount p = _ := h.count p
    rw [hcn]
    split
    · rw [toNat_countDown]
      omega
    · exact hp
  · intro p
    have hp := hwf.load p
    have hcn : r'.peerCount p = _ := h.count p
    have hz : (if s.Active ∧ s.key.peerID = p then 1 else 0) = 0 := if_neg fun h => hin h.1
    rw [load_of_set hsl hi, hz, hcn]
    split
    · rw [toNat_countDown]
      omega
    · exact hp
  · refine h.index.congr ?_ rfl hhash ?_ ?_
    · intro j
      rw [slot_of_set hsl hi]
      by_cases hij : i = j
      · subst hij
        simp [hin]
      · simp [hij, Ne.symm hij]
    · rw [hsl, length_set]
      rfl
    · intro j hj
      rw [slot_of_set hsl hi, if_neg (Ne.symm hj.1)]
      rfl

private theorem clearSlot_eq (hwf : r.Wf) (hs : (r.slot i).state ≠ .free) :
    ∃ t c, Retired r i t c ∧ r.clearSlot i = { r with
      slots := r.slots.set i ((r.slot i).cleared r.freeHead)
      keySlots := t, peerCounts := c, freeHead := some i } := by
  have hi := lt_of_state hs
  obtain ⟨t, ht, _, hid⟩ := unindexed hwf hs
  obtain ⟨c, hc, hclen, hcn⟩ := uncount_spec (r := r.withIndex t) hi
  refine ⟨t, c, ⟨hid, hclen, ?_⟩, ?_⟩
  · intro p
    simp only [← (hwf.each i hi).counted]
    exact hcn p
  · unfold clearSlot
    rw [if_neg hs]
    simp only [ht, hc]
    have hso : (({ (r.withIndex t).setSlot i
        { (r.withIndex t).slot i with counted := false } with peerCounts := c } :
        Reassembler).slot i) = { r.slot i with counted := false } := slot_setSlot_self hi
    rw [hso]
    simp [setSlot, withIndex, Slot.cleared, set_set]

theorem clearSlot_spec (hwf : r.Wf) (hs : (r.slot i).state ≠ .free) :
    Clears r i (r.clearSlot i) := by
  have hi := lt_of_state hs
  obtain ⟨t, c, hr, hcl⟩ := clearSlot_eq hwf hs
  have hin : ¬ ((r.slot i).cleared r.freeHead).Active := fun h => h.1 rfl
  have hok : ((r.slot i).cleared r.freeHead).Ok r.config :=
    ⟨(hwf.each i hi).buf, fun h => absurd rfl h, by simp [Slot.cleared], by simp [Slot.cleared],
      by simp [Slot.cleared], by simp [Slot.cleared, Slot.Active], fun h => absurd h hin⟩
  rw [hcl]
  refine ⟨?_, rfl, rfl, rfl, rfl, hr.count⟩
  exact Retired.wf hr hwf hi rfl rfl rfl hok hin (hwf.free.push hs rfl rfl)

/-! ### Starting a slot -/

/-- The free slot `i` became an assembling slot of `key`; nothing else changed in the slots. -/
structure Starts (r : Reassembler) (i : ℕ) (now : Time) (key : Key) (count : UInt8)
    (r' : Reassembler) : Prop where
  wf : r'.Wf
  slots : r'.slots = r.slots.set i ((r.slot i).started now key count (r.nextBorn + 1))
  config : r'.config = r.config
  hash : r'.hash = r.hash
  count : ∀ p, r'.peerCount p = if key.peerID = p then r.peerCount p + 1 else r.peerCount p

theorem freeList_head (h : FreeList r) (hh : r.freeHead = some i) :
    (i < r.slots.length ∧ (r.slot i).state = .free) ∧
      ∃ l, Linked (fun j => (r.slot j).freeNext) (r.slot i).freeNext l ∧ l.Nodup ∧
        ∀ j, j ∈ l ↔ j ≠ i ∧ j < r.slots.length ∧ (r.slot j).state = .free := by
  obtain ⟨l, hl, hnd, hmem⟩ := h
  cases l with
  | nil =>
    rw [hh] at hl
    cases hl
  | cons k l =>
    obtain ⟨hk, hl⟩ := hl
    have hki : k = i := Option.mem_unique hk hh
    subst hki
    obtain ⟨hkl, hnd⟩ := nodup_cons.mp hnd
    refine ⟨(hmem k).mp (by simp), l, hl, hnd, ?_⟩
    intro j
    have hj := hmem j
    rw [mem_cons] at hj
    by_cases hjk : j = k
    · subst hjk
      simp [hkl]
    · simpa [hjk] using hj

theorem takeFreeSlot_none (hwf : r.Wf) (hh : r.freeHead = none) :
    takeFreeSlot r = (.ok none, r) ∧ ∀ i < r.slots.length, (r.slot i).state ≠ .free := by
  constructor
  · simp [takeFreeSlot, Eff.bind_apply, hh]
  obtain ⟨l, hl, -, hmem⟩ := hwf.free
  intro i hi hfr
  cases l with
  | nil => exact absurd ((hmem i).mpr ⟨hi, hfr⟩) (by simp)
  | cons => simp [Linked, hh] at hl

/-- The reassembler without the head `i` of its free list. -/
def taken (r : Reassembler) (i : ℕ) : Reassembler :=
  { r.setSlot i { r.slot i with freeNext := none } with freeHead := (r.slot i).freeNext }

/-- The head `i` of the free list taken and started; only the index does not have it yet. -/
def begun (r : Reassembler) (i : ℕ) (now : Time) (key : Key) (count : UInt8) : Reassembler :=
  { r with
    slots := r.slots.set i ((r.slot i).started now key count (r.nextBorn + 1))
    peerCounts := r.peerCounts.set key.peerID (r.peerCount key.peerID + 1)
    freeHead := (r.slot i).freeNext
    nextBorn := r.nextBorn + 1 }

theorem takeFreeSlot_some (hwf : r.Wf) (hh : r.freeHead = some i) :
    takeFreeSlot r = (.ok (some i), r.taken i) := by
  have hfr := (freeList_head hwf.free hh).1.2
  simp [takeFreeSlot, Eff.bind_apply, hh, hfr, taken]

section Start
variable {now : Time} {key : Key} {count : UInt8}

theorem slot_begun (hi : i < r.slots.length) : (r.begun i now key count).slot j =
    if i = j then (r.slot i).started now key count (r.nextBorn + 1) else r.slot j :=
  slot_of_set rfl hi

theorem startSlot_taken {r' : Reassembler} (hi : i < r.slots.length)
    (h : (r.begun i now key count).insertKey i = .ok r') :
    startSlot i now key count (r.taken i) = (.ok (), r') := by
  have hsl : (r.taken i).slot i = { r.slot i with freeNext := none } := slot_setSlot_self hi
  have hb : ({ (r.taken i).setSlot i (((r.taken i).slot i).started now key count
      ((r.taken i).nextBorn + 1)) with nextBorn := (r.taken i).nextBorn + 1 } :
      Reassembler).setPeerCount key.peerID (r.peerCount key.peerID + 1) =
      r.begun i now key count := by
    rw [hsl]
    simp [taken, begun, setSlot, setPeerCount, Slot.started]
  have hc : ({ (r.taken i).setSlot i (((r.taken i).slot i).started now key count
      ((r.taken i).nextBorn + 1)) with nextBorn := (r.taken i).nextBorn + 1 } :
      Reassembler).peerCount key.peerID = r.peerCount key.peerID := rfl
  simp only [startSlot, Eff.bind_apply, Eff.get_apply, Eff.set_apply, hc, hb, h]

private theorem begun_indexed (hwf : r.Wf) (hi : i < r.slots.length)
    (hfr : (r.slot i).state = .free) :
    Indexed (r.begun i now key count) fun j => (r.slot j).Active := by
  have hlen : (r.begun i now key count).slots.length = r.slots.length := by simp [begun]
  refine hwf.index.congr (fun _ => Iff.rfl) ?_ ?_ hlen ?_
  · rfl
  · rfl
  intro j hj
  rw [slot_begun hi, if_neg]
  rintro rfl
  exact hj.1 hfr

theorem begun_free (hwf : r.Wf) (hh : r.freeHead = some i) :
    FreeList (r.begun i now key count) := by
  obtain ⟨⟨hi, -⟩, l, hl, hnd, hmem⟩ := freeList_head hwf.free hh
  refine ⟨l, ?_, hnd, ?_⟩
  · apply hl.congr
    intro j hj
    have hji := ((hmem j).mp hj).1
    show ((r.begun i now key count).slot j).freeNext = _
    rw [slot_begun hi, if_neg (Ne.symm hji)]
  · intro j
    rw [hmem, slot_begun hi]
    by_cases hij : i = j
    · simp [hij, Slot.started]
    · simp [hij, Ne.symm hij, begun]

private theorem peerCount_begun (hwf : r.Wf) (hpr : key.peerID < r.config.maxPeers) (p : ℕ) :
    (r.begun i now key count).peerCount p =
      if key.peerID = p then r.peerCount p + 1 else r.peerCount p := by
  show (r.setPeerCount key.peerID (r.peerCount key.peerID + 1)).peerCount p = _
  have hlt : key.peerID < r.peerCounts.length := by
    rw [hwf.peers]
    exact hpr
  rw [peerCount_setPeerCount]
  by_cases hp : key.peerID = p
  · subst hp
    simp [hlt]
  · simp [hp]

private theorem toNat_succ_le (n : UInt32) : (n + 1).toNat ≤ n.toNat + 1 := by
  rw [UInt32.toNat_add]
  exact Nat.mod_le _ _

private theorem begun_load (hwf : r.Wf) (hi : i < r.slots.length) (hid : ¬ (r.slot i).Active)
    (hpr : key.peerID < r.config.maxPeers) (p : ℕ) :
    ((r.begun i now key count).peerCount p).toNat ≤ (r.begun i now key count).load p := by
  have hp := hwf.load p
  have hsl : (r.begun i now key count).slots =
      r.slots.set i ((r.slot i).started now key count (r.nextBorn + 1)) := rfl
  have hid' : ¬ ((r.slot i).Active ∧ (r.slot i).key.peerID = p) := fun h => hid h.1
  rw [load_of_set hsl hi, if_neg hid', Nat.sub_zero, peerCount_begun hwf hpr]
  by_cases heq : key.peerID = p
  · have ho : (if ((r.slot i).started now key count (r.nextBorn + 1)).Active ∧
        ((r.slot i).started now key count (r.nextBorn + 1)).key.peerID = p then 1
        else 0) = 1 := if_pos ⟨by simp [Slot.started, Slot.Active], heq⟩
    have := toNat_succ_le (r.peerCount p)
    rw [ho, if_pos heq]
    omega
  · rw [if_neg heq]
    omega

theorem startSlot_spec (hwf : r.Wf) (hh : r.freeHead = some i)
    (hn : ∀ j, (r.slot j).Active → (r.slot j).key ≠ key) (hpr : key.peerID < r.config.maxPeers)
    (hq : (r.peerCount key.peerID).toNat < r.config.perPeerSlots) :
    ∃ r', startSlot i now key count (r.taken i) = (.ok (), r') ∧ Starts r i now key count r' := by
  obtain ⟨hi, hfr⟩ := (freeList_head hwf.free hh).1
  have hid : ¬ (r.slot i).Active := fun h => h.1 hfr
  have ha : ((r.slot i).started now key count (r.nextBorn + 1)).Active := by
    simp [Slot.started, Slot.Active]
  have hks : ∀ j, (r.slot j).Active →
      ((r.begun i now key count).slot j).key ≠ ((r.begun i now key count).slot i).key := by
    intro j hj
    rw [slot_begun hi, slot_begun hi, if_neg, if_pos rfl]
    · exact hn j hj
    · rintro rfl
      exact hid hj
  obtain ⟨t, ht, -, hix⟩ := insertKey_spec (begun_indexed hwf hi hfr) hid
    (by simpa [begun] using hi) hks
  use (r.begun i now key count).withIndex t
  constructor
  · exact startSlot_taken hi ht
  have hc : ∀ p, (r.begun i now key count).peerCount p =
      if key.peerID = p then r.peerCount p + 1 else r.peerCount p := peerCount_begun hwf hpr
  refine ⟨?_, rfl, rfl, rfl, hc⟩
  have hsl : ((r.begun i now key count).withIndex t).slots =
      r.slots.set i ((r.slot i).started now key count (r.nextBorn + 1)) := rfl
  apply hwf.replace hi hsl rfl
  · exact ⟨(hwf.each i hi).buf, by simp [Slot.started], by simp [Slot.started],
      by simp [Slot.started], by simp [Slot.started], by simp [Slot.started, Slot.Active],
      fun _ => hpr⟩
  · apply hix.congr _ rfl rfl rfl fun _ _ => rfl
    intro j
    show ((r.begun i now key count).slot j).Active ↔ _
    rw [slot_begun hi]
    by_cases hij : i = j
    · simp [hij, hij ▸ ha]
    · simp [hij, Ne.symm hij]
  · exact begun_free hwf hh
  · simp [withIndex, begun]
  · intro p
    have hp := hwf.quota p
    show ((r.begun i now key count).peerCount p).toNat ≤ _
    rw [hc]
    split
    · next heq =>
      subst heq
      have := toNat_succ_le (r.peerCount key.peerID)
      omega
    · exact hp
  · exact begun_load hwf hi hid hpr

end Start

theorem load_setSlot {p : ℕ} (hi : i < r.slots.length)
    (ha : s.Active ↔ (r.slot i).Active) (hkey : s.key = (r.slot i).key) :
    (r.setSlot i s).load p = r.load p := by
  have hpos : (r.slot i).Active ∧ (r.slot i).key.peerID = p → 0 < r.load p := by
    intro h
    unfold load
    rw [countP_pos_iff]
    exact ⟨r.slots[i], by simp, by rw [← slot_eq_getElem hi]; simpa using h⟩
  rw [load_of_set rfl hi, hkey]
  simp only [ha]
  split
  · next h =>
    have := hpos h
    omega
  · simp

/-- A slot in use may change anything but its key and whether the index knows it. -/
theorem setSlot_wf (hwf : r.Wf) (hs : (r.slot i).state ≠ .free)
    (hok : s.Ok r.config) (hst : s.state ≠ .free) (ha : s.Active ↔ (r.slot i).Active)
    (hkey : s.key = (r.slot i).key) : (r.setSlot i s).Wf := by
  have hi := lt_of_state hs
  have hsl : (r.setSlot i s).slots = r.slots.set i s := rfl
  have hso : ∀ j, (r.setSlot i s).slot j = if i = j then s else r.slot j :=
    fun j => slot_of_set hsl hi
  apply hwf.replace hi hsl rfl hok
  · refine hwf.index.congr ?_ ?_ ?_ (length_setSlot s) ?_
    · intro j
      rw [hso]
      by_cases hij : i = j
      · subst hij
        simpa using ha
      · simp [hij]
    · rfl
    · rfl
    · intro j _
      rw [hso]
      split
      · next hij => rw [← hij, hkey]
      · rfl
  · exact hwf.free.keep hs hsl hst rfl
  · rfl
  · exact hwf.quota
  · intro p
    rw [load_setSlot hi ha hkey]
    exact hwf.load p

end Reassembler

/-! ### A new reassembler -/

private theorem keyIndexLoop_le {want k size n : ℕ} (h : keyIndexLoop want k size = some n) :
    want ≤ n := by
  induction k generalizing size with
  | zero =>
    unfold keyIndexLoop at h
    split at h
    · cases h
    · cases h
      omega
  | succ _ ih =>
    unfold keyIndexLoop at h
    split at h
    · split at h
      · cases h
      · exact ih h
    · cases h
      omega

theorem new_ok {config : Config} {hash : Key → UInt64} {r : Reassembler}
    (h : new config hash = .ok r) : config.Valid ∧ ∃ size, 2 * config.slots ≤ size ∧
      r = config.initial hash size := by
  unfold new at h
  split at h
  · next hv =>
    cases hsz : keyIndexSize config.slots with
    | none => simp [hsz] at h
    | some size =>
      simp only [hsz, Except.ok.injEq] at h
      refine ⟨hv, size, ?_, h.symm⟩
      unfold keyIndexSize at hsz
      split at hsz
      · cases hsz
      · have := keyIndexLoop_le hsz
        omega
  · cases h

theorem linked_range (next : ℕ → Option ℕ) (n : ℕ)
    (h : ∀ i < n, next i = if i + 1 < n then some (i + 1) else none) (k i : ℕ) (hk : i + k = n)
    (hpos : 0 < k) : Linked next (some i) (List.range' i k) := by
  induction k generalizing i with
  | zero => omega
  | succ k ih =>
    constructor
    · rfl
    rw [h i (by omega)]
    by_cases hk' : k = 0
    · subst hk'
      rw [if_neg (by omega)]
      rfl
    · rw [if_pos (by omega)]
      exact ih (i + 1) (by omega) (by omega)

theorem new_config {config : Config} {hash : Key → UInt64} {r : Reassembler}
    (h : new config hash = .ok r) : r.config = config := by
  obtain ⟨-, _, -, rfl⟩ := new_ok h
  rfl

section Initial
variable {config : Config} {hash : Key → UInt64} {size : ℕ}

private theorem initial_slot {i : ℕ} (hi : i < config.slots) :
    (config.initial hash size).slot i = config.freeSlot i := by
  rw [Reassembler.slot_eq_getElem (by simpa using hi)]
  simp

private theorem initial_free (i : ℕ) : ((config.initial hash size).slot i).state = .free := by
  by_contra hs
  apply hs
  have hi := Reassembler.lt_of_state hs
  simp [initial_slot (by simpa using hi)]

private theorem initial_idle (i : ℕ) : ¬ ((config.initial hash size).slot i).Active :=
  fun hi => hi.1 (initial_free i)

private theorem initial_indexed (hpos : 0 < config.slots) (hsz : 2 * config.slots ≤ size) :
    (config.initial hash size).Indexed fun i => ((config.initial hash size).slot i).Active := by
  have he : ∀ p i, ¬ Probe.Holds (config.initial hash size).keySlots p i := by
    intro p i hp
    simp [Probe.Holds, getElem?_replicate] at hp
  constructor
  · exact ⟨fun p i hp => absurd hp (he p i), fun p q i hp => absurd hp (he p i),
      fun p i hp => absurd hp (he p i)⟩
  · intro i
    constructor
    · rintro ⟨p, hp⟩
      exact absurd hp (he p i)
    · intro ha
      exact absurd ha (initial_idle i)
  · intro i j hi
    exact absurd hi (initial_idle i)
  · intro i hi
    exact absurd hi (initial_idle i)
  · simp only [Config.initial_slots, Config.initial_keySlots, length_map, length_range,
      length_replicate]
    omega

private theorem initial_freeList (hpos : 0 < config.slots) :
    (config.initial hash size).FreeList := by
  refine ⟨List.range' 0 config.slots, ?_, nodup_range', ?_⟩
  · apply linked_range _ config.slots _ _ _ (by omega) hpos
    intro i hi
    simp [initial_slot hi]
  · intro i
    simp [initial_free, List.mem_range'_1]

private theorem initial_peerCount (p : ℕ) : (config.initial hash size).peerCount p = 0 := by
  simp [Reassembler.peerCount, getD_eq_getElem?_getD, getElem?_replicate]
  split <;> rfl

private theorem initial_ok {i : ℕ} (hi : i < config.slots) :
    ((config.initial hash size).slot i).Ok config := by
  constructor
  · simp [initial_slot hi]
  · intro hs
    exact absurd (initial_free i) hs
  · simp [initial_free]
  · simp [initial_free]
  · simp [initial_slot hi]
  · simp [initial_slot hi, Slot.Active]
  · intro ha
    exact absurd ha (initial_idle i)

theorem new_wf {r : Reassembler} (h : new config hash = .ok r) :
    r.Wf ∧ ∀ i, (r.slot i).state = .free := by
  obtain ⟨hv, size, hsz, rfl⟩ := new_ok h
  have hlen : (config.initial hash size).slots.length = config.slots := by simp
  refine ⟨⟨hv, hlen, fun i hi => initial_ok (hlen ▸ hi), initial_indexed hv.1 hsz,
    initial_freeList hv.1, by simp, fun p => ?_, fun p => ?_⟩, initial_free⟩
  · simp [initial_peerCount]
  · simp [initial_peerCount]

end Initial

end WgFrag.Data.Reassembly
