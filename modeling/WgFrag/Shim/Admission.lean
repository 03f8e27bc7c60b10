import WgFrag.Shim.Scheduler
import Mathlib.Data.List.Perm.Basic

/-! What the CONTROL scheduler admits, in terms of the list of its queued descriptors, and how the
shares of the peers bound each other. -/
namespace WgFrag.Shim
open WgFrag.Wire WgFrag.Lib List

/-! ### Queues -/

section Queue
variable {α : Type}
variable {l : List α} {i : ℕ}

theorem countP_erased {x : α} (h : l[i]? = some x) (p : α → Bool) :
    l.countP p = (l.eraseIdx i).countP p + if p x then 1 else 0 := by
  obtain ⟨hlt, rfl⟩ := List.getElem?_eq_some_iff.mp h
  have hpm := getElem_cons_eraseIdx_perm hlt
  rw [← hpm.countP_eq, countP_cons]

theorem countP_replaced {x y : α} (h : l[i]? = some x) {p : α → Bool}
    (hp : p y = p x) : (l.set i y).countP p = l.countP p := by
  obtain ⟨hlt, rfl⟩ := List.getElem?_eq_some_iff.mp h
  have hc := countP_erased h p
  rw [countP_set hlt, hp, hc]
  omega

theorem exists_of_findIdx? {p : α → Bool} (h : l.findIdx? p = some i) :
    ∃ x, l[i]? = some x ∧ p x = true := by
  obtain ⟨hlt, hp, -⟩ := findIdx?_eq_some_iff_getElem.mp h
  exact ⟨_, getElem?_eq_getElem hlt, hp⟩

end Queue

def share (q : List ControlDescriptor) (peer : PeerID) : ℕ := q.countP fun d => d.peer == peer

def criticalShare (q : List ControlDescriptor) (peer : PeerID) : ℕ :=
  q.countP fun d => d.peer == peer && !d.Exploratory

section
variable (limit cap : ℕ) (d : ControlDescriptor) (q : List ControlDescriptor)

/-- What happens to a descriptor and to the queue: `limit` is the share of every peer and `cap` the
size of the ring. -/
inductive Admitted : EnqueueOutcome → List ControlDescriptor → Prop
  | refusedExploratory : d.Exploratory = true → Admitted { dropped := true } q
  | refusedShare : d.Exploratory = false → limit ≤ share q d.peer →
    (∀ e ∈ q, e.peer = d.peer → e.Exploratory = false) →
    Admitted { dropped := true } q
  | refusedFull : d.Exploratory = false → share q d.peer < limit → q.length = cap →
    (∀ e ∈ q, e.Exploratory = false) → Admitted { dropped := true } q
  | coalesced {i : ℕ} {e : ControlDescriptor} : d.Exploratory = false → q[i]? = some e →
    e.peer = d.peer → e.Exploratory = false →
    Admitted { coalesced := true } (q.set i d)
  | explores : d.Exploratory = true → q.length < cap → Admitted {} (q ++ [d])
  | appended : d.Exploratory = false → share q d.peer < limit → q.length < cap →
    Admitted {} (q ++ [d])
  | swapped {i : ℕ} {e : ControlDescriptor} : d.Exploratory = false → q[i]? = some e →
    e.peer = d.peer → e.Exploratory = true →
    Admitted { evicted := true } (q.eraseIdx i ++ [d])
  | displaced {i : ℕ} {e : ControlDescriptor} : d.Exploratory = false → share q d.peer < limit →
    q[i]? = some e → e.Exploratory = true →
    Admitted { evicted := true } (q.eraseIdx i ++ [d])

end

namespace ControlScheduler
variable {s t : ControlScheduler} {offset : ℕ} {desc : ControlDescriptor}
variable {e : ControlDescriptor}

def queue (s : ControlScheduler) : List ControlDescriptor := s.descriptors.contents

structure Wf (s : ControlScheduler) : Prop where
  ring : s.descriptors.Wf
  counted : s.exploratory = s.queue.countP ControlDescriptor.Exploratory

/-- The parts of a scheduler that no call changes. -/
structure Shape (s t : ControlScheduler) : Prop where
  capacity : t.capacity = s.capacity
  peers : t.peerOrder = s.peerOrder

theorem Shape.trans {r : ControlScheduler} (h : Shape s t) (h' : Shape t r) : Shape s r :=
  ⟨h'.capacity.trans h.capacity, h'.peers.trans h.peers⟩

theorem countForPeer_eq (s : ControlScheduler) (peer : PeerID) :
    s.countForPeer peer = share s.queue peer := by
  unfold countForPeer share queue RingQueue.contents
  rw [countP_map]
  rfl

theorem slot_descriptor (h : s.queue[offset]? = some desc) :
    s.descriptors.slots.getD (s.descriptors.slot offset) default = desc := by
  unfold queue at h
  rw [RingQueue.contents_getElem?] at h
  split at h
  · exact Option.some.inj h
  · cases h

theorem queue_lt (h : s.queue[offset]? = some desc) : offset < s.descriptors.count := by
  have hlt := lt_of_get h
  unfold queue at hlt
  rw [RingQueue.contents_length] at hlt
  exact hlt

theorem remove_queue (hwf : s.Wf) (h : s.queue[offset]? = some desc) :
    (s.remove (s.descriptors.slot offset)).queue = s.queue.eraseIdx offset ∧
      (s.remove (s.descriptors.slot offset)).Wf ∧
      Shape s (s.remove (s.descriptors.slot offset)) := by
  have hlt := queue_lt h
  have hc := RingQueue.contents_remove hwf.ring hlt
  have hcn := countP_erased h ControlDescriptor.Exploratory
  have hne : s.descriptors.count ≠ 0 := by omega
  unfold remove
  rw [if_neg hne]
  refine ⟨hc, ⟨RingQueue.remove_wf hwf.ring _, ?_⟩, RingQueue.remove_length _ _, rfl⟩
  show (if (s.descriptors.slots.getD (s.descriptors.slot offset) default).Exploratory then
      s.exploratory - 1 else s.exploratory) =
    (s.descriptors.remove (s.descriptors.slot offset)).contents.countP _
  rw [hc, slot_descriptor h, hwf.counted, hcn]
  show _ = (s.queue.eraseIdx offset).countP _
  split <;> omega

theorem append_queue (hwf : s.Wf) (hrm : s.queue.length < s.capacity) (desc : ControlDescriptor) :
    (s.append desc).queue = s.queue ++ [desc] ∧ (s.append desc).Wf ∧ Shape s (s.append desc) := by
  have hlt : s.descriptors.count < s.descriptors.slots.length := by
    unfold queue at hrm
    rw [RingQueue.contents_length] at hrm
    exact hrm
  have hc := RingQueue.contents_push hwf.ring hlt desc
  refine ⟨hc, ⟨RingQueue.push_wf hwf.ring hlt desc, ?_⟩, length_set, rfl⟩
  show (if desc.Exploratory then s.exploratory + 1 else s.exploratory) =
    (s.descriptors.push desc).contents.countP _
  rw [hc, countP_append, countP_singleton, hwf.counted]
  show _ = s.queue.countP _ + _
  split <;> rfl

theorem find_queue {p : ControlDescriptor → Bool} :
    (s.descriptors.find p = none ∧ ∀ e ∈ s.queue, p e = false) ∨
    ∃ offset e, s.descriptors.find p = some (s.descriptors.slot offset) ∧
      s.queue[offset]? = some e ∧ p e = true := by
  rw [RingQueue.find_eq]
  cases hf : s.descriptors.contents.findIdx? p with
  | none =>
    rw [findIdx?_eq_none_iff] at hf
    exact .inl ⟨rfl, hf⟩
  | some offset =>
    obtain ⟨e, he, hp⟩ := exists_of_findIdx? hf
    exact .inr ⟨offset, e, rfl, he, hp⟩

/-- What an admission does, with what it keeps. -/
structure Admits (s : ControlScheduler) (desc : ControlDescriptor)
    (out : EnqueueOutcome × ControlScheduler) : Prop where
  admitted : Admitted s.peerAdmissionLimit s.capacity desc s.queue out.1 out.2.queue
  wf : out.2.Wf
  shape : Shape s out.2

theorem queue_length : s.queue.length = s.descriptors.count := RingQueue.contents_length

theorem place_critical (hwf : s.Wf) (hd : desc.Exploratory = false)
    (hsh : share s.queue desc.peer < s.peerAdmissionLimit) :
    Admits s desc (s.place desc false) := by
  unfold place
  by_cases hfu : s.descriptors.count = s.capacity
  · have hlen : s.queue.length = s.capacity := queue_length.trans hfu
    rw [if_pos hfu, if_neg (by rw [hd]; decide)]
    rcases find_queue (s := s) (p := ControlDescriptor.Exploratory) with
      ⟨hn, ha⟩ | ⟨offset, e, hs, he, hex⟩
    · have ho : s.oldestExploratory = none := hn
      rw [ho]
      exact ⟨.refusedFull hd hsh hlen ha, hwf, rfl, rfl⟩
    · have ho : s.oldestExploratory = some (s.descriptors.slot offset) := hs
      obtain ⟨hq, hwf', hsp⟩ := remove_queue hwf he
      have hrm : (s.remove (s.descriptors.slot offset)).queue.length <
          (s.remove (s.descriptors.slot offset)).capacity := by
        have hlt := lt_of_get he
        rw [hq, length_eraseIdx, if_pos hlt, hsp.capacity]
        omega
      obtain ⟨hq', hwf'', hs'⟩ := append_queue hwf' hrm desc
      rw [ho]
      refine ⟨?_, hwf'', hsp.trans hs'⟩
      rw [hq', hq]
      exact .displaced hd hsh he hex
  · have hrm : s.queue.length < s.capacity := by
      have hle := hwf.ring.count
      rw [queue_length]
      exact Nat.lt_of_le_of_ne hle hfu
    obtain ⟨hq, hwf', hsp⟩ := append_queue hwf hrm desc
    rw [if_neg hfu]
    refine ⟨?_, hwf', hsp⟩
    rw [hq]
    exact .appended hd hsh hrm

theorem Same.peer {d : ControlDescriptor} (h : e.Same d = true) :
    e.peer = d.peer ∧ e.Exploratory = false := by
  unfold ControlDescriptor.Same at h
  simp only [Bool.and_eq_true, beq_iff_eq] at h
  refine ⟨h.1.1.1.1.2, ?_⟩
  unfold ControlDescriptor.Exploratory
  rw [h.1.1.1.1.1]
  rfl

/-- A later copy takes the place of the earlier one. -/
theorem replace_admits (hwf : s.Wf) (hd : desc.Exploratory = false)
    (he : s.queue[offset]? = some e) (heq : e.Same desc = true) :
    Admits s desc ({ coalesced := true },
      { s with descriptors := s.descriptors.replace (s.descriptors.slot offset) desc }) := by
  obtain ⟨hp, hex⟩ := Same.peer heq
  have hc := RingQueue.contents_replace hwf.ring (queue_lt he) desc
  refine ⟨?_, ⟨RingQueue.replace_wf hwf.ring _ desc, ?_⟩, length_set, rfl⟩
  · show Admitted _ _ _ _ _ (s.descriptors.replace (s.descriptors.slot offset) desc).contents
    rw [hc]
    exact .coalesced hd he hp hex
  · show s.exploratory = (s.descriptors.replace (s.descriptors.slot offset) desc).contents.countP _
    rw [hc, hwf.counted]
    exact (countP_replaced he (hd.trans hex.symm)).symm

/-- An exploratory descriptor of the peer makes room for a critical one. -/
theorem swap_admits (hwf : s.Wf) (hd : desc.Exploratory = false)
    (he : s.queue[offset]? = some e) (hp : e.peer = desc.peer) (hex : e.Exploratory = true) :
    Admits s desc ((s.remove (s.descriptors.slot offset)).place desc true) := by
  obtain ⟨hq, hwf', hs⟩ := remove_queue hwf he
  have hrm : (s.remove (s.descriptors.slot offset)).queue.length <
      (s.remove (s.descriptors.slot offset)).capacity := by
    have hlt := lt_of_get he
    have hle : s.queue.length ≤ s.capacity := queue_length.trans_le hwf.ring.count
    rw [hq, length_eraseIdx, if_pos hlt, hs.capacity]
    omega
  have hne : (s.remove (s.descriptors.slot offset)).descriptors.count ≠
      (s.remove (s.descriptors.slot offset)).capacity := by
    rw [← queue_length]
    exact Nat.ne_of_lt hrm
  obtain ⟨hq', hwf'', hs'⟩ := append_queue hwf' hrm desc
  unfold place
  rw [if_neg hne]
  refine ⟨?_, hwf'', hs.trans hs'⟩
  rw [hq', hq]
  exact .swapped hd he hp hex

theorem enterQueue_admits (hwf : s.Wf) (desc : ControlDescriptor) :
    Admits s desc (s.enterQueue desc) := by
  unfold enterQueue
  by_cases hd : desc.Exploratory = true
  · rw [if_pos hd]
    split
    · exact ⟨.refusedExploratory hd, hwf, rfl, rfl⟩
    unfold place
    split
    · exact ⟨.refusedExploratory hd, hwf, rfl, rfl⟩
    rename_i hfu
    have hrm : s.queue.length < s.capacity := by
      have hle := hwf.ring.count
      rw [queue_length]
      exact Nat.lt_of_le_of_ne hle hfu
    obtain ⟨hq, hwf', hsh⟩ := append_queue hwf hrm desc
    refine ⟨?_, hwf', hsh⟩
    rw [hq]
    exact .explores hd hrm
  · rw [if_neg hd]
    have hd' := Bool.of_not_eq_true hd
    rcases find_queue (s := s) (p := fun e => e.Same desc) with
      ⟨hn, -⟩ | ⟨offset, e, hs, he, heq⟩
    · have hcopy : s.sameCritical desc = none := hn
      rw [hcopy]
      dsimp only
      rw [countForPeer_eq]
      split
      · next hl =>
        rcases find_queue (s := s) (p := fun e => e.peer == desc.peer && e.Exploratory) with
          ⟨hn, ha⟩ | ⟨offset, e, hs, he, ho⟩
        · have hex : s.oldestExploratoryForPeer desc.peer = none := hn
          rw [hex]
          refine ⟨.refusedShare hd' hl fun e he hp => ?_, hwf, rfl, rfl⟩
          have hno := ha e he
          rw [hp, beq_self_eq_true, Bool.true_and] at hno
          exact hno
        · have hex : s.oldestExploratoryForPeer desc.peer = some (s.descriptors.slot offset) :=
            hs
          rw [Bool.and_eq_true, beq_iff_eq] at ho
          rw [hex]
          exact swap_admits hwf hd' he ho.1 ho.2
      · next hl => exact place_critical hwf hd' (Nat.lt_of_not_le hl)
    · have hcopy : s.sameCritical desc = some (s.descriptors.slot offset) := hs
      rw [hcopy]
      exact replace_admits hwf hd' he heq

theorem pop_queue (hwf : s.Wf) (h : s.queue[offset]? = some desc) :
    (s.pop (s.descriptors.slot offset)).1 = desc ∧
      (s.pop (s.descriptors.slot offset)).2.queue = s.queue.eraseIdx offset ∧
      (s.pop (s.descriptors.slot offset)).2.Wf ∧ Shape s (s.pop (s.descriptors.slot offset)).2 := by
  have hlt := queue_lt h
  unfold pop
  rw [slot_descriptor h]
  split
  · next hh =>
    have hz : offset = 0 := by
      have hle := hwf.ring.count
      have hf : s.descriptors.slot 0 = s.descriptors.head := Nat.mod_eq_of_lt hwf.ring.head
      exact RingQueue.slot_inj (by omega) (by omega) (hh.trans hf.symm)
    subst hz
    have hc : s.descriptors.dropHead.contents = s.queue.eraseIdx 0 := by
      rw [RingQueue.contents_dropHead hwf.ring hlt, eraseIdx_zero]
      rfl
    have hcn := countP_erased h ControlDescriptor.Exploratory
    refine ⟨rfl, hc, ⟨RingQueue.dropHead_wf hwf.ring, ?_⟩, length_set, rfl⟩
    show (if desc.Exploratory then s.exploratory - 1 else s.exploratory) =
      s.descriptors.dropHead.contents.countP _
    rw [hc, hwf.counted, hcn]
    split <;> omega
  · obtain ⟨hq, hwf', hs⟩ := remove_queue hwf h
    exact ⟨rfl, hq, hwf', hs⟩

theorem choose_queue (globalReady : Bool) (ready : PeerID → Bool) :
    (s.choose globalReady ready).2.queue = s.queue ∧
      (s.Wf → (s.choose globalReady ready).2.Wf) ∧ Shape s (s.choose globalReady ready).2 := by
  unfold choose
  split
  · exact ⟨rfl, id, rfl, rfl⟩
  dsimp only
  split
  · exact ⟨rfl, fun h => ⟨h.ring, h.counted⟩, rfl, rfl⟩
  · exact ⟨rfl, id, rfl, rfl⟩

end ControlScheduler

/-! ### Shares -/

private theorem share_total {q : List ControlDescriptor} {peers : List PeerID} {limit : ℕ}
    (hp : ∀ d ∈ q, d.peer ∈ peers) (hs : ∀ p ∈ peers, share q p ≤ limit) :
    q.length ≤ peers.length * limit := by
  induction peers generalizing q with
  | nil =>
    cases q with
    | nil => exact Nat.zero_le _
    | cons d => cases hp d (mem_cons_self ..)
  | cons p _ ih =>
    obtain ⟨rest, hr⟩ : ∃ rest, rest = q.filter fun d => !(d.peer == p) := ⟨_, rfl⟩
    have hlen : q.length = share q p + rest.length := by
      have hsp := length_eq_countP_add_countP (l := q) fun d => d.peer == p
      simp only [Bool.not_eq_true, Bool.decide_eq_false] at hsp
      rw [hr, ← countP_eq_length_filter]
      exact hsp
    have hle := ih (q := rest) (fun d hd => ?_) fun p' hp' => ?_
    · have ho := hs p (mem_cons_self ..)
      rw [length_cons, Nat.succ_mul]
      omega
    · rw [hr, mem_filter] at hd
      have hmem := hp d hd.1
      rcases mem_cons.mp hmem with heq | hmem
      · rw [heq, beq_self_eq_true] at hd
        cases hd.2
      · exact hmem
    · refine Nat.le_trans ?_ (hs p' (mem_cons_of_mem _ hp'))
      rw [hr]
      exact List.Sublist.countP_le filter_sublist

/-- While every peer keeps to its share, a peer below its share finds the queue not full of
others. -/
theorem not_full_of_shares {q : List ControlDescriptor} {peers : List PeerID} {limit cap : ℕ}
    (hpe : ∀ d ∈ q, d.peer ∈ peers) (hs : ∀ p, share q p ≤ limit) {peer : PeerID}
    (hpr : peer ∈ peers) (hb : share q peer < limit) (hc : peers.length * limit ≤ cap) :
    q.length < cap := by
  have ht : ({ (default : ControlDescriptor) with peer := peer } :: q).length ≤
      peers.length * limit := by
    refine share_total (fun d hd => ?_) fun p hp => ?_
    · rcases mem_cons.mp hd with rfl | hd
      · exact hpr
      · exact hpe d hd
    · unfold share
      rw [countP_cons]
      by_cases hp : peer = p
      · subst hp
        rw [if_pos (beq_self_eq_true _)]
        exact hb
      · rw [if_neg (by simpa using hp)]
        exact hs p
  rw [length_cons] at ht
  omega

end WgFrag.Shim
