import WgFrag.Shim.Isolation

/-! The CONTROL ring as an ordered list. Each entry of the list has the number of the call that
made its place, and a list without these numbers is the queue of the scheduler. -/
namespace WgFrag.Shim
open WgFrag.Wire WgFrag.Lib List

/-! ### The list -/

/-- A descriptor and the number of the call that made its place. -/
abbrev Placed := ℕ × ControlDescriptor

/-- What `enqueue` does to a list of at most `cap` entries, where `limit` is the share of a
peer. -/
def placeIn (limit cap stamp : ℕ) (d : ControlDescriptor) (l : List Placed) : List Placed :=
  if d.Exploratory then
    if controlExploratoryLimit ≤ l.countP (fun e => e.2.Exploratory) ∨ l.length = cap then l
    else l ++ [(stamp, d)]
  else
    match l.findIdx? fun e => e.2.Same d with
    | some i => l.modify i fun e => (e.1, d)
    | none =>
      if limit ≤ l.countP fun e => e.2.peer == d.peer then
        match l.findIdx? fun e => e.2.peer == d.peer && e.2.Exploratory with
        | some i => l.eraseIdx i ++ [(stamp, d)]
        | none => l
      else if l.length = cap then
        match l.findIdx? fun e => e.2.Exploratory with
        | some i => l.eraseIdx i ++ [(stamp, d)]
        | none => l
      else l ++ [(stamp, d)]

/-- The fields by which a frame replaces another one. -/
def ControlDescriptor.SameKey (e d : ControlDescriptor) : Prop :=
  e.peer = d.peer ∧ e.kind = d.kind ∧ e.epoch = d.epoch ∧ e.messageID = d.messageID ∧
    e.replyTo = d.replyTo

theorem ControlDescriptor.SameKey.symm {e d : ControlDescriptor} (h : e.SameKey d) : d.SameKey e :=
  ⟨h.1.symm, h.2.1.symm, h.2.2.1.symm, h.2.2.2.1.symm, h.2.2.2.2.symm⟩

theorem ControlDescriptor.SameKey.trans {e d f : ControlDescriptor} (h : e.SameKey d)
    (h' : d.SameKey f) : e.SameKey f :=
  ⟨h.1.trans h'.1, h.2.1.trans h'.2.1, h.2.2.1.trans h'.2.2.1, h.2.2.2.1.trans h'.2.2.2.1,
    h.2.2.2.2.trans h'.2.2.2.2⟩

/-- The queue with or without one exploratory entry. -/
def Thinned (q rest : List ControlDescriptor) : Prop :=
  rest = q ∨ ∃ i e, q[i]? = some e ∧ e.Exploratory = true ∧ rest = q.eraseIdx i

/-- An entry is appended, replaces the one entry with its key, or is dropped. -/
inductive Enqueued (d : ControlDescriptor) (q : List ControlDescriptor) :
    EnqueueOutcome → List ControlDescriptor → Prop
  | dropped : Enqueued d q { dropped := true } q
  | appended {rest : List ControlDescriptor} (evicted : Bool) : Thinned q rest →
    (evicted = false → rest = q) → Enqueued d q { evicted := evicted } (rest ++ [d])
  | replaced {before after : List ControlDescriptor} {old : ControlDescriptor} :
    q = before ++ old :: after → old.SameKey d → (∀ e ∈ before ++ after, ¬ e.SameKey d) →
    Enqueued d q { coalesced := true } (before ++ d :: after)

inductive PlacedIn (stamp : ℕ) (d : ControlDescriptor) (l : List Placed) : List Placed → Prop
  | dropped : PlacedIn stamp d l l
  | appended {rest : List Placed} : rest.Sublist l → PlacedIn stamp d l (rest ++ [(stamp, d)])
  | replaced {before after : List Placed} {n : ℕ} {old : ControlDescriptor} :
    l = before ++ (n, old) :: after → old.Same d = true →
    PlacedIn stamp d l (before ++ (n, d) :: after)

section List
variable {stamp : ℕ} {d : ControlDescriptor} {l l' : List Placed}

theorem modify_split {i : ℕ} {e : Placed} (h : l[i]? = some e) :
    l = l.take i ++ e :: l.drop (i + 1) ∧
      (l.modify i fun e => (e.1, d)) = l.take i ++ (e.1, d) :: l.drop (i + 1) := by
  obtain ⟨hlt, rfl⟩ := List.getElem?_eq_some_iff.mp h
  constructor
  · rw [getElem_cons_drop hlt, take_append_drop]
  · rw [modify_eq_take_cons_drop hlt]

theorem placeIn_cases (limit cap stamp : ℕ) (d : ControlDescriptor) (l : List Placed) :
    PlacedIn stamp d l (placeIn limit cap stamp d l) := by
  unfold placeIn
  split
  · split
    · exact .dropped
    · exact .appended (List.Sublist.refl l)
  · split
    · next i hf =>
      obtain ⟨_, he, heq⟩ := exists_of_findIdx? hf
      obtain ⟨hl, hm⟩ := modify_split he
      rw [hm]
      exact .replaced hl heq
    · split
      · split
        · exact .appended (eraseIdx_sublist ..)
        · exact .dropped
      · split
        · split
          · exact .appended (eraseIdx_sublist ..)
          · exact .dropped
        · exact .appended (List.Sublist.refl l)

/-- The places of a list are in the order of their numbers, all of them below the clock. -/
structure Ordered (clock : ℕ) (l : List Placed) : Prop where
  sorted : l.Pairwise fun a b => a.1 < b.1
  below : ∀ e ∈ l, e.1 < clock

theorem Ordered.sublist {clock : ℕ} (h : Ordered clock l) (hs : l'.Sublist l) :
    Ordered clock l' :=
  ⟨h.sorted.sublist hs, fun e he => h.below e (hs.subset he)⟩

theorem Ordered.later {clock : ℕ} (h : Ordered clock l) : Ordered (clock + 1) l :=
  ⟨h.sorted, fun e he => Nat.lt_succ_of_lt (h.below e he)⟩

theorem PlacedIn.ordered (h : PlacedIn stamp d l l') (hl : Ordered stamp l) :
    Ordered (stamp + 1) l' := by
  cases h with
  | dropped => exact hl.later
  | @appended _ hsu =>
    obtain ⟨hs, hbe⟩ := hl.sublist hsu
    refine ⟨?_, fun e he => ?_⟩
    · rw [pairwise_append]
      refine ⟨hs, pairwise_singleton .., fun a ha b hb => ?_⟩
      rw [mem_singleton.mp hb]
      exact hbe a ha
    · rcases mem_append.mp he with he | he
      · exact Nat.lt_succ_of_lt (hbe e he)
      · rw [mem_singleton.mp he]
        exact Nat.lt_succ_self stamp
  | @replaced before after n old hsp =>
    subst hsp
    have hm : (before ++ (n, d) :: after).map Prod.fst =
        (before ++ (n, old) :: after).map Prod.fst := by simp
    constructor
    · have hs := pairwise_map.mpr hl.sorted
      rw [← hm] at hs
      exact pairwise_map.mp hs
    · intro e he
      have hmem := mem_map_of_mem (f := Prod.fst) he
      rw [hm] at hmem
      obtain ⟨e', he', hst⟩ := mem_map.mp hmem
      rw [← hst]
      exact hl.later.below e' he'

theorem PlacedIn.mem {e : Placed} (h : PlacedIn stamp d l l') (he : e ∈ l') :
    e = (stamp, d) ∨ ∃ e' ∈ l, e'.1 = e.1 ∧ e'.2.peer = e.2.peer := by
  cases h with
  | dropped => exact .inr ⟨e, he, rfl, rfl⟩
  | appended hsu =>
    rcases mem_append.mp he with he | he
    · exact .inr ⟨e, hsu.subset he, rfl, rfl⟩
    · exact .inl (mem_singleton.mp he)
  | @replaced _ _ n old hs heq =>
    subst hs
    right
    rcases mem_append.mp he with he | he
    · exact ⟨e, mem_append_left _ he, rfl, rfl⟩
    rcases mem_cons.mp he with rfl | he
    · exact ⟨(n, old), mem_append_right _ mem_cons_self, rfl,
        (ControlScheduler.Same.peer heq).1⟩
    · exact ⟨e, mem_append_right _ (mem_cons_of_mem _ he), rfl, rfl⟩

end List

namespace ControlScheduler
variable {s t : ControlScheduler} {offset : ℕ} {desc d : ControlDescriptor} {l : List Placed}
  {stamp : ℕ} {q : List ControlDescriptor}
variable {e : ControlDescriptor} {i : ℕ}

/-! ### Keys -/

theorem same_iff {d : ControlDescriptor} :
    e.Same d = true ↔ e.Exploratory = false ∧ e.SameKey d := by
  unfold ControlDescriptor.Same ControlDescriptor.Exploratory ControlDescriptor.SameKey
  cases e.controlClass with
  | critical => simp [and_assoc]
  | exploratory => simp

/-- No two critical entries have one key, and the exploratory ones are the probes. -/
structure Coalesced (q : List ControlDescriptor) : Prop where
  kinds : ∀ e ∈ q, e.Exploratory = (e.kind == .probe)
  once : q.Pairwise fun a b => a.Exploratory = false → ¬ a.SameKey b

theorem Coalesced.sublist {q' : List ControlDescriptor} (h : Coalesced q) (hs : q'.Sublist q) :
    Coalesced q' :=
  ⟨fun e he => h.kinds e (hs.subset he), h.once.sublist hs⟩

/-- Entries with one key are of one class. -/
theorem class_of_key (he : e.Exploratory = (e.kind == .probe))
    (hd : d.Exploratory = (d.kind == .probe)) (h : e.SameKey d) :
    e.Exploratory = d.Exploratory := by
  rw [he, hd, h.2.1]

theorem Coalesced.append (h : Coalesced q) (hd : d.Exploratory = (d.kind == .probe))
    (hnew : ∀ e ∈ q, e.Exploratory = false → ¬ e.SameKey d) : Coalesced (q ++ [d]) := by
  constructor
  · intro e he
    rcases mem_append.mp he with he | he
    · exact h.kinds e he
    · rw [mem_singleton.mp he]
      exact hd
  · rw [pairwise_append]
    refine ⟨h.once, pairwise_singleton .., fun a ha b hb => ?_⟩
    rw [mem_singleton.mp hb]
    exact hnew a ha

/-- The entry that is replaced is the only one with its key. -/
theorem Coalesced.only {before after : List ControlDescriptor} {old : ControlDescriptor}
    (h : Coalesced (before ++ old :: after)) (hold : old.Exploratory = false)
    (he : e ∈ before ++ after) : ¬ e.SameKey old := by
  have hk := h.kinds old (mem_append_right _ mem_cons_self)
  obtain ⟨-, hr, hcr⟩ := pairwise_append.mp h.once
  intro hkey
  rcases mem_append.mp he with he | he
  · have hc := class_of_key (h.kinds e (mem_append_left _ he)) hk hkey
    exact hcr e he old mem_cons_self (hc.trans hold) hkey
  · exact (pairwise_cons.mp hr).1 e he hold hkey.symm

theorem Coalesced.replace {before after : List ControlDescriptor} {old : ControlDescriptor}
    (h : Coalesced (before ++ old :: after)) (hd : d.Exploratory = (d.kind == .probe))
    (hold : old.Exploratory = false) (hkey : old.SameKey d) : Coalesced (before ++ d :: after) := by
  have ho : ∀ e ∈ before ++ after, ¬ e.SameKey d :=
    fun e he heq => h.only hold he (heq.trans hkey.symm)
  obtain ⟨hbe, hr, hc⟩ := pairwise_append.mp h.once
  constructor
  · intro e he
    rcases mem_append.mp he with he | he
    · exact h.kinds e (mem_append_left _ he)
    · rcases mem_cons.mp he with rfl | he
      · exact hd
      · exact h.kinds e (mem_append_right _ (mem_cons_of_mem _ he))
  · rw [pairwise_append]
    refine ⟨hbe, pairwise_cons.mpr ⟨fun e he _ heq => ?_,
      (pairwise_cons.mp hr).2⟩, fun a ha b hb => ?_⟩
    · exact ho e (mem_append_right _ he) heq.symm
    · rcases mem_cons.mp hb with rfl | hb
      · exact fun _ => ho a (mem_append_left _ ha)
      · exact hc a ha b (mem_cons_of_mem _ hb)

theorem describe_kind {P : Proto} {codec : Codec} {peer : PeerID} {frame : Bytes}
    (h : describe P codec peer frame = .ok desc) : desc.Exploratory = (desc.kind == .probe) := by
  have hc : ∀ message : Control, ((classifyControl message).1 == .exploratory) =
      ((classifyControl message).2 == .probe) := by
    intro message
    unfold classifyControl
    split <;> rfl
  unfold describe at h
  split at h
  · cases h
  split at h
  · cases h
  rename_i message _
  dsimp only at h
  split at h
  all_goals
    obtain rfl := Except.ok.inj h
    exact hc message

/-! ### Enqueueing -/

theorem find_line (hline : l.map Prod.snd = s.queue) (p : ControlDescriptor → Bool) :
    s.descriptors.find p = (l.findIdx? fun e => p e.2).map s.descriptors.slot := by
  rw [RingQueue.find_eq]
  show (s.queue.findIdx? p).map _ = _
  rw [← hline, findIdx?_map]
  rfl

theorem queue_line {e : Placed} (hline : l.map Prod.snd = s.queue) (h : l[i]? = some e) :
    s.queue[i]? = some e.2 := by
  rw [← hline, getElem?_map, h]
  rfl

theorem map_eraseIdx (hline : l.map Prod.snd = s.queue) (i : ℕ) :
    (l.eraseIdx i).map Prod.snd = s.queue.eraseIdx i := by
  rw [← hline, eraseIdx_map]

/-- How a call of `enqueue` ends: the list changes as the queue does. -/
structure Enters (s : ControlScheduler) (d : ControlDescriptor) (l' : List Placed)
    (out : EnqueueOutcome × ControlScheduler) : Prop where
  line : l'.map Prod.snd = out.2.queue
  enqueued : Enqueued d s.queue out.1 out.2.queue
  coalesced : Coalesced out.2.queue
  wf : out.2.Wf
  shape : Shape s out.2

theorem Enters.dropped (hwf : s.Wf) (hline : l.map Prod.snd = s.queue)
    (hcoalesced : Coalesced s.queue) : Enters s d l ({ dropped := true }, s) :=
  ⟨hline, .dropped, hcoalesced, hwf, rfl, rfl⟩

/-- The descriptor goes to the end of a queue with room, from which an entry may have been taken
out. -/
theorem append_enters (hwf : t.Wf) (hs : Shape s t) (hrm : t.queue.length < t.capacity)
    (hline : l.map Prod.snd = t.queue) (hcoalesced : Coalesced t.queue)
    (hd : d.Exploratory = (d.kind == .probe))
    (hnew : ∀ e ∈ t.queue, e.Exploratory = false → ¬ e.SameKey d) {evicted : Bool}
    (ht : Thinned s.queue t.queue) (heq : evicted = false → t.queue = s.queue) :
    Enters s d (l ++ [(stamp, d)]) ({ evicted := evicted }, t.append d) := by
  obtain ⟨hq, hwf', hs'⟩ := append_queue hwf hrm d
  refine ⟨?_, ?_, ?_, hwf', hs.trans hs'⟩
  · rw [map_append, hline, hq]
    rfl
  · rw [hq]
    exact .appended evicted ht heq
  · rw [hq]
    exact hcoalesced.append hd hnew

section Enter
variable (stamp : ℕ) (hwf : s.Wf) (hline : l.map Prod.snd = s.queue) (hcoalesced : Coalesced s.queue)
  (hd : d.Exploratory = (d.kind == .probe))
  (hnew : ∀ e ∈ s.queue, e.Exploratory = false → ¬ e.SameKey d)
include hwf hline hcoalesced hd hnew

theorem room_enters (hrm : s.descriptors.count ≠ s.capacity) :
    Enters s d (l ++ [(stamp, d)]) ({}, s.append d) := by
  have hlt : s.queue.length < s.capacity := by
    rw [queue_length]
    exact Nat.lt_of_le_of_ne hwf.ring.count hrm
  exact append_enters hwf ⟨rfl, rfl⟩ hlt hline hcoalesced hd hnew (.inl rfl) fun _ => rfl

theorem removed_enters {i : ℕ} {e : Placed} (he : l[i]? = some e) (hex : e.2.Exploratory = true) :
    (s.remove (s.descriptors.slot i)).descriptors.count ≠
        (s.remove (s.descriptors.slot i)).capacity ∧
      Enters s d (l.eraseIdx i ++ [(stamp, d)])
        ({ evicted := true }, (s.remove (s.descriptors.slot i)).append d) := by
  have hen := queue_line hline he
  obtain ⟨hq, hwf', hs⟩ := remove_queue hwf hen
  have hrm : (s.remove (s.descriptors.slot i)).queue.length <
      (s.remove (s.descriptors.slot i)).capacity := by
    have hlt := lt_of_get hen
    have hle : s.queue.length ≤ s.capacity := queue_length.trans_le hwf.ring.count
    rw [hq, length_eraseIdx, if_pos hlt, hs.capacity]
    omega
  have hsu : (s.remove (s.descriptors.slot i)).queue.Sublist s.queue := by
    rw [hq]
    exact eraseIdx_sublist ..
  refine ⟨?_, append_enters hwf' hs hrm ?_ (hcoalesced.sublist hsu) hd
    (fun e he => hnew e (hsu.subset he)) (.inr ⟨i, e.2, hen, hex, hq⟩) (by simp)⟩
  · rw [← queue_length]
    exact Nat.ne_of_lt hrm
  · rw [hq]
    exact map_eraseIdx hline i

end Enter

private theorem replaced_enters (hwf : s.Wf) (hline : l.map Prod.snd = s.queue)
    (hcoalesced : Coalesced s.queue) (hd : d.Exploratory = (d.kind == .probe)) {e : Placed}
    (he : l[i]? = some e) (heq : e.2.Same d = true) :
    Enters s d (l.modify i fun e => (e.1, d)) ({ coalesced := true },
      { s with descriptors := s.descriptors.replace (s.descriptors.slot i) d }) := by
  obtain ⟨hc, hkey⟩ := same_iff.mp heq
  have hen := queue_line hline he
  have ha := replace_admits hwf
    ((class_of_key (hcoalesced.kinds _ (mem_of_getElem? hen)) hd hkey).symm.trans hc)
    hen heq
  obtain ⟨hl, hm⟩ := modify_split (d := d) he
  have hs : s.queue = (l.take i).map Prod.snd ++ e.2 :: (l.drop (i + 1)).map Prod.snd := by
    rw [← hline]
    conv_lhs => rw [hl]
    rw [map_append, map_cons]
  have hq : ({ s with descriptors := s.descriptors.replace (s.descriptors.slot i) d } :
      ControlScheduler).queue =
      (l.take i).map Prod.snd ++ d :: (l.drop (i + 1)).map Prod.snd := by
    have hlt := lt_of_get he
    show (s.descriptors.replace (s.descriptors.slot i) d).contents = _
    rw [RingQueue.contents_replace hwf.ring (queue_lt hen)]
    show s.queue.set i d = _
    have hlen : ((l.take i).map Prod.snd).length = i := by
      rw [length_map, length_take, Nat.min_eq_left (Nat.le_of_lt hlt)]
    rw [hs, set_append_right _ _ (Nat.le_of_eq hlen), hlen, Nat.sub_self, set_cons_zero]
  rw [hs] at hcoalesced
  refine ⟨?_, ?_, ?_, ha.wf, ha.shape⟩
  · rw [hq, hm, map_append, map_cons]
  · rw [hq]
    refine .replaced hs hkey fun e' he' heq' => ?_
    exact hcoalesced.only hc he' (heq'.trans hkey.symm)
  · rw [hq]
    exact hcoalesced.replace hd hc hkey

/-- What `enqueue` does to the ring is what it does to the list. -/
theorem enterQueue_enters (stamp : ℕ) (hwf : s.Wf) (hline : l.map Prod.snd = s.queue)
    (hcoalesced : Coalesced s.queue) (hd : d.Exploratory = (d.kind == .probe)) :
    Enters s d (placeIn s.peerAdmissionLimit s.capacity stamp d l) (s.enterQueue d) := by
  have hlen : l.length = s.descriptors.count := by rw [← queue_length, ← hline, length_map]
  have hex : l.countP (fun e => e.2.Exploratory) = s.exploratory := by
    rw [hwf.counted, ← hline, countP_map]
    rfl
  have hs : l.countP (fun e => e.2.peer == d.peer) = s.countForPeer d.peer := by
    rw [countForPeer_eq, ← hline]
    unfold share
    rw [countP_map]
    rfl
  unfold placeIn enterQueue
  rw [hlen, hex, hs]
  by_cases hep : d.Exploratory = true
  · have hnew : ∀ e ∈ s.queue, e.Exploratory = false → ¬ e.SameKey d := by
      intro e he hc hkey
      rw [class_of_key (hcoalesced.kinds e he) hd hkey, hep] at hc
      cases hc
    rw [if_pos hep, if_pos hep]
    by_cases hm : controlExploratoryLimit ≤ s.exploratory
    · rw [if_pos (.inl hm), if_pos hm]
      exact .dropped hwf hline hcoalesced
    rw [if_neg hm]
    unfold place
    by_cases hfu : s.descriptors.count = s.capacity
    · rw [if_pos (.inr hfu), if_pos hfu, if_pos hep]
      exact .dropped hwf hline hcoalesced
    · rw [if_neg (not_or.mpr ⟨hm, hfu⟩), if_neg hfu]
      exact room_enters stamp hwf hline hcoalesced hd hnew hfu
  · rw [if_neg hep, if_neg hep]
    have hcopy : s.sameCritical d =
        (l.findIdx? fun e => e.2.Same d).map s.descriptors.slot := find_line hline _
    rw [hcopy]
    cases hf : l.findIdx? fun e => e.2.Same d with
    | some =>
      obtain ⟨e, he, heq⟩ := exists_of_findIdx? hf
      exact replaced_enters hwf hline hcoalesced hd he heq
    | none =>
      have hnew : ∀ e ∈ s.queue, e.Exploratory = false → ¬ e.SameKey d := by
        intro e he hc hkey
        rw [← hline] at he
        obtain ⟨e', he', rfl⟩ := mem_map.mp he
        have hno := findIdx?_eq_none_iff.mp hf e' he'
        rw [same_iff.mpr ⟨hc, hkey⟩] at hno
        cases hno
      dsimp only [Option.map_none]
      have ho : s.oldestExploratoryForPeer d.peer = (l.findIdx? fun e =>
          e.2.peer == d.peer && e.2.Exploratory).map s.descriptors.slot := find_line hline _
      have ha : s.oldestExploratory =
          (l.findIdx? fun e => e.2.Exploratory).map s.descriptors.slot := find_line hline _
      split
      · rw [ho]
        cases hfs : l.findIdx? fun e => e.2.peer == d.peer && e.2.Exploratory with
        | none => exact .dropped hwf hline hcoalesced
        | some =>
          obtain ⟨e, he, hp⟩ := exists_of_findIdx? hfs
          obtain ⟨hrm, hen⟩ := removed_enters stamp hwf hline hcoalesced hd hnew he
            (Bool.and_eq_true_iff.mp hp).2
          dsimp only [Option.map_some]
          unfold place
          rw [if_neg hrm]
          exact hen
      · unfold place
        by_cases hfu : s.descriptors.count = s.capacity
        · rw [if_pos hfu, if_pos hfu, if_neg hep, ha]
          cases hfs : l.findIdx? fun e => e.2.Exploratory with
          | none => exact .dropped hwf hline hcoalesced
          | some =>
            obtain ⟨_, he, hpr⟩ := exists_of_findIdx? hfs
            exact (removed_enters stamp hwf hline hcoalesced hd hnew he hpr).2
        · rw [if_neg hfu, if_neg hfu]
          exact room_enters stamp hwf hline hcoalesced hd hnew hfu

/-! ### Removal -/

private theorem drop_entry (h : q[i]? = some d) : q.drop i = d :: q.drop (i + 1) := by
  obtain ⟨hlt, rfl⟩ := List.getElem?_eq_some_iff.mp h
  exact drop_eq_getElem_cons hlt

/-- What a removal that has passed `offset` entries leaves of a queue. -/
def sifted (keep : ControlDescriptor → Bool) (offset : ℕ) (q : List ControlDescriptor) :
    List ControlDescriptor := q.take offset ++ (q.drop offset).filter keep

private theorem sifted_done (keep : ControlDescriptor → Bool) (h : q.length ≤ offset) :
    sifted keep offset q = q ∧ (q.drop offset).countP (fun e => !keep e) = 0 := by
  unfold sifted
  rw [drop_eq_nil_of_le h, take_of_length_le h]
  exact ⟨append_nil _, rfl⟩

/-- The loop keeps the entries before `offset` and filters those from there on. -/
theorem removeLoop_spec (keep : ControlDescriptor → Bool) {n : ℕ} (offset : ℕ) (hwf : s.Wf)
    (hn : s.queue.length ≤ offset + n) :
    (removeLoop keep n offset s).2.queue = sifted keep offset s.queue ∧
      (removeLoop keep n offset s).1 = (s.queue.drop offset).countP (fun e => !keep e) ∧
      (removeLoop keep n offset s).2.Wf ∧ Shape s (removeLoop keep n offset s).2 := by
  induction n generalizing s offset with
  | zero =>
    obtain ⟨hq, hc⟩ := sifted_done keep hn
    exact ⟨hq.symm, hc.symm, hwf, rfl, rfl⟩
  | succ n ih =>
    unfold removeLoop
    rw [← queue_length]
    split
    · next hle =>
      obtain ⟨hq, hc⟩ := sifted_done keep hle
      exact ⟨hq.symm, hc.symm, hwf, rfl, rfl⟩
    · next hlt =>
      have he : s.queue[offset]? = some (s.descriptors.get offset) := by
        rw [queue_length] at hlt
        unfold queue
        rw [RingQueue.contents_getElem?, if_pos (by omega)]
      have hdr := drop_entry he
      split
      · next hk =>
        obtain ⟨hq, hc, hr⟩ := ih (offset + 1) hwf (by omega)
        refine ⟨?_, ?_, hr⟩
        · rw [hq]
          unfold sifted
          rw [hdr, filter_cons_of_pos hk, take_add_one, he, append_assoc]
          rfl
        · rw [hc, hdr, countP_cons, hk]
          rfl
      · next hk =>
        obtain ⟨hq', hwf', hs⟩ := remove_queue hwf he
        have hf : (s.remove (s.descriptors.slot offset)).queue.length ≤ offset + n := by
          rw [hq', length_eraseIdx, if_pos (by omega)]
          omega
        obtain ⟨hq, hc, hwf'', hs'⟩ := ih offset hwf' hf
        have hr : (s.remove (s.descriptors.slot offset)).queue.drop offset =
            s.queue.drop (offset + 1) := by
          rw [hq', eraseIdx_eq_take_drop_succ, drop_append, length_take,
            Nat.min_eq_left (by omega), Nat.sub_self, drop_zero,
            drop_eq_nil_of_le (by rw [length_take]; omega), nil_append]
        have ht : (s.remove (s.descriptors.slot offset)).queue.take offset =
            s.queue.take offset := by
          rw [hq', eraseIdx_eq_take_drop_succ, take_append_of_le_length
            (by rw [length_take]; omega), take_take, Nat.min_self]
        refine ⟨?_, ?_, hwf'', hs.trans hs'⟩
        · dsimp only
          rw [hq]
          unfold sifted
          rw [hr, ht, hdr, filter_cons_of_neg hk]
        · dsimp only
          rw [hc, hr, hdr, countP_cons, if_pos (by simpa using hk)]

theorem removePeer_queue (hwf : s.Wf) (peer : PeerID) :
    (s.removePeer peer).2.queue = s.queue.filter (fun e => e.peer != peer) ∧
      (s.removePeer peer).1 = share s.queue peer ∧ (s.removePeer peer).2.Wf ∧
      Shape s (s.removePeer peer).2 := by
  obtain ⟨hq, hc, hr⟩ := removeLoop_spec (fun e => e.peer != peer) 0 hwf
    (Nat.le_of_eq (queue_length.trans (Nat.zero_add _).symm))
  refine ⟨hq, hc.trans ?_, hr⟩
  congr 1
  funext e
  exact Bool.not_not _

theorem updatePeers_queue (hwf : s.Wf) (peers : List PeerID) :
    (s.updatePeers peers).queue = s.queue.filter (fun e => peers.contains e.peer) ∧
      (s.updatePeers peers).Wf ∧ (s.updatePeers peers).capacity = s.capacity := by
  obtain ⟨hq, -, hwf', hs⟩ := removeLoop_spec (fun e => peers.contains e.peer)
    0 hwf (Nat.le_of_eq (queue_length.trans (Nat.zero_add _).symm))
  exact ⟨hq, ⟨hwf'.ring, hwf'.counted⟩, hs.capacity⟩

/-- `choose` returns the oldest entry of a peer. -/
theorem choose_oldest {globalReady : Bool} {ready : PeerID → Bool} {index : ℕ}
    (h : (s.choose globalReady ready).1 = some (d, index)) :
    ∃ i, index = s.descriptors.slot i ∧ s.queue[i]? = some d ∧
      ∀ j e, j < i → s.queue[j]? = some e → e.peer ≠ d.peer := by
  unfold choose at h
  split at h
  · cases h
  dsimp only at h
  split at h
  · next rank slot hc =>
    obtain ⟨hd, rfl⟩ := Prod.mk.inj (Option.some.inj h)
    obtain ⟨_, -, hr⟩ := exists_of_findSome?_eq_some hc
    split at hr
    · obtain ⟨_, hi, hpair⟩ := Option.map_eq_some_iff.mp hr
      obtain ⟨-, rfl⟩ := Prod.mk.inj hpair
      rw [RingQueue.find_eq] at hi
      obtain ⟨i, hf, rfl⟩ := Option.map_eq_some_iff.mp hi
      obtain ⟨hlt, hp, hb⟩ := findIdx?_eq_some_iff_getElem.mp hf
      have hen : s.queue[i]? = some s.descriptors.contents[i] := getElem?_eq_getElem hlt
      rw [slot_descriptor hen] at hd
      refine ⟨i, rfl, hd ▸ hen, fun j e hj he heq => ?_⟩
      obtain ⟨_, rfl⟩ := List.getElem?_eq_some_iff.mp he
      refine hb j hj ?_
      rw [← hd] at heq
      rw [beq_iff_eq] at hp ⊢
      exact heq.trans hp
    · cases hr
  · cases h

/-! ### Runs -/

end ControlScheduler

inductive RingCall where
  | call (c : SchedulerCall)
  | removePeer (peer : PeerID)
  | updatePeers (peers : List PeerID)

/-- The list view of a scheduler: its places, the number of calls of `enqueue` so far, and the
places that were popped. -/
structure View where
  line : List Placed := []
  clock : ℕ := 0
  left : List Placed := []

/-- After a call of `enqueue`, whose frame has the descriptor `d` if any. -/
def View.enqueued (v : View) (limit cap : ℕ) (d : Except EnqueueError ControlDescriptor) : View :=
  match d with
  | .error _ => { v with clock := v.clock + 1 }
  | .ok d => { v with line := placeIn limit cap v.clock d v.line, clock := v.clock + 1 }

/-- After the entry at a position was popped. -/
def View.popped (v : View) : Option ℕ → View
  | some i => { v with line := v.line.eraseIdx i, left := v.left ++ v.line[i]?.toList }
  | none => v

def View.filtered (v : View) (keep : ControlDescriptor → Bool) : View :=
  { v with line := v.line.filter fun e => keep e.2 }

namespace ControlScheduler
variable (P : Proto) (codec : Codec) (s : ControlScheduler)

def ringCall : RingCall → ControlScheduler
  | .call c => s.call P codec c
  | .removePeer peer => (s.removePeer peer).2
  | .updatePeers peers => s.updatePeers peers

/-- The position of a slot in the queue. -/
def position (index : ℕ) : Option ℕ :=
  (List.range s.descriptors.count).find? fun offset => s.descriptors.slot offset == index

def viewCall (v : View) : RingCall → View
  | .call (.enqueue peer frame) =>
    v.enqueued s.peerAdmissionLimit s.capacity (describe P codec peer frame)
  | .call (.choose _ _) => v
  | .call (.pop index) => v.popped (s.position index)
  | .removePeer peer => v.filtered fun e => e.peer != peer
  | .updatePeers peers => v.filtered fun e => peers.contains e.peer

def ringRun (s : ControlScheduler) (v : View) : List RingCall → ControlScheduler × View
  | [] => (s, v)
  | c :: calls => (s.ringCall P codec c).ringRun (s.viewCall P codec v c) calls

/-- A slot that is popped holds a descriptor. -/
def Valid : RingCall → Prop
  | .call (.pop index) => ∃ offset, offset < s.queue.length ∧ index = s.descriptors.slot offset
  | _ => True

def ValidRun (s : ControlScheduler) : List RingCall → Prop
  | [] => True
  | c :: calls => s.Valid c ∧ (s.ringCall P codec c).ValidRun calls

/-- A slot that is popped is one that `choose` returns. -/
def Chosen : RingCall → Prop
  | .call (.pop index) => ∃ globalReady ready d, (s.choose globalReady ready).1 = some (d, index)
  | _ => True

def ChosenRun (s : ControlScheduler) : List RingCall → Prop
  | [] => True
  | c :: calls => s.Chosen c ∧ (s.ringCall P codec c).ChosenRun calls

variable {P codec s} {v : View}
variable {c : RingCall} {i : ℕ}

/-- The list is the queue, and its places are in the order in which they were made. -/
structure Ring (s : ControlScheduler) (v : View) : Prop where
  wf : s.Wf
  line : v.line.map Prod.snd = s.queue
  coalesced : Coalesced s.queue
  ordered : Ordered v.clock v.line

theorem new_ring (capacity : ℤ) (peers : List PeerID) : Ring (new capacity peers) {} := by
  have hem : (new capacity peers).queue = [] := rfl
  have hfair : Fair 0 (new capacity peers) := new_fair capacity peers
  refine ⟨hfair.wf, hem.symm, ?_, ?_⟩
  · rw [hem]
    exact ⟨fun e he => absurd he not_mem_nil, .nil⟩
  · exact ⟨.nil, fun e he => absurd he not_mem_nil⟩

theorem Ring.filtered {t : ControlScheduler} {keep : ControlDescriptor → Bool} (h : Ring s v)
    (hwf : t.Wf) (hq : t.queue = s.queue.filter keep) : Ring t (v.filtered keep) := by
  refine ⟨hwf, ?_, ?_, h.ordered.sublist filter_sublist⟩
  · rw [hq, ← h.line, filter_map]
    rfl
  · rw [hq]
    exact h.coalesced.sublist filter_sublist

theorem position_slot (hwf : s.Wf) (hi : i < s.queue.length) :
    s.position (s.descriptors.slot i) = some i := by
  rw [queue_length] at hi
  have hle := hwf.ring.count
  unfold position
  rw [find?_range_eq_some]
  refine ⟨beq_self_eq_true _, mem_range.mpr hi, fun j hj => ?_⟩
  rw [Bool.not_eq_true', beq_eq_false_iff_ne]
  intro heq
  have := RingQueue.slot_inj (by omega) (by omega) heq
  omega

theorem Ring.enqueued (h : Ring s v) (peer : PeerID) (frame : Bytes) :
    Ring (s.enqueue P codec peer frame).2
      (v.enqueued s.peerAdmissionLimit s.capacity (describe P codec peer frame)) := by
  unfold enqueue
  cases hde : describe P codec peer frame with
  | error => exact ⟨h.wf, h.line, h.coalesced, h.ordered.later⟩
  | ok =>
    have he := enterQueue_enters v.clock h.wf h.line h.coalesced
      (describe_kind hde)
    exact ⟨he.wf, he.line, he.coalesced, (placeIn_cases ..).ordered h.ordered⟩

theorem Ring.popped (h : Ring s v) (hi : i < s.queue.length) :
    Ring (s.pop (s.descriptors.slot i)).2 (v.popped (s.position (s.descriptors.slot i))) := by
  obtain ⟨-, hq, hwf, -⟩ := pop_queue h.wf (getElem?_eq_getElem hi)
  rw [position_slot h.wf hi]
  refine ⟨hwf, ?_, ?_, h.ordered.sublist (eraseIdx_sublist ..)⟩
  · rw [hq]
    exact map_eraseIdx h.line i
  · rw [hq]
    exact h.coalesced.sublist (eraseIdx_sublist ..)

theorem Ring.call (h : Ring s v) (hv : s.Valid c) :
    Ring (s.ringCall P codec c) (s.viewCall P codec v c) := by
  cases c with
  | removePeer peer =>
    obtain ⟨hq, -, hwf, -⟩ := removePeer_queue h.wf peer
    exact h.filtered hwf hq
  | updatePeers peers =>
    obtain ⟨hq, hwf, -⟩ := updatePeers_queue h.wf peers
    exact h.filtered hwf hq
  | call c =>
    cases c with
    | enqueue peer frame => exact h.enqueued peer frame
    | choose globalReady ready =>
      obtain ⟨hq, hwf, -⟩ := choose_queue (s := s) globalReady ready
      refine ⟨hwf h.wf, h.line.trans hq.symm, ?_, h.ordered⟩
      show Coalesced (s.choose globalReady ready).2.queue
      rw [hq]
      exact h.coalesced
    | pop =>
      obtain ⟨_, hi, rfl⟩ := hv
      exact h.popped hi

theorem Ring.run {calls : List RingCall} (h : Ring s v) (hv : s.ValidRun P codec calls) :
    Ring (s.ringRun P codec v calls).1 (s.ringRun P codec v calls).2 := by
  induction calls generalizing s v with
  | nil => exact h
  | cons _ _ ih => exact ih (h.call hv.1) hv.2

/-- Each place that a peer still has was made after those it had before and that were popped. -/
structure Departed (v : View) : Prop where
  ahead : ∀ a ∈ v.left, ∀ e ∈ v.line, e.2.peer = a.2.peer → a.1 < e.1
  past : ∀ a ∈ v.left, a.1 < v.clock
  order : v.left.Pairwise fun a b => a.2.peer = b.2.peer → a.1 < b.1

theorem Departed.shrink {line : List Placed} (h : Departed v)
    (hsu : ∀ e ∈ line, ∃ e' ∈ v.line, e'.1 = e.1 ∧ e'.2.peer = e.2.peer) :
    Departed { v with line := line } := by
  refine ⟨fun a ha e he hp => ?_, h.past, h.order⟩
  obtain ⟨e', he', hs, heq⟩ := hsu e he
  rw [← hs]
  exact h.ahead a ha e' he' (heq.trans hp)

theorem Departed.enqueued (h : Departed v) (limit cap : ℕ)
    (d : Except EnqueueError ControlDescriptor) : Departed (v.enqueued limit cap d) := by
  have hpast : ∀ a ∈ v.left, a.1 < v.clock + 1 := fun a ha => Nat.lt_succ_of_lt (h.past a ha)
  cases d with
  | error => exact ⟨h.ahead, hpast, h.order⟩
  | ok =>
    refine ⟨fun a ha e he hp => ?_, hpast, h.order⟩
    rcases (placeIn_cases ..).mem he with rfl | ⟨e', he', hs, heq⟩
    · exact h.past a ha
    · rw [← hs]
      exact h.ahead a ha e' he' (heq.trans hp)

theorem Departed.popped (h : Departed v) (ho : Ordered v.clock v.line)
    {x : Placed} (hx : v.line[i]? = some x)
    (holde : ∀ j e, j < i → v.line[j]? = some e → e.2.peer ≠ x.2.peer) :
    Departed (v.popped (some i)) := by
  have hxmem := mem_of_getElem? hx
  have hl : (v.popped (some i)).left = v.left ++ [x] := by
    show v.left ++ v.line[i]?.toList = v.left ++ [x]
    rw [hx]
    rfl
  have hs : ∀ e ∈ v.line.eraseIdx i, e ∈ v.line := fun e he => mem_of_mem_eraseIdx he
  refine ⟨fun a ha e he hp => ?_, fun a ha => ?_, ?_⟩
  · rw [hl] at ha
    rcases mem_append.mp ha with ha | ha
    · exact h.ahead a ha e (hs e he) hp
    obtain rfl := mem_singleton.mp ha
    obtain ⟨j, hj⟩ := mem_iff_getElem?.mp he
    replace hj : (v.line.eraseIdx i)[j]? = some e := hj
    rw [getElem?_eraseIdx] at hj
    split at hj
    · next hlt => exact absurd hp (holde j e hlt hj)
    rename_i hge
    obtain ⟨hi, hix⟩ := List.getElem?_eq_some_iff.mp hx
    obtain ⟨hjl, hje⟩ := List.getElem?_eq_some_iff.mp hj
    rw [← hix, ← hje]
    exact pairwise_iff_getElem.mp ho.sorted i (j + 1) hi hjl (by omega)
  · rw [hl] at ha
    rcases mem_append.mp ha with ha | ha
    · exact h.past a ha
    · obtain rfl := mem_singleton.mp ha
      exact ho.below a hxmem
  · rw [hl, pairwise_append]
    refine ⟨h.order, pairwise_singleton .., fun a ha b hb hp => ?_⟩
    rw [mem_singleton.mp hb] at hp ⊢
    exact h.ahead a ha x hxmem hp.symm

theorem Departed.call (h : Departed v) (hr : Ring s v) (hc : s.Chosen c) :
    Departed (s.viewCall P codec v c) := by
  cases c with
  | removePeer | updatePeers =>
    exact h.shrink fun e he => ⟨e, mem_of_mem_filter he, rfl, rfl⟩
  | call c =>
    cases c with
    | enqueue => exact h.enqueued ..
    | choose => exact h
    | pop =>
      obtain ⟨_, _, _, hchoo⟩ := hc
      obtain ⟨i, rfl, hi, holde⟩ := choose_oldest hchoo
      show Departed (v.popped (s.position (s.descriptors.slot i)))
      rw [position_slot hr.wf (lt_of_get hi)]
      rw [← hr.line, getElem?_map] at hi
      obtain ⟨_, hx, rfl⟩ := Option.map_eq_some_iff.mp hi
      exact h.popped hr.ordered hx fun j e hj he => holde j e.2 hj (queue_line hr.line he)

theorem Chosen.valid (h : s.Chosen c) : s.Valid c := by
  cases c with
  | removePeer | updatePeers => trivial
  | call c =>
    cases c with
    | enqueue | choose => trivial
    | pop =>
      obtain ⟨_, _, _, hc⟩ := h
      obtain ⟨i, rfl, hi, -⟩ := choose_oldest hc
      exact ⟨i, (lt_of_get hi), rfl⟩

theorem Departed.run {calls : List RingCall} (h : Departed v) (hr : Ring s v)
    (hc : s.ChosenRun P codec calls) : Departed (s.ringRun P codec v calls).2 := by
  induction calls generalizing s v with
  | nil => exact h
  | cons _ _ ih =>
    exact ih (h.call hr hc.1) (hr.call (Chosen.valid hc.1)) hc.2

/-- What each call does to the queue of a scheduler, as a list. -/
structure IsList (P : Proto) (codec : Codec) (s : ControlScheduler) : Prop where
  exploratory : s.exploratory = s.queue.countP ControlDescriptor.Exploratory
  enqueue : ∀ peer frame d, describe P codec peer frame = .ok d →
    ∃ outcome, (s.enqueue P codec peer frame).1 = .ok outcome ∧
      Enqueued d s.queue outcome (s.enqueue P codec peer frame).2.queue
  malformed : ∀ peer frame e, describe P codec peer frame = .error e →
    s.enqueue P codec peer frame = (.error e, s)
  pop : ∀ i d, s.queue[i]? = some d → (s.pop (s.descriptors.slot i)).1 = d ∧
    (s.pop (s.descriptors.slot i)).2.queue = s.queue.eraseIdx i
  remove : ∀ i d, s.queue[i]? = some d →
    (s.remove (s.descriptors.slot i)).queue = s.queue.eraseIdx i
  removePeer : ∀ peer, (s.removePeer peer).2.queue = s.queue.filter fun e => e.peer != peer
  updatePeers : ∀ peers, (s.updatePeers peers).queue =
    s.queue.filter fun e => peers.contains e.peer
  choose : ∀ globalReady ready, (s.choose globalReady ready).2.queue = s.queue ∧
    ∀ d index, (s.choose globalReady ready).1 = some (d, index) →
      ∃ i, index = s.descriptors.slot i ∧ s.queue[i]? = some d ∧
        ∀ j e, j < i → s.queue[j]? = some e → e.peer ≠ d.peer

theorem Ring.isList (h : Ring s v) : IsList P codec s := by
  refine ⟨h.wf.counted, fun peer frame d hd => ?_, fun peer frame e he => ?_, fun i d hi => ?_,
    fun i d hi => (remove_queue h.wf hi).1, fun peer => (removePeer_queue h.wf peer).1,
    fun peers => (updatePeers_queue h.wf peers).1, fun globalReady ready => ?_⟩
  · refine ⟨(s.enterQueue d).1, ?_, ?_⟩
    · unfold enqueue
      rw [hd]
    · unfold enqueue
      rw [hd]
      exact (enterQueue_enters 0 h.wf h.line h.coalesced (describe_kind hd)).enqueued
  · unfold enqueue
    rw [he]
  · obtain ⟨hp, hq, -⟩ := pop_queue h.wf hi
    exact ⟨hp, hq⟩
  · exact ⟨(choose_queue globalReady ready).1, fun d index hd => choose_oldest hd⟩

/-- The CONTROL ring is an ordered list. After every run each call changes the queue as a list;
the entries are in the order in which their places were made; and if what is popped is what
`choose` returned, the entries of a peer leave in that order. -/
theorem ring_isList (capacity : ℤ) (peers : List PeerID) {calls : List RingCall}
    (hvalid : (new capacity peers).ValidRun P codec calls) :
    IsList P codec ((new capacity peers).ringRun P codec {} calls).1 ∧
    ((new capacity peers).ringRun P codec {} calls).2.line.map Prod.snd =
      ((new capacity peers).ringRun P codec {} calls).1.queue ∧
    (((new capacity peers).ringRun P codec {} calls).2.line.Pairwise fun a b => a.1 < b.1) ∧
    ((new capacity peers).ChosenRun P codec calls →
      ((new capacity peers).ringRun P codec {} calls).2.left.Pairwise
        fun a b => a.2.peer = b.2.peer → a.1 < b.1) := by
  have hring := (new_ring capacity peers).run hvalid
  refine ⟨hring.isList, hring.line, hring.ordered.sorted, fun hcho => ?_⟩
  have hnone : Departed {} := ⟨fun a ha => absurd ha not_mem_nil,
    fun a ha => absurd ha not_mem_nil, .nil⟩
  exact (hnone.run (new_ring capacity peers) hcho).order

/-- Two frames of one peer and one of another; the oldest is sent and the other peer removed. -/
def sampleRingCalls : List RingCall :=
  [.call (.enqueue 0 (sampleFrame 2 (.ping 1))), .call (.enqueue 1 (sampleFrame 1 .mtuProbe)),
    .call (.enqueue 0 (sampleFrame 3 (.pong 1))), .call (.pop 0), .removePeer 1]

theorem ring_isList_sample :
    (new 4 [0, 1]).ChosenRun Protobuf.proto sampleCodec sampleRingCalls ∧
    ((new 4 [0, 1]).ringRun Protobuf.proto sampleCodec {} sampleRingCalls).2.line.map Prod.fst =
      [2] ∧
    ((new 4 [0, 1]).ringRun Protobuf.proto sampleCodec {} sampleRingCalls).2.left.map Prod.fst =
      [0] ∧
    IsList Protobuf.proto sampleCodec
      ((new 4 [0, 1]).ringRun Protobuf.proto sampleCodec {} sampleRingCalls).1 := by
  have hpop : ((((new 4 [0, 1]).ringRun Protobuf.proto sampleCodec {}
      (sampleRingCalls.take 3)).1).choose true fun _ => true).1 =
      some (⟨0, .critical, .ping, 2, 0, 1, some ⟨2, 0, 1, none, some (.ping 1)⟩, 0⟩, 0) := by
    decide +kernel
  have hval : (new 4 [0, 1]).ValidRun Protobuf.proto sampleCodec sampleRingCalls :=
    ⟨trivial, trivial, trivial, ⟨0, by decide +kernel, by decide +kernel⟩, trivial, trivial⟩
  refine ⟨⟨trivial, trivial, trivial, ⟨true, fun _ => true, _, hpop⟩, trivial, trivial⟩,
    by decide +kernel, by decide +kernel, (ring_isList 4 [0, 1] hval).1⟩

end ControlScheduler
end WgFrag.Shim
