import WgFrag.Data.Arrival
import WgFrag.Data.Shipment
import Mathlib.Data.List.Sort

/-! A channel may lose, repeat, reorder and delay the payloads of a sender. The receiver delivers
only packets that were sent, none of them twice, and those of a lane in their order. -/
namespace WgFrag.Data.Reassembly
open WgFrag.Lib Reassembler Fragment List

variable {r : Reassembler} {shipments : List Shipment} {sh : Shipment} {record : Record}
  {packets : List Packet}
variable {s : Slot}

/-! ### Slots of sent packets -/

/-- What the slot holds are fragments of the sent packet of its key. -/
structure Carries (sh : Shipment) (s : Slot) : Prop where
  key : s.key = keyOf 0 sh.metadata
  count : s.count.toNat = sh.fragments.length
  piece : ∀ (k : ℕ) x, s.frags[k]?.join = some x → ∃ record, sh.fragments[k]? = some record ∧
    x = extent record ∧ s.bytes x = record.data

/-- Every slot in use is of a sent packet. -/
def Carried (shipments : List Shipment) (r : Reassembler) : Prop :=
  ∀ i, (r.slot i).state ≠ .free → ∃ sh ∈ shipments, Carries sh (r.slot i)

theorem Carries.alike {s' : Slot} (h : Carries sh s) (ha : Alike s s') : Carries sh s' := by
  refine ⟨ha.key.trans h.key, ?_, ?_⟩
  · rw [ha.count]
    exact h.count
  · unfold Slot.bytes
    rw [ha.frags, ha.buf]
    exact h.piece

theorem Carries.store {c : Config} (h : Carries sh s)
    (hc : Cuts sh.data sh.metadata sh.fragments) (hr : record ∈ sh.fragments)
    (hfr : s.frags.length = s.count.toNat) (hb : s.buf.length = c.maxPacketSize)
    (hf : Fits c s record) : Carries sh (s.store record) := by
  obtain ⟨how, hot⟩ := store_bytes hb hf
  refine ⟨h.key, h.count, fun k x hx => ?_⟩
  rw [store_frag hfr hf] at hx
  split at hx
  · next hk =>
    obtain rfl := Option.some.inj hx
    obtain ⟨n, hn⟩ := mem_iff_getElem?.mp hr
    have hi := hc.index n record hn
    exact ⟨record, by rw [← hk, hi]; exact hn, rfl, how⟩
  · obtain ⟨other, ho, he, hby⟩ := h.piece k x hx
    exact ⟨other, ho, he, (hot k x hx).trans hby⟩

private theorem carries_started (s : Slot) (now : Time) (born : UInt64)
    (hc : Cuts sh.data sh.metadata sh.fragments) (hr : record ∈ sh.fragments) :
    Carries sh (s.started now (keyOf 0 sh.metadata) record.header.fragmentCount born) := by
  refine ⟨rfl, hc.total record hr, fun k x hx => ?_⟩
  rw [frags_started] at hx
  cases hx

theorem Carries.data {c : Config} (h : Carries sh s)
    (hc : Cuts sh.data sh.metadata sh.fragments) (hok : s.Ok c)
    (hs : s.state = .completed) : s.buf.take s.packetLen = sh.data := by
  have hlen := hok.frags (by simp [hs])
  have hfu := any_eq_false.mp (hok.full hs)
  have ha : ∀ (k : ℕ) record, sh.fragments[k]? = some record →
      s.frags[k]?.join = some (extent record) ∧ s.bytes (extent record) = record.data := by
    intro k record hk
    have hlt := lt_of_get hk
    have hk' : k < s.frags.length := by
      rw [hlen, h.count]
      exact hlt
    have hso : s.frags[k] ≠ none := by simpa using hfu _ (getElem_mem hk')
    obtain ⟨x, hf⟩ := Option.ne_none_iff_exists'.mp hso
    have hx : s.frags[k]?.join = some x := by
      rw [getElem?_eq_getElem hk', hf]
      rfl
    obtain ⟨_, ho, rfl, hb⟩ := h.piece k x hx
    obtain rfl := Option.mem_unique hk ho
    exact ⟨hx, hb⟩
  obtain ⟨-, hw, hda⟩ := contiguous_of_all hc h.count (hlen.trans h.count) ha
  rw [Option.mem_unique (hok.packet hs) hw]
  exact hda

/-- The packets are cut, and a key is of one of them only. -/
structure Distinct (shipments : List Shipment) : Prop where
  cuts : ∀ sh ∈ shipments, Cuts sh.data sh.metadata sh.fragments
  unique : ∀ sh ∈ shipments, ∀ sh' ∈ shipments,
    keyOf 0 sh.metadata = keyOf 0 sh'.metadata → sh = sh'

section Calls
variable (hd : Distinct shipments) (hwf : r.Wf) (h : Carried shipments r)
include hd hwf h

/-- A call that brings nothing else than a fragment of a sent packet. -/
theorem call_carried {c : Call} (hc : ∀ now key record, c = .accept now key record →
    ∃ sh ∈ shipments, key = keyOf 0 sh.metadata ∧ record ∈ sh.fragments) :
    Carried shipments (r.call c).2 := by
  intro i hs
  have hi : i < r.slots.length := by
    have hlt := lt_of_state hs
    have hse := call_steps hwf c
    rw [(Steps.wf hse hwf).length, (Steps.config hse).1] at hlt
    rw [hwf.length]
    exact hlt
  have hok := hwf.each i hi
  have hfi := call_fills hwf c hs
  generalize (r.call c).1 = reply at hfi
  cases hfi with
  | keep hu ha =>
    obtain ⟨sh, hsh, hca⟩ := h i hu
    exact ⟨sh, hsh, hca.alike ha⟩
  | put now key record _ _ _ hb hf ha =>
    obtain ⟨sh, hsh, rfl, hr⟩ := hc now key record rfl
    refine ⟨sh, hsh, Carries.alike ?_ ha⟩
    rcases hb with ⟨rfl, hkey, -⟩ | ⟨born, rfl⟩
    · have hu : (r.slot i).state ≠ .free := by simp [hf.assembling]
      obtain ⟨sh', hsh', hca⟩ := h i hu
      obtain rfl := hd.unique sh' hsh' sh hsh (hca.key.symm.trans hkey)
      exact hca.store (hd.cuts sh' hsh') hr (hok.frags hu) hok.buf hf
    · have hst := carries_started (r.slot i) now born (hd.cuts sh hsh) hr
      exact hst.store (hd.cuts sh hsh) hr (by simp [Slot.started]) hok.buf hf

theorem releases_carried (packets : List Packet) :
    Carried shipments (r.run (packets.map fun p => .release p.handle)) := by
  induction packets generalizing r with
  | nil => exact h
  | cons p _ ih =>
    exact ih (Steps.wf (call_steps hwf (.release p.handle)) hwf)
      (call_carried hd hwf h (by simp))

end Calls

theorem Owned.releases {rest : List Packet} (h : Owned (packets ++ rest) r) :
    Owned rest (r.run (packets.map fun p => .release p.handle)) := by
  induction packets generalizing r with
  | nil => exact h
  | cons _ _ ih => exact ih h.release.2.1

theorem Owned.sent {p : Packet} (h : Owned packets r) (hd : Distinct shipments)
    (hc : Carried shipments r) (hp : p ∈ packets) :
    (p.key, r.data p) ∈ shipments.map Shipment.entry := by
  have hh := h.held p hp
  have hu : (r.slot p.handle.index).state ≠ .free := by simp [hh.state]
  obtain ⟨sh, hsh, hcarr⟩ := hc _ hu
  have hda := hcarr.data (hd.cuts sh hsh) (h.wf.each _ (lt_of_state hu)) hh.state
  rw [hh.length] at hda
  rw [mem_map]
  refine ⟨sh, hsh, Prod.ext ?_ hda.symm⟩
  exact hcarr.key.symm.trans hh.key

end WgFrag.Data.Reassembly

namespace WgFrag.Data
open WgFrag.Lib Limits List
open Fragment (Metadata Cuts)
open Packetizer (Packed)
open Reassembly (Packet Owned Carried Distinct keyOf)
open Reorder (Advances)

variable {r r' : Receiver} {shipments : List Shipment} {session : UInt16} {sink : Sink}
  {hand : List Packet} {now : Time}

/-! ### Sequences as numbers -/

/-- While fewer than half the sequences are in use, packets come in the order of their numbers. -/
theorem Reorder.Advances.natural {next next' : UInt32} {given : List Packet} {n : ℕ}
    (h : Advances next given next') (hn : n < 2147483648) (hnx : next.toNat ≤ n)
    (hg : ∀ p ∈ given, p.key.laneSequence.toNat < n) :
    next.toNat ≤ next'.toNat ∧ next'.toNat ≤ n ∧
      (∀ p ∈ given, next.toNat ≤ p.key.laneSequence.toNat ∧
        p.key.laneSequence.toNat < next'.toNat) ∧
      given.Pairwise fun p q => p.key.laneSequence.toNat < q.key.laneSequence.toNat := by
  induction given generalizing next with
  | nil =>
    obtain rfl : next' = next := h
    exact ⟨Nat.le_refl _, hnx, by simp, .nil⟩
  | cons p given ih =>
    obtain ⟨hne, hr⟩ := h
    have hp := hg p (mem_cons_self ..)
    have hle : next.toNat ≤ p.key.laneSequence.toNat := by
      unfold Reorder.distance at hne
      rw [UInt32.toNat_sub] at hne
      omega
    have hsucc : (p.key.laneSequence + 1).toNat = p.key.laneSequence.toNat + 1 := by
      rw [UInt32.toNat_add, show (1 : UInt32).toNat = 1 from rfl]
      omega
    obtain ⟨_, hbo, hb, hs⟩ := ih hr (by omega)
      fun q hq => hg q (mem_cons_of_mem _ hq)
    refine ⟨by omega, hbo, ?_, pairwise_cons.mpr ⟨?_, hs⟩⟩
    · intro q hq
      rcases mem_cons.mp hq with rfl | hq
      · exact ⟨hle, by omega⟩
      · have := hb q hq
        omega
    · intro q hq
      have := hb q hq
      omega

section Numbers
variable (hnumbered : Numbered session shipments)
  (hfew : ∀ lane, laneCount shipments lane < 2147483648)
include hnumbered hfew

/-- The number of a packet is that of the packets sent before it on its lane. -/
theorem Numbered.get {i : ℕ} {sh : Shipment} (hi : shipments[i]? = some sh) :
    sh.metadata.laneSequence.toNat = laneCount (shipments.take i) sh.metadata.laneID ∧
      laneCount (shipments.take (i + 1)) sh.metadata.laneID =
        laneCount (shipments.take i) sh.metadata.laneID + 1 := by
  obtain ⟨_, hg⟩ := List.getElem?_eq_some_iff.mp hi
  have hs : shipments = shipments.take i ++ sh :: shipments.drop (i + 1) := by
    rw [← hg, getElem_cons_drop, take_append_drop]
  have hle : laneCount (shipments.take i) sh.metadata.laneID ≤
      laneCount shipments sh.metadata.laneID := (take_sublist ..).countP_le
  have hb := hfew sh.metadata.laneID
  constructor
  · rw [hnumbered.sequence _ _ _ hs]
    unfold nextSequences
    rw [UInt32.toNat_ofNat_of_lt' (by show _ < 4294967296; omega)]
  · unfold laneCount
    rw [take_add_one, hi, countP_append]
    simp

theorem Numbered.sorted : shipments.Pairwise fun a b => a.metadata.laneID = b.metadata.laneID →
    a.metadata.laneSequence.toNat < b.metadata.laneSequence.toNat := by
  rw [pairwise_iff_getElem]
  intro i j hi hj hij hl
  obtain ⟨_, _⟩ := hnumbered.get hfew (getElem?_eq_getElem hi)
  obtain ⟨hb, -⟩ := hnumbered.get hfew (getElem?_eq_getElem hj)
  have hmono : laneCount (shipments.take (i + 1)) shipments[i].metadata.laneID ≤
      laneCount (shipments.take j) shipments[i].metadata.laneID :=
    (take_sublist_take_left hij).countP_le
  rw [← hl] at hb
  omega

theorem Numbered.sequence_lt {sh : Shipment} (h : sh ∈ shipments) :
    sh.metadata.laneSequence.toNat < laneCount shipments sh.metadata.laneID := by
  obtain ⟨i, hi⟩ := mem_iff_getElem?.mp h
  obtain ⟨_, _⟩ := hnumbered.get hfew hi
  have hle : laneCount (shipments.take (i + 1)) sh.metadata.laneID ≤
      laneCount shipments sh.metadata.laneID := (take_sublist ..).countP_le
  omega

theorem Numbered.distinct : Distinct shipments := by
  refine ⟨hnumbered.cuts, fun a ha b hb hkey => ?_⟩
  have hl : a.metadata.laneID = b.metadata.laneID := congrArg Key.laneID hkey
  have hs : a.metadata.laneSequence = b.metadata.laneSequence := congrArg Key.laneSequence hkey
  obtain ⟨i, hi, rfl⟩ := getElem_of_mem ha
  obtain ⟨j, hj, rfl⟩ := getElem_of_mem hb
  have hso := pairwise_iff_getElem.mp (hnumbered.sorted hfew)
  rcases Nat.lt_trichotomy i j with hij | hij | hij
  · have := hso i j hi hj hij hl
    rw [hs] at this
    omega
  · subst hij
    rfl
  · have := hso j i hj hi hij hl.symm
    rw [hs] at this
    omega

end Numbers

/-! ### What a receiver of sent packets upholds -/

/-- Of two packets of a lane, the first has the smaller number. -/
def Before (a b : Key × Bytes) : Prop :=
  a.1.laneID = b.1.laneID → a.1.laneSequence.toNat < b.1.laneSequence.toNat

/-- The receiver holds nothing but sent packets, and has delivered those of a lane in order. -/
structure Faithful (shipments : List Shipment) (hand : List Packet) (r : Receiver) : Prop where
  owned : Owned (hand ++ r.waiting) r.reassembly
  carried : Carried shipments r.reassembly
  lanes : ∀ lane, ∀ p ∈ (r.reorders lane).pending, p.key.laneID = lane
  next : ∀ lane, (r.reorders lane).next.toNat ≤ laneCount shipments lane
  log : ∀ entry ∈ r.log, entry ∈ shipments.map Shipment.entry
  below : ∀ entry ∈ r.log,
    entry.1.laneSequence.toNat < (r.reorders entry.1.laneID).next.toNat
  sorted : r.log.Pairwise Before

/-- The log stays in order when what a lane delivers comes after it. -/
theorem sorted_append {log added : List (Key × Bytes)} {lane : UInt8} {next : ℕ}
    (hs : log.Pairwise Before) (ha : added.Pairwise Before)
    (hl : ∀ b ∈ added, b.1.laneID = lane ∧ next ≤ b.1.laneSequence.toNat)
    (hb : ∀ a ∈ log, a.1.laneID = lane → a.1.laneSequence.toNat < next) :
    (log ++ added).Pairwise Before := by
  rw [pairwise_append]
  refine ⟨hs, ha, ?_⟩
  intro a hal b hbl heq
  obtain ⟨hlane, hle⟩ := hl b hbl
  exact Nat.lt_of_lt_of_le (hb a hal (heq.trans hlane)) hle

section Faithful
variable (hnumbered : Numbered session shipments)
  (hfew : ∀ lane, laneCount shipments lane < 2147483648)
include hnumbered hfew

theorem Faithful.number {entry : Key × Bytes} (h : entry ∈ shipments.map Shipment.entry) :
    entry.1.laneSequence.toNat < laneCount shipments entry.1.laneID := by
  obtain ⟨_, hsh, rfl⟩ := mem_map.mp h
  exact hnumbered.sequence_lt hfew hsh

section Pass
variable {lane : UInt8} {q : Reorder.Reorderer} {taken given : List Packet}
  (h : Faithful shipments (taken ++ hand) r)
  (hpm : (given ++ q.pending).Perm (taken ++ (r.reorders lane).pending))
include h hpm

/-- What a lane gives away was sent. -/
theorem Faithful.given_sent {p : Packet} (hp : p ∈ given) :
    (p.key, r.reassembly.data p) ∈ shipments.map Shipment.entry := by
  refine h.owned.sent (hnumbered.distinct hfew) h.carried ?_
  rcases mem_append.mp (hpm.mem_iff.mp (mem_append_left _ hp)) with hp | hp
  · simp [hp]
  · simp [mem_waiting.mpr ⟨lane, hp⟩]

omit hnumbered hfew in
theorem Faithful.given_lane (ht : ∀ p ∈ taken, p.key.laneID = lane) {p : Packet}
    (hp : p ∈ given ++ q.pending) : p.key.laneID = lane := by
  rcases mem_append.mp (hpm.mem_iff.mp hp) with hp | hp
  · exact ht p hp
  · exact h.lanes lane p hp

/-- The packets that a lane gives away have the next numbers, in order. -/
theorem Faithful.given_next (ht : ∀ p ∈ taken, p.key.laneID = lane)
    (had : Advances (r.reorders lane).next given q.next) :
    (r.reorders lane).next.toNat ≤ q.next.toNat ∧ q.next.toNat ≤ laneCount shipments lane ∧
      (∀ p ∈ given, (r.reorders lane).next.toNat ≤ p.key.laneSequence.toNat ∧
        p.key.laneSequence.toNat < q.next.toNat) ∧
      given.Pairwise fun p q => p.key.laneSequence.toNat < q.key.laneSequence.toNat := by
  apply had.natural (hfew lane) (h.next lane)
  intro p hp
  have hn := Faithful.number hnumbered hfew (h.given_sent hnumbered hfew hpm hp)
  rw [h.given_lane hpm ht (mem_append_left _ hp)] at hn
  exact hn

end Pass

theorem Faithful.pass {r1 : Receiver} {lane : UInt8} {q : Reorder.Reorderer}
    {taken given : List Packet} {err : Option ReceiverError}
    (h : Faithful shipments (taken ++ hand) r) (ht : ∀ p ∈ taken, p.key.laneID = lane)
    (hpm : (given ++ q.pending).Perm (taken ++ (r.reorders lane).pending))
    (had : Advances (r.reorders lane).next given q.next)
    (hbo : Booked (r.setLane lane q) r1) (hde : Delivered sink given none r1 err r') :
    Faithful shipments hand r' := by
  have hd := hnumbered.distinct hfew
  obtain ⟨hmono, hbu, hbt, hi⟩ := h.given_next hnumbered hfew hpm ht had
  have ho := h.owned.perm (moved_setLane hpm)
  obtain ⟨_, _, rfl⟩ := hbo
  have hr : r'.reorders = Function.update r.reorders lane q := hde.kept.reorders
  have hnx : ∀ l, (r.reorders l).next.toNat ≤ (r'.reorders l).next.toNat := by
    intro l
    rw [hr]
    by_cases hl : l = lane
    · rw [hl, Function.update_self]
      exact hmono
    · rw [Function.update_of_ne hl]
  obtain ⟨added, hlo, hsu, -⟩ := hde.log
  have hen : added.Sublist (given.map fun p => (p.key, r.reassembly.data p)) :=
    hsu.trans filter_sublist
  have hne : ∀ entry ∈ added, ∃ p ∈ given, p.key.laneID = lane ∧
      entry = (p.key, r.reassembly.data p) := by
    intro entry he
    obtain ⟨p, hp, rfl⟩ := mem_map.mp (hen.subset he)
    exact ⟨p, hp, h.given_lane hpm ht (mem_append_left _ hp), rfl⟩
  refine ⟨?_, ?_, ?_, ?_, ?_, ?_, ?_⟩
  · rw [hde.released, hde.kept.waiting]
    rw [append_assoc] at ho
    exact ho.releases
  · rw [hde.released]
    exact Reassembly.releases_carried hd h.owned.wf h.carried _
  · intro l p hp
    rw [hr] at hp
    by_cases hl : l = lane
    · rw [hl, Function.update_self] at hp
      rw [hl]
      exact h.given_lane hpm ht (mem_append_right _ hp)
    · rw [Function.update_of_ne hl] at hp
      exact h.lanes l p hp
  · intro l
    rw [hr]
    by_cases hl : l = lane
    · rw [hl, Function.update_self]
      exact hbu
    · rw [Function.update_of_ne hl]
      exact h.next l
  · intro entry he
    rw [hlo] at he
    rcases mem_append.mp he with he | he
    · exact h.log entry he
    · obtain ⟨p, hp, -, rfl⟩ := hne entry he
      exact h.given_sent hnumbered hfew hpm hp
  · intro entry he
    rw [hlo] at he
    rcases mem_append.mp he with he | he
    · exact Nat.lt_of_lt_of_le (h.below entry he) (hnx _)
    · obtain ⟨p, hp, hl, rfl⟩ := hne entry he
      rw [hr]
      rw [hl, Function.update_self]
      exact (hbt p hp).2
  · rw [hlo]
    apply sorted_append h.sorted
    · apply List.Pairwise.sublist hen
      rw [pairwise_map]
      refine hi.imp ?_
      intro a b hlt _
      exact hlt
    · intro entry he
      obtain ⟨p, hp, hl, rfl⟩ := hne entry he
      exact ⟨hl, (hbt p hp).1⟩
    · intro entry he hl
      rw [← hl]
      exact h.below entry he

theorem Faithful.event {hand' : List Packet} (h : Faithful shipments hand r)
    (he : Event sink (hand, r) (hand', r')) : Faithful shipments hand' r' := by
  have hd := hnumbered.distinct hfew
  cases he with
  | book hb =>
    obtain ⟨_, _, rfl⟩ := hb
    exact ⟨h.owned, h.carried, h.lanes, h.next, h.log, h.below, h.sorted⟩
  | drop p =>
    have hc : Carried shipments (r.reassembly.release p.handle).2 :=
      Reassembly.call_carried (c := .release p.handle) hd h.owned.wf h.carried (by simp)
    exact ⟨h.owned.release.2.1, hc, h.lanes, h.next, h.log, h.below, h.sorted⟩
  | @pass _ _ _ _ _ _ _ _ _ ht hpm ha hb hde =>
    exact h.pass hnumbered hfew ht hpm ha hb hde

theorem Faithful.events {hand' : List Packet} (h : Faithful shipments hand r)
    (he : Relation.ReflTransGen (Event sink) (hand, r) (hand', r')) :
    Faithful shipments hand' r' := by
  have ha : ∀ s t : List Packet × Receiver, Relation.ReflTransGen (Event sink) s t →
      Faithful shipments s.1 s.2 → Faithful shipments t.1 t.2 := by
    intro s t hst hs
    induction hst with
    | refl => exact hs
    | tail _ hev ih => exact ih.event hnumbered hfew hev
  exact ha _ _ he h

theorem Faithful.arrives {record : Record} (h : Faithful shipments [] r)
    (hr : record ∈ shipments.flatMap Shipment.fragments)
    (ha : Arrives sink now record r r') : Faithful shipments [] r' := by
  have hd := hnumbered.distinct hfew
  obtain ⟨sh, hsh, hmem⟩ := mem_flatMap.mp hr
  have hc : Carried shipments (r.stored now record).reassembly := by
    refine Reassembly.call_carried (c := .accept now record.key record) hd h.owned.wf h.carried ?_
    rintro _ _ _ ⟨⟩
    exact ⟨sh, hsh, Reassembly.cuts_key (hd.cuts sh hsh) hmem, hmem⟩
  cases ha with
  | foreign => exact ⟨h.owned, h.carried, h.lanes, h.next, h.log, h.below, h.sorted⟩
  | stored _ ho =>
    rcases h.owned.accept now record.key record with ⟨p, evicted, hdn, -⟩ | ⟨-, how⟩
    · exact absurd hdn (ho p evicted)
    · exact ⟨how, hc, h.lanes, h.next, h.log, h.below, h.sorted⟩
  | completed p evicted _ hdn he =>
    rcases h.owned.accept now record.key record with ⟨_, _, hd', how, -⟩ | ⟨ho, -⟩
    · rw [hdn] at hd'
      cases hd'
      have hf : Faithful shipments [p] (r.stored now record) :=
        ⟨how, hc, h.lanes, h.next, h.log, h.below, h.sorted⟩
      exact hf.events hnumbered hfew he
    · exact absurd hdn (ho p evicted)

theorem Faithful.run {calls : List ReceiverCall} (hb : Balanced [] r) (h : Faithful shipments [] r)
    (hc : ∀ now payload sink, .payload now payload sink ∈ calls →
      ∃ group : List Record, payload = group.flatMap encodeRecord ∧ group ≠ [] ∧
        (∀ record ∈ group, record.Valid) ∧ group ⊆ shipments.flatMap Shipment.fragments) :
    Faithful shipments [] (r.run calls) := by
  induction calls generalizing r with
  | nil => exact h
  | cons call calls ih =>
    refine ih (r.call_balanced hb call).1 ?_
      fun now payload sink hmem => hc now payload sink (mem_cons_of_mem _ hmem)
    cases call with
    | payload now payload sink =>
      obtain ⟨group, rfl, hne, hv, hs⟩ := hc now payload sink (mem_cons_self ..)
      show Faithful shipments [] (acceptPayload now (group.flatMap encodeRecord) sink r).2
      unfold acceptPayload
      rw [parse_encode _ _ hv hne]
      refine (visitAll_preserves (I := fun r => Balanced [] r ∧ Faithful shipments [] r)
        (acceptRecord now sink) ?_ ⟨hb, h⟩).2
      rintro record hr r ⟨hb, h⟩
      obtain ⟨hba, -, -, ha⟩ := acceptRecord_spec now record hb sink
      exact ⟨hba, h.arrives hnumbered hfew (hs hr) ha⟩
    | tickReorder now sink =>
      exact h.events hnumbered hfew (tickReorder_spec now sink hb).2.2.2
    | expireReassembly now =>
      have hca : Carried shipments (r.reassembly.expire now).2 :=
        Reassembly.call_carried (c := .expire now) (hnumbered.distinct hfew) h.owned.wf h.carried
          (by simp)
      exact ⟨h.owned.expire now, hca, h.lanes, h.next, h.log, h.below, h.sorted⟩

end Faithful

private theorem newConfiguredReceiver_faithful {c : ReceiverConfig} {payloadOnly : Bool}
    (hn : newConfiguredReceiver c payloadOnly = .ok r) (he : c.reorderEnabled = true)
    (shipments : List Shipment) : Faithful shipments [] r := by
  have hc := (newConfiguredReceiver_fresh hn he).1.custody
  obtain ⟨-, -, reassembly, reorder, hre, hro, rfl⟩ := newConfiguredReceiver_ok hn
  obtain ⟨-, -, hpe, hnx⟩ := Reorder.new_ok hro he
  obtain ⟨-, hfr⟩ := Reassembly.new_wf hre
  refine ⟨hc.owned, fun i hi => absurd (hfr i) hi, ?_, ?_, ?_, ?_, .nil⟩
  · intro lane p hp
    rw [show ((c.receiver payloadOnly reassembly reorder).reorders lane).pending = [] from
      hpe] at hp
    cases hp
  · intro lane
    rw [show ((c.receiver payloadOnly reassembly reorder).reorders lane).next = 0 from hnx]
    exact Nat.zero_le _
  · simp [ReceiverConfig.receiver]
  · simp [ReceiverConfig.receiver]

/-- Lists in the same strict order: one within the other is a sublist. -/
theorem sublist_of_numbers {l l' : List (Key × Bytes)}
    (h : l.Pairwise fun a b => a.1.laneSequence.toNat < b.1.laneSequence.toNat)
    (h' : l'.Pairwise fun a b => a.1.laneSequence.toNat < b.1.laneSequence.toNat)
    (hs : l ⊆ l') : l.Sublist l' := by
  refine sublist_of_subperm_of_pairwise (List.Nodup.subperm ?_ hs) h h'
  refine h.imp ?_
  rintro _ _ hlt rfl
  exact Nat.lt_irrefl _ hlt

theorem Before.filter {l : List (Key × Bytes)} (h : l.Pairwise Before) (lane : UInt8) :
    (l.filter fun entry => entry.1.laneID = lane).Pairwise
      fun a b => a.1.laneSequence.toNat < b.1.laneSequence.toNat := by
  rw [pairwise_filter]
  refine h.imp ?_
  intro a b hbe ha hb
  simp only [decide_eq_true_eq] at ha hb
  exact hbe (ha.trans hb.symm)

/-- Whatever the channel does to the payloads and whenever the timers run: every packet that is
delivered was sent, none is delivered twice, and those of a lane come in the order of `add`. -/
theorem transmit_in_order {config : SenderConfig} {s : Sender} {c : ReceiverConfig}
    {payloadOnly : Bool}
    (hsender : newPayloadSender config = (.ok s : Except (SendError Empty) Sender))
    (hzero : ∀ lane, s.sequences lane = 0) (hreceiver : newConfiguredReceiver c payloadOnly = .ok r)
    (henabled : c.reorderEnabled = true) (calls : List SenderCall)
    (hfew : ∀ lane, ((Sender.sent calls (s, [])).countP fun entry => entry.1.laneID = lane) <
      2147483648)
    (received : List ReceiverCall)
    (hchannel : ∀ now payload sink, .payload now payload sink ∈ received →
      payload ∈ (Sender.transmit calls (s, [])).2) :
    (∀ entry ∈ (r.run received).log, entry ∈ Sender.sent calls (s, [])) ∧
      ((r.run received).log.map Prod.fst).Nodup ∧
      ∀ lane, ((r.run received).log.filter fun entry => entry.1.laneID = lane).Sublist
        ((Sender.sent calls (s, [])).filter fun entry => entry.1.laneID = lane) := by
  obtain ⟨-, hnot⟩ := newPayloadSender_shipped hsender hzero
  obtain ⟨shipments, hshi, hsent, -⟩ := hnot.transmit calls
  rw [nil_append] at hshi
  have hnumbered := hshi.numbered
  have hfew : ∀ lane, laneCount shipments lane < 2147483648 := by
    intro lane
    have hlane := hfew lane
    rw [← hsent, countP_map] at hlane
    exact hlane
  have hfre := (newConfiguredReceiver_fresh hreceiver henabled).1
  have hfai := newConfiguredReceiver_faithful hreceiver henabled shipments
  have hpay : ∀ now payload sink, .payload now payload sink ∈ received →
      ∃ group : List Record, payload = group.flatMap encodeRecord ∧ group ≠ [] ∧
        (∀ record ∈ group, record.Valid) ∧ group ⊆ shipments.flatMap Shipment.fragments := by
    intro now payload sink hmem
    obtain ⟨_, _, hout, -, hrec, hgro, hval, -⟩ := hshi.packed
    have hpal := hchannel now payload sink hmem
    rw [hout, nil_append] at hpal
    obtain ⟨group, hgru, rfl⟩ := mem_map.mp hpal
    have hin : group ⊆ shipments.flatMap Shipment.fragments := by
      intro record hr
      rw [← hrec]
      exact mem_append_left _ (mem_flatten.mpr ⟨group, hgru, hr⟩)
    exact ⟨group, rfl, hgro group hgru, fun record hr => hval record (hin hr), hin⟩
  have hrun := hfai.run hnumbered hfew hfre hpay
  have hlog := hrun.log
  rw [hsent] at hlog
  refine ⟨hlog, ?_, fun lane => ?_⟩
  · rw [List.Nodup, pairwise_map]
    refine hrun.sorted.imp ?_
    intro a b hbef hkey
    have := hbef (congrArg Key.laneID hkey)
    rw [hkey] at this
    exact Nat.lt_irrefl _ this
  · refine sublist_of_numbers (Before.filter hrun.sorted lane) (Before.filter ?_ lane) ?_
    · rw [← hsent, pairwise_map]
      exact hnumbered.sorted hfew
    · intro entry he
      rw [mem_filter] at he ⊢
      exact ⟨hlog entry he.1, he.2⟩

/-- Every payload twice, the last one first, and a tick after them. -/
def sampleChannel (payloads : List Bytes) : List ReceiverCall :=
  (payloads.reverse ++ payloads).map (fun payload => .payload 1 payload takeAll) ++
    [.tickReorder 9 takeAll]

theorem transmit_in_order_sample : ∃ s r,
    newPayloadSender sampleSender = (.ok s : Except (SendError Empty) Sender) ∧
    newConfiguredReceiver { sampleReceiver with allowedIPs := sampleRoutes } true = .ok r ∧
    (r.run (sampleChannel (Sender.transmit (sampleAdds ++ [.flush]) (s, [])).2)).log.length = 2 ∧
    ((r.run (sampleChannel (Sender.transmit (sampleAdds ++ [.flush]) (s, [])).2)).log.map
      Prod.fst).Nodup := by
  obtain ⟨s, hs⟩ : ∃ s, newPayloadSender sampleSender =
    (.ok s : Except (SendError Empty) Sender) := ⟨_, rfl⟩
  obtain ⟨r, hr⟩ : ∃ r, newConfiguredReceiver
    { sampleReceiver with allowedIPs := sampleRoutes } true = .ok r := ⟨_, rfl⟩
  have hzero : ∀ lane, s.sequences lane = 0 := by
    obtain rfl := Except.ok.inj hs
    exact fun _ => rfl
  have hlen : (Sender.sent (sampleAdds ++ [.flush]) (s, [])).length = 2 := by
    obtain rfl := Except.ok.inj hs
    rfl
  refine ⟨s, r, hs, hr, ?_, (transmit_in_order hs hzero hr rfl (sampleAdds ++ [.flush]) ?_ _
    ?_).2.1⟩
  · obtain rfl := Except.ok.inj hs
    obtain rfl := Except.ok.inj hr
    decide +kernel
  · intro lane
    exact Nat.lt_of_le_of_lt countP_le_length (by rw [hlen]; decide)
  · intro now payload sink hmem
    simp only [sampleChannel, mem_append, mem_map, mem_reverse] at hmem
    rcases hmem with ⟨_, hp, heq⟩ | hmem
    · obtain ⟨-, rfl, -⟩ := ReceiverCall.payload.inj heq
      exact hp.elim id id
    · simp at hmem

end WgFrag.Data
