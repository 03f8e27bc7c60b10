import WgFrag.Shim.Device

/-! The rings as queues. At every head position the operations of the DATA ring are those of a list
of pairs of a peer and a payload, and those of the retained packets those of a list of packets. -/
namespace WgFrag.Shim
open WgFrag.Lib WgFrag.Data List

namespace DataQueue
variable {q q' : DataQueue} {peer : PeerID} {packet : Bytes}

theorem contents_length (q : DataQueue) : q.contents.length = q.ring.count :=
  ByteRing.contents_length q.ring

theorem length_le_slots (q : DataQueue) : q.contents.length ≤ q.slots := by
  rw [contents_length]
  exact q.wf.count

theorem enqueue_full_iff : q.enqueue peer packet = .error .carrierQueueFull ↔
    q.contents.length = q.slots := by
  rw [contents_length]
  unfold enqueue
  split
  · next hfu => simp [hfu]
  rename_i hrm
  split
  · simp [hrm]
  · simp [hrm]

theorem enqueue_short (h : q.enqueue peer packet = .error .shortBuffer) :
    q.payloadStride < packet.length := by
  unfold enqueue at h
  split at h
  · cases h
  · split at h
    · assumption
    · cases h

theorem enqueue_ok (h : q.enqueue peer packet = .ok q') :
    q'.contents = q.contents ++ [(peer, packet)] ∧ q'.ring.stride = q.ring.stride ∧
      q'.slots = q.slots ∧ q.contents.length < q.slots := by
  rw [contents_length]
  unfold enqueue at h
  split at h
  · cases h
  rename_i hrm
  split at h
  · cases h
  rename_i hsh
  obtain rfl := Except.ok.inj h
  have hlt := Nat.lt_of_le_of_ne q.wf.count hrm
  exact ⟨(ByteRing.push_spec q.wf hlt
    (Nat.le_trans (Nat.le_of_not_lt hsh) (Nat.sub_le _ _)) peer).2, rfl,
    length_set, hlt⟩

private theorem enqueue_total (hrm : q.contents.length < q.slots)
    (hf : packet.length ≤ q.payloadStride) : ∃ q', q.enqueue peer packet = .ok q' := by
  rw [contents_length] at hrm
  unfold enqueue
  rw [dif_neg (Nat.ne_of_lt hrm), dif_neg (Nat.not_lt.mpr hf)]
  exact ⟨_, rfl⟩

private theorem dequeue_none (h : q.dequeue = none) : q.contents = [] := by
  unfold dequeue at h
  split at h
  · next hz =>
    apply length_eq_zero_iff.mp
    rw [contents_length]
    exact hz
  · cases h

theorem dequeue_some {x : PeerID × Bytes} (h : q.dequeue = some (x, q')) :
    q.contents = x :: q'.contents ∧ q'.ring.stride = q.ring.stride ∧ q'.slots = q.slots := by
  unfold dequeue at h
  split at h
  · cases h
  rename_i hne
  obtain ⟨rfl, rfl⟩ := Prod.mk.inj (Option.some.inj h)
  exact ⟨ByteRing.contents_eq_cons q.wf (Nat.pos_of_ne_zero hne), rfl, length_set⟩

theorem grow_spec (q : DataQueue) (slots : ℕ) : (q.growDataQueue slots).contents = q.contents ∧
    (q.growDataQueue slots).ring.stride = q.ring.stride ∧
    (q.growDataQueue slots).slots = max slots q.slots := by
  obtain ⟨-, hs, hsl, hc⟩ := ByteRing.grow_spec q.wf slots
  exact ⟨hc, hs, hsl⟩

theorem purge_spec (q : DataQueue) (peer : PeerID) :
    (q.purgeDataPeer peer).contents = q.contents.filter (·.1 != peer) ∧
      (q.purgeDataPeer peer).ring.stride = q.ring.stride ∧
      (q.purgeDataPeer peer).slots = q.slots := by
  obtain ⟨-, hsl, hc⟩ := ByteRing.compact_spec q.wf (· != peer)
  exact ⟨hc, ByteRing.stride_compact _ _, hsl⟩

theorem rollback_spec (q : DataQueue) (wantCount : ℕ) :
    (q.rollbackData wantCount).contents = q.contents.take wantCount ∧
      (q.rollbackData wantCount).ring.stride = q.ring.stride ∧
      (q.rollbackData wantCount).slots = q.slots := by
  obtain ⟨-, hsl, hc⟩ := ByteRing.rollback_spec q.wf
    (Nat.le_add_left q.ring.count wantCount)
  exact ⟨hc, ByteRing.stride_rollback _ _ _, hsl⟩

theorem discard_spec (q : DataQueue) : q.discard.contents = [] ∧
    q.discard.ring.stride = q.ring.stride ∧ q.discard.slots = q.slots := by
  refine ⟨length_eq_zero_iff.mp ?_, rfl, length_replicate⟩
  rfl

theorem make_spec {stride slots : ℕ} (h : 0 < slots) : (make stride slots h).contents = [] ∧
    (make stride slots h).ring.stride = stride ∧ (make stride slots h).slots = slots := by
  refine ⟨length_eq_zero_iff.mp ?_, rfl, length_replicate⟩
  rfl

/-- The operations commute with the list of carriers. -/
structure Fifo (q : DataQueue) : Prop where
  full : ∀ peer packet, q.enqueue peer packet = .error .carrierQueueFull ↔
    q.contents.length = q.slots
  enqueue : ∀ peer packet, packet.length ≤ q.payloadStride → q.contents.length < q.slots →
    ∃ q', q.enqueue peer packet = .ok q' ∧ q'.contents = q.contents ++ [(peer, packet)]
  empty : q.dequeue = none ↔ q.contents = []
  dequeue : ∀ x q', q.dequeue = some (x, q') → q.contents = x :: q'.contents
  grow : ∀ slots, (q.growDataQueue slots).contents = q.contents
  purge : ∀ peer, (q.purgeDataPeer peer).contents = q.contents.filter (·.1 != peer)
  rollback : ∀ wantCount, (q.rollbackData wantCount).contents = q.contents.take wantCount

theorem fifo (q : DataQueue) : q.Fifo where
  full _ _ := enqueue_full_iff
  enqueue peer packet hf hrm := by
    obtain ⟨q', hq⟩ : ∃ q', q.enqueue peer packet = .ok q' := enqueue_total hrm hf
    exact ⟨q', hq, (enqueue_ok hq).1⟩
  empty := by
    refine ⟨dequeue_none, fun h => ?_⟩
    cases hq : q.dequeue with
    | none => rfl
    | some =>
      have hcons := (dequeue_some hq).1
      rw [h] at hcons
      cases hcons
  dequeue _ _ h := (dequeue_some h).1
  grow slots := (q.grow_spec slots).1
  purge peer := (q.purge_spec peer).1
  rollback wantCount := (q.rollback_spec wantCount).1

end DataQueue

/-! ### Retained packets -/

namespace PendingQueue
variable {q q' : PendingQueue} {packet : Bytes}

theorem packets_length (q : PendingQueue) : q.packets.length = q.ring.count := by
  unfold packets
  rw [length_map, ByteRing.contents_length]

theorem packets_short (q : PendingQueue) : ∀ packet ∈ q.packets, packet.length ≤ q.ring.stride := by
  intro packet hp
  obtain ⟨x, hx, rfl⟩ := mem_map.mp hp
  exact ByteRing.length_le_stride q.wf hx

theorem pop_some (h : q.pop = some (packet, q')) :
    q.packets = packet :: q'.packets ∧ q'.ring.stride = q.ring.stride := by
  unfold pop at h
  split at h
  · cases h
  rename_i hne
  obtain ⟨rfl, rfl⟩ := Prod.mk.inj (Option.some.inj h)
  refine ⟨?_, rfl⟩
  unfold packets
  rw [ByteRing.contents_eq_cons q.wf (Nat.pos_of_ne_zero hne)]
  rfl

theorem pop_cons {rest : List Bytes} (h : q.packets = packet :: rest) :
    ∃ q', q.pop = some (packet, q') ∧ q'.packets = rest := by
  cases hq : q.pop with
  | none =>
    have hlen := packets_length q
    unfold pop at hq
    split at hq
    · next hz =>
      rw [h, hz] at hlen
      cases hlen
    · cases hq
  | some found =>
    obtain ⟨packet', q'⟩ := found
    have hc := (pop_some hq).1
    rw [h] at hc
    obtain ⟨rfl, rfl⟩ := cons.inj hc
    exact ⟨q', rfl, rfl⟩

theorem stride_push (q : PendingQueue) (packet : Bytes) :
    (q.push packet).ring.stride = q.ring.stride := by
  unfold push
  split <;> rfl

private theorem push_packets (hrm : q.packets.length < defaultPreconfirmQueueSize)
    (hlen : packet.length ≤ q.ring.stride) : (q.push packet).packets = q.packets ++ [packet] := by
  have hcn : q.ring.count < q.ring.lens.length := by
    rw [q.slots, ← packets_length]
    exact hrm
  have heq : (q.push packet).ring = q.ring.push () packet :=
    congrArg ring (dif_pos (⟨hcn, hlen⟩ : _ ∧ _))
  unfold packets
  rw [heq, (ByteRing.push_spec q.wf hcn hlen ()).2, map_append]
  rfl

theorem clear_packets (q : PendingQueue) : q.clear.packets = [] := by
  apply length_eq_zero_iff.mp
  rw [packets_length]
  rfl

theorem make_packets (innerMTU : ℕ) : (make innerMTU).packets = [] := by
  apply length_eq_zero_iff.mp
  rw [packets_length]
  rfl

end PendingQueue

section Enqueue
variable (packet : Bytes) (peer : PeerState) (tx : Tx)

/-- The oldest packet, if there is no room for another one. -/
def PeerState.overwritten (peer : PeerState) : Option Bytes :=
  if peer.pending.length = defaultPreconfirmQueueSize then peer.pending.head? else none

theorem enqueuePending_pending (hlen : packet.length ≤ peer.pendingRing.ring.stride) :
    peer.pending ++ [packet] =
      peer.overwritten.toList ++ (enqueuePending packet peer tx).1.pending := by
  have hcn := peer.pendingRing.packets_length
  have hle := peer.pendingRing.wf.count
  unfold PeerState.overwritten enqueuePending PeerState.pending
  rw [peer.pendingRing.slots] at hle ⊢
  rw [hcn]
  split
  · next hfu =>
    cases hp : peer.pendingRing.packets with
    | nil =>
      rw [hp, hfu] at hcn
      cases hcn
    | cons oldest rest =>
      obtain ⟨q', hq, hrest⟩ := PendingQueue.pop_cons hp
      have hdrop : peer.pendingRing.dropOldest = q' := by
        unfold PendingQueue.dropOldest
        rw [hq]
        rfl
      have hrm : q'.packets.length < defaultPreconfirmQueueSize := by
        rw [hrest]
        rw [hp, length_cons] at hcn
        omega
      rw [hdrop, PendingQueue.push_packets hrm ((PendingQueue.pop_some hq).2 ▸ hlen), hrest]
      rfl
  · next hroom =>
    rw [PendingQueue.push_packets (by omega) hlen]
    rfl

theorem enqueuePending_drops : (enqueuePending packet peer tx).2.preconfirmDrops =
    tx.preconfirmDrops + peer.overwritten.toList.length := by
  have hcn := peer.pendingRing.packets_length
  unfold PeerState.overwritten enqueuePending PeerState.pending
  rw [peer.pendingRing.slots, hcn]
  split
  · next hfu =>
    cases hp : peer.pendingRing.packets with
    | nil =>
      rw [hp, hfu] at hcn
      cases hcn
    | cons => rfl
  · rfl

theorem enqueuePending_stride :
    (enqueuePending packet peer tx).1.pendingRing.ring.stride = peer.pendingRing.ring.stride := by
  have hdrop : peer.pendingRing.dropOldest.ring.stride = peer.pendingRing.ring.stride := by
    unfold PendingQueue.dropOldest
    cases hq : peer.pendingRing.pop with
    | none => rfl
    | some => exact (PendingQueue.pop_some hq).2
  unfold enqueuePending
  split
  · exact (PendingQueue.stride_push _ _).trans hdrop
  · exact PendingQueue.stride_push _ _

end Enqueue
end WgFrag.Shim
