import WgFrag.Shim.SlotSize
import WgFrag.Data.Grammar
import WgFrag.Data.Shipment

/-! The records of a peer on their way out: those in the ring and then those in the carrier in use.
A step of the peer adds the records of the packet it packs, and a ring that is full stops a call
with the carriers of before still in front. -/
namespace WgFrag.Shim
open WgFrag.Lib WgFrag.Data Limits List
open Fragment (Cuts ceilDiv_le split_total)
variable {peer : PeerID}

/-! ### Records of carriers -/

/-- The records of a payload, as far as they can be parsed. -/
def payloadRecords (payload : Bytes) : List Record :=
  (parse (visitor (ε := Unit) fun r visited => visited ++ [r]) (fun _ => ()) payload []).2

theorem Holds.records {payload : Bytes} {records : List Record} (h : Holds payload records) :
    payloadRecords payload = records := by
  obtain ⟨rfl, hv⟩ := h
  unfold payloadRecords
  by_cases hne : records = []
  · subst hne
    rfl
  · rw [parse_encode _ _ hv hne, visitAll_collect]
    rfl

/-- The records of the carriers of one peer. -/
def recordsFor (peer : PeerID) (carriers : List (PeerID × Bytes)) : List Record :=
  (carriers.filter (·.1 == peer)).flatMap fun carrier => payloadRecords carrier.2

theorem recordsFor_append (peer : PeerID) (l l' : List (PeerID × Bytes)) :
    recordsFor peer (l ++ l') = recordsFor peer l ++ recordsFor peer l' := by
  unfold recordsFor
  rw [filter_append, flatMap_append]

private theorem recordsFor_groups {groups : List (List Record)}
    (h : ∀ group ∈ groups, ∀ record ∈ group, record.Valid) :
    recordsFor peer ((groups.map (List.flatMap encodeRecord)).map (peer, ·)) = groups.flatten := by
  induction groups with
  | nil => rfl
  | cons group _ ih =>
    have hgr : Holds (group.flatMap encodeRecord) group := ⟨rfl, h group mem_cons_self⟩
    have hr := ih fun g hg => h g (mem_cons_of_mem _ hg)
    unfold recordsFor at hr ⊢
    rw [map_cons, map_cons, filter_cons_of_pos (by simp), flatMap_cons,
      flatten_cons, hr, hgr.records]

private theorem recordsFor_other {other : PeerID} (h : other ≠ peer) (carriers : List Bytes) :
    recordsFor other (carriers.map (peer, ·)) = [] := by
  unfold recordsFor
  rw [filter_eq_nil_iff.mpr]
  · rfl
  · intro carrier hc
    obtain ⟨_, -, rfl⟩ := mem_map.mp hc
    simp [h.symm]

variable {s t : PeerState × Tx} {ev : PeerEvent} {e : TxError}

theorem Extends.other {other : PeerID} {t u : Tx} (h : Extends peer t u) (hne : other ≠ peer) :
    recordsFor other u.queue.contents = recordsFor other t.queue.contents := by
  obtain ⟨-, -, _, hc⟩ := h
  rw [hc, recordsFor_append, recordsFor_other hne, append_nil]

theorem Packing.records {pend records rest : List Record} {cost : ℕ}
    {groups : List (List Record)} {p q : Packetizer} {t u : Tx}
    (h : Packing peer pend records rest cost p q t u groups) (hh : Holds p.buffer pend) :
    recordsFor peer u.queue.contents ++ payloadRecords q.buffer =
      recordsFor peer t.queue.contents ++ payloadRecords p.buffer ++ records := by
  rw [h.gains.contents, recordsFor_append, recordsFor_groups fun g hg => (h.proper g hg).2,
    h.holds.records, hh.records, append_assoc, h.whole, append_assoc]

/-! ### Records under the steps of a peer -/

def PeerEvent.records : PeerEvent → List Record
  | .packed _ _ _ records => records
  | _ => []

/-- The records in the ring and in the carrier in use. -/
def PeerState.stream (s : PeerState × Tx) : List Record :=
  recordsFor s.1.sender.config.peerID s.2.queue.contents ++
    payloadRecords s.1.sender.packetizer.buffer

theorem PeerDid.stream (h : PeerDid s ev t) :
    PeerState.stream t = PeerState.stream s ++ ev.records := by
  have hc := h.same.config
  unfold PeerState.stream
  rw [hc]
  cases h with
  | popped | refused => exact (append_nil _).symm
  | packed _ _ _ _ _ hh hpk => exact hpk.records hh
  | flushed hh hpk => exact hpk.records hh

/-- A packet that is packed is cut as a whole. -/
def PeerEvent.Whole : PeerEvent → Prop
  | .packed packet _ _ records => ∃ metadata, Cuts (InnerIP.trim packet) metadata records
  | _ => True

theorem PeerDid.whole (h : PeerDid s ev t) : ev.Whole := by
  cases h with
  | popped | refused => trivial
  | packed _ data hi _ hc =>
    obtain ⟨parsed, hp, rfl, -⟩ := Sender.inspect_ok hi
    refine ⟨s.1.sender.metadata (s.1.sender.lane parsed.data), ?_⟩
    rw [InnerIP.trim_eq hp]
    exact hc
  | flushed => trivial

theorem PeerState.Sound.splits {innerMTU index : ℕ} {peer : PeerState} {packet data : Bytes}
    (h : peer.Sound innerMTU index)
    (hin : peer.sender.inspect packet = (.ok data : Except TxError Bytes)) :
    ∃ result, Fragment.split data (peer.sender.metadata (peer.sender.lane data))
      ⟨peer.sender.packetizer.carrierPayload, peer.sender.packetizer.carrierPayload -
        peer.sender.packetizer.buffer.length, peer.sender.packetizer.minPack⟩ maxFragments =
      .ok result := by
  obtain ⟨parsed, hp, rfl, _⟩ := Sender.inspect_ok hin
  have hlo := (InnerIP.parseExact_data hp).2
  obtain ⟨hs, hh, hl, hmiP, hi⟩ := h.config
  have hmin := h.minimum.2
  unfold minCarrierPayload at hmin
  rw [h.payload, h.minPack]
  have hmtM := hi.2
  have hc : ceilDiv parsed.data.length (peer.sender.config.carrierPayload - headerSize) ≤
      maxFragments := by
    apply ceilDiv_le
    simp only [maxFragments, headerSize, dataHeaderSize] at hmin ⊢
    omega
  refine split_total ⟨by omega, by omega⟩ hs ⟨hh, ?_⟩ (Nat.sub_le _ _) hmiP hc
    (Nat.le_refl _)
  exact Nat.le_trans hl (Nat.sub_le _ _)

/-- With slots of the right size only a full ring fails a step, and it is counted. -/
theorem PeerFails.full {innerMTU index : ℕ} (h : PeerFails s e t) (hs : s.1.Sound innerMTU index)
    (hft : s.1.sender.packetizer.carrierPayload ≤ s.2.queue.payloadStride) :
    isQueueFull e = true ∧ t.1.pending = s.1.pending ∧
      t.2.carrierQueueOverflows = s.2.carrierQueueOverflows + 1 ∧
      t.2.preconfirmDrops = s.2.preconfirmDrops ∧ t.2.txPacketDrops = s.2.txPacketDrops := by
  have hsh := h.not_short hs.tidy hft
  obtain ⟨_, h⟩ := h
  cases h with
  | unsplit _ _ _ hi hsp =>
    obtain ⟨_, hok⟩ := hs.splits hi
    rw [hok] at hsp
    cases hsp
  | packing _ _ _ _ _ _ _ _ hpk _ hf =>
    obtain ⟨ho, hp, hd⟩ := hpk.gains.counters
    rcases enqueuePayload_error hf with ⟨rfl, -, rfl⟩ | ⟨rfl, -, -⟩
    · exact ⟨rfl, rfl, congrArg (· + 1) ho, hp, hd⟩
    · exact absurd rfl hsh
  | flush _ _ hf =>
    rcases enqueuePayload_error hf with ⟨rfl, -, rfl⟩ | ⟨rfl, -, -⟩
    · exact ⟨rfl, rfl, rfl, rfl, rfl⟩
    · exact absurd rfl hsh

namespace Device
variable {d d' d'' : Device} {ev : Event} {log : List Event} {index : ℕ} {peer : PeerState}

/-! ### Records under the steps of the device -/

def Event.records (i : ℕ) : Event → List Record
  | .peer index ev => if index = i then ev.records else []
  | _ => []

/-- The records of a peer in the ring and in its carrier in use. -/
def stream (d : Device) (i : ℕ) : List Record :=
  recordsFor i d.tx.queue.contents ++
    (d.peerFor i).elim [] fun peer => payloadRecords peer.sender.packetizer.buffer

theorem stream_eq (hp : d.peerFor index = some peer)
    (hid : peer.sender.config.peerID = index) : d.stream index = PeerState.stream (peer, d.tx) := by
  unfold stream PeerState.stream
  rw [hp, hid]
  rfl

theorem stream_put {s : PeerState × Tx} (hp : d.peerFor index = some peer)
    (hid : s.1.sender.config.peerID = index) : (d.put index s).stream index = PeerState.stream s :=
  stream_eq (peerFor_put_self (peerFor_lt hp)) hid

theorem stream_put_of_ne {s : PeerState × Tx} {i : ℕ} (hne : i ≠ index)
    (hq : recordsFor i s.2.queue.contents = recordsFor i d.tx.queue.contents) :
    (d.put index s).stream i = d.stream i := by
  unfold stream
  rw [peerFor_put_of_ne hne]
  exact congrArg (· ++ _) hq

theorem Did.stream (h : Did d ev d') (hd : d.Sound) (i : ℕ) :
    d'.stream i = d.stream i ++ ev.records i := by
  cases h with
  | dropped => exact (append_nil _).symm
  | @retained index peer packet _ hp =>
    have hq := enqueuePending_queue packet peer d.tx
    have hid := (hd.get hp).1.peerID
    refine Eq.trans ?_ (append_nil _).symm
    by_cases hi : i = index
    · subst hi
      rw [stream_put hp ((enqueuePending_same packet peer d.tx).config ▸ hid),
        stream_eq hp hid]
      unfold PeerState.stream
      rw [hq, (enqueuePending_same packet peer d.tx).config]
      have hs : (enqueuePending packet peer d.tx).1.sender = peer.sender := by
        unfold enqueuePending
        split <;> rfl
      rw [hs]
    · exact stream_put_of_ne hi (by rw [hq])
  | @peer index peer ev _ hp hdi =>
    have hid := (hd.get hp).1.peerID
    have hr : Event.records i (.peer index ev) = if index = i then ev.records else [] := rfl
    rw [hr]
    by_cases hi : i = index
    · subst hi
      rw [if_pos rfl, stream_put hp (hdi.same.config ▸ hid), stream_eq hp hid, hdi.stream]
    have he := hdi.extends
    rw [hid] at he
    rw [if_neg (Ne.symm hi), append_nil]
    exact stream_put_of_ne hi (he.other hi)

theorem chain_stream (h : Chain Did d log d') (hd : d.Sound) (i : ℕ) :
    d'.stream i = d.stream i ++ log.flatMap (Event.records i) := by
  induction h with
  | nil => exact (append_nil _).symm
  | cons hdi _ ih =>
    rw [ih (hdi.sound hd), hdi.stream hd, flatMap_cons, append_assoc]

def Event.Whole : Event → Prop
  | .peer _ ev => ev.Whole
  | _ => True

theorem Did.whole (h : Did d ev d') : ev.Whole := by
  cases h with
  | dropped | retained => trivial
  | peer _ hd => exact hd.whole

theorem chain_whole (h : Chain Did d log d') : ∀ ev ∈ log, ev.Whole := by
  induction h with
  | nil => exact fun _ hev => absurd hev not_mem_nil
  | cons hd _ ih => exact forall_mem_cons.mpr ⟨hd.whole, ih⟩

/-! ### The ring under the steps of the device -/

theorem Did.contents (h : Did d ev d') : d.tx.queue.contents <+: d'.tx.queue.contents := by
  cases h with
  | dropped => exact prefix_rfl
  | @retained _ peer packet =>
    show _ <+: (enqueuePending packet peer d.tx).2.queue.contents
    rw [enqueuePending_queue]
  | peer _ hd =>
    obtain ⟨-, -, _, hc⟩ := hd.extends
    exact ⟨_, hc.symm⟩

theorem chain_contents (h : Chain Did d log d') : d.tx.queue.contents <+: d'.tx.queue.contents :=
  h.invariant (I := fun d' => d.tx.queue.contents <+: d'.tx.queue.contents)
    (fun _ _ _ hd hc => hc.trans hd.contents) prefix_rfl

theorem Fails.contents (h : Fails d e d') : d.tx.queue.contents <+: d'.tx.queue.contents := by
  cases h with
  | peer _ hf =>
    obtain ⟨-, -, _, hc⟩ := hf.extends
    exact ⟨_, hc.symm⟩

/-- A rollback to the number of carriers of before leaves the carriers of before. -/
theorem rollback_contents (q : DataQueue) {q' : DataQueue} (h : q.contents <+: q'.contents) :
    (q'.rollbackData q.ring.count).contents = q.contents := by
  rw [(q'.rollback_spec _).1, ← DataQueue.contents_length]
  exact (prefix_iff_eq_take.mp h).symm

end Device
end WgFrag.Shim
