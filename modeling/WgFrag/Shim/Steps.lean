import WgFrag.Shim.DataRing
import WgFrag.Data.Emission
import WgFrag.Lib.Trace

/-! What the calls of the transmit side do to the peers and to the ring, step by step. A batch and an
opening of a gate are logs of such steps, which end well or with one failed step. -/
namespace WgFrag.Shim
open WgFrag.Lib WgFrag.Data Limits List
open Fragment (Cuts)
open Packetizer (Appends Packed Spends)
variable {peer : PeerID} {packet : Bytes} {pend records : List Record} {u : Tx} {p : Packetizer}

/-! ### Carriers that reach the ring -/

/-- The ring gains carriers of one peer, and nothing else changes. -/
structure Gains (peer : PeerID) (carriers : List Bytes) (t u : Tx) : Prop where
  frame : u = { t with queue := u.queue, txCarriers := t.txCarriers + carriers.length }
  stride : u.queue.ring.stride = t.queue.ring.stride
  slots : u.queue.slots = t.queue.slots
  contents : u.queue.contents = t.queue.contents ++ carriers.map (peer, ·)

theorem Gains.refl (peer : PeerID) (t : Tx) : Gains peer [] t t :=
  ⟨rfl, rfl, rfl, (append_nil _).symm⟩

theorem Gains.enqueued {carriers : List Bytes} {t v : Tx}
    (h : Gains peer carriers t u) (hok : enqueuePayload peer packet u = (.ok (), v)) :
    Gains peer (carriers ++ [packet]) t v := by
  unfold enqueuePayload at hok
  cases hq : u.queue.enqueue peer packet with
  | error e => cases e <;> simp [hq] at hok
  | ok =>
    simp only [hq] at hok
    obtain rfl := (Prod.mk.inj hok).2
    obtain ⟨hc, hs, hsl, -⟩ := DataQueue.enqueue_ok hq
    refine ⟨?_, hs.trans h.stride, hsl.trans h.slots, ?_⟩
    · rw [h.frame, length_append]
      rfl
    · dsimp only
      rw [hc, h.contents, map_append, append_assoc]
      rfl

/-- A carrier is refused because the ring is full, which is counted, or because it is longer than a
slot. -/
theorem enqueuePayload_error {t : Tx} {e : QueueError}
    (h : enqueuePayload peer packet t = (.error e, u)) :
    (e = .carrierQueueFull ∧ t.queue.contents.length = t.queue.slots ∧
      u = { t with carrierQueueOverflows := t.carrierQueueOverflows + 1 }) ∨
    (e = .shortBuffer ∧ t.queue.payloadStride < packet.length ∧ u = t) := by
  unfold enqueuePayload at h
  cases hq : t.queue.enqueue peer packet with
  | ok => simp [hq] at h
  | error e' =>
    cases e' with
    | carrierQueueFull =>
      simp only [hq] at h
      obtain ⟨he, rfl⟩ := Prod.mk.inj h
      cases he
      exact .inl ⟨rfl, DataQueue.enqueue_full_iff.mp hq, rfl⟩
    | shortBuffer =>
      simp only [hq] at h
      obtain ⟨he, rfl⟩ := Prod.mk.inj h
      cases he
      exact .inr ⟨rfl, DataQueue.enqueue_short hq, rfl⟩

def payloads (t : Tx) : List Bytes := t.queue.contents.map Prod.snd

theorem Gains.payloads {carriers : List Bytes} {t : Tx}
    (h : Gains peer carriers t u) : payloads u = payloads t ++ carriers := by
  unfold Shim.payloads
  rw [h.contents, map_append, map_map]
  exact congrArg (_ ++ ·) (map_id _)

theorem enqueuePayload_appends (peer : PeerID) : Appends (enqueuePayload peer) payloads where
  ok h := ((Gains.refl peer _).enqueued h).payloads
  error h := by
    rcases enqueuePayload_error h with ⟨-, -, rfl⟩ | ⟨-, -, rfl⟩ <;> rfl

/-! ### Carriers in use -/

/-- One if a carrier is in use. -/
def begun (buffer : Bytes) : ℕ := if buffer = [] then 0 else 1

theorem begun_nil : begun [] = 0 := rfl

theorem begun_pos {buffer : Bytes} (h : buffer ≠ []) : begun buffer = 1 := if_neg h

private theorem begun_le (buffer : Bytes) : begun buffer ≤ 1 := by
  unfold begun
  split <;> omega

/-- The carriers so far and the one in use stay within `cost` new ones. -/
def Within (peer : PeerID) (t : Tx) (buffer : Bytes) (cost n : ℕ) (buffer' : Bytes) (u : Tx) : Prop :=
  ∃ carriers, Gains peer carriers t u ∧ carriers.length + begun buffer' + n ≤ begun buffer + cost

theorem within_spends (peer : PeerID) (t : Tx) (buffer : Bytes) (cost limit : ℕ) :
    Spends (enqueuePayload peer) limit (Within peer t buffer cost) where
  weaken := by
    rintro n buffer' u ⟨carriers, hg, hle⟩
    exact ⟨carriers, hg, by omega⟩
  flushed := by
    rintro n buffer' u _ ⟨carriers, hg, hle⟩ hne - hok
    refine ⟨carriers ++ [buffer'], hg.enqueued hok, ?_⟩
    rw [begun_pos hne] at hle
    rw [length_append, length_singleton, begun_nil]
    omega
  begun := by
    rintro _ _ bytes ⟨carriers, hg, hle⟩
    have := begun_le bytes
    exact ⟨carriers, hg, by omega⟩
  extended := by
    rintro _ _ _ _ ⟨carriers, hg, hle⟩ hne
    refine ⟨carriers, hg, ?_⟩
    rw [begun_pos hne] at hle
    rw [begun_pos (append_ne_nil_of_left_ne_nil hne _)]
    exact hle

/-- The bytes are those of the records. -/
structure Holds (buffer : Bytes) (records : List Record) : Prop where
  bytes : buffer = records.flatMap encodeRecord
  valid : ∀ record ∈ records, record.Valid

theorem Holds.nil (h : Holds [] records) : records = [] := by
  cases records with
  | nil => rfl
  | cons =>
    have hlen := congrArg List.length h.bytes
    rw [flatMap_cons, length_append, length_encodeRecord, headerSize] at hlen
    have hz : ([] : Bytes).length = 0 := rfl
    omega

/-- From the records `pend` in the carrier in use and the new ones, full carriers reach the ring and
the rest stays in use. -/
structure Packing (peer : PeerID) (pend records rest : List Record) (cost : ℕ) (p q : Packetizer)
    (t u : Tx) (groups : List (List Record)) : Prop where
  carrierPayload : q.carrierPayload = p.carrierPayload
  minPack : q.minPack = p.minPack
  fits : q.buffer.length ≤ p.carrierPayload
  gains : Gains peer (groups.map (List.flatMap encodeRecord)) t u
  cost : groups.length + begun q.buffer ≤ begun p.buffer + cost
  holds : Holds q.buffer rest
  whole : groups.flatten ++ rest = pend ++ records
  proper : ∀ group ∈ groups, group ≠ [] ∧ ∀ record ∈ group, record.Valid

theorem packed_start (t : Tx) (h : Holds p.buffer pend)
    (hf : p.buffer.length ≤ p.carrierPayload) :
    Packed p.carrierPayload (payloads t) pend (payloads t) p.buffer :=
  ⟨[], pend, (append_nil _).symm, h.bytes, rfl, fun _ hg => absurd hg not_mem_nil, h.valid,
    hf⟩

theorem Within.packing {cost : ℕ} {q : Packetizer}
    {t : Tx} (h : Within peer t p.buffer cost 0 q.buffer u)
    (hp : Packed q.carrierPayload (payloads t) (pend ++ records) (payloads u) q.buffer)
    (hc : q.carrierPayload = p.carrierPayload) (hmin : q.minPack = p.minPack) :
    ∃ groups rest, Packing peer pend records rest cost p q t u groups := by
  obtain ⟨_, hga, hcost⟩ := h
  obtain ⟨groups, rest, ho, hb, hw, hne, hv, hl⟩ := hp
  rw [hga.payloads] at ho
  obtain rfl := append_cancel_left ho
  rw [length_map] at hcost
  rw [hc] at hl
  refine ⟨groups, rest, hc, hmin, hl, hga, hcost, ⟨hb, ?_⟩, hw, ?_⟩
  · intro record hr
    exact hv record (hw ▸ mem_append_right _ hr)
  intro group hg
  refine ⟨hne group hg, fun record hr => hv record ?_⟩
  rw [← hw]
  exact mem_append_left _ (mem_flatten.mpr ⟨group, hg, hr⟩)

/-! ### Steps of one peer -/

/-- How many carriers a packet begins at most. -/
def packetCost (s : Sender) (data : Bytes) : ℕ :=
  min maxFragments (ceilDiv data.length (s.packetizer.carrierPayload - headerSize))

/-- The sender after a packet was packed on its lane. -/
def packedSender (s : Sender) (later : UnixTime) (data : Bytes) (p : Packetizer) : Sender :=
  { s.opened (s.lane data) with packetizer := p }.advance later (s.lane data)

inductive PeerEvent where
  | popped (packet : Bytes)
  | refused (packet : Bytes) (e : TxError)
  | packed (packet data : Bytes) (clock : UnixTime × UnixTime) (records : List Record)
  | flushed

/-- The event is what becomes of a packet that is handed to the sender. -/
def PeerEvent.Offers (packet : Bytes) : PeerEvent → Prop
  | .refused packet' _ => packet' = packet
  | .packed packet' _ _ _ => packet' = packet
  | _ => False

inductive PeerDid (s : PeerState × Tx) : PeerEvent → PeerState × Tx → Prop
  | popped {packet : Bytes} {rest : PendingQueue} : s.1.pendingRing.pop = some (packet, rest) →
    PeerDid s (.popped packet) ({ s.1 with pendingRing := rest }, s.2)
  | refused (packet : Bytes) (e : TxError) : isPacketError e = true →
    PeerDid s (.refused packet e) (s.1, dropTXPacket e s.2.tick)
  | packed (packet data : Bytes) {pend records rest : List Record} {groups : List (List Record)}
    {p : Packetizer} {u : Tx} :
    s.1.sender.inspect packet = (.ok data : Except TxError Bytes) →
    s.1.sender.Open (s.2.clock 0).1 (s.1.sender.lane data) →
    Cuts data (s.1.sender.metadata (s.1.sender.lane data)) records →
    Holds s.1.sender.packetizer.buffer pend →
    Packing s.1.sender.config.peerID pend records rest (packetCost s.1.sender data)
      s.1.sender.packetizer p s.2.tick u groups →
    PeerDid s (.packed packet data (s.2.clock 0) records)
      ({ s.1 with sender := packedSender s.1.sender (s.2.clock 0).2 data p }, u)
  | flushed {pend : List Record} {groups : List (List Record)} {u : Tx} :
    Holds s.1.sender.packetizer.buffer pend →
    Packing s.1.sender.config.peerID pend [] [] 0 s.1.sender.packetizer
      s.1.sender.packetizer.reset s.2 u groups →
    PeerDid s .flushed (s.1.resetPending, u)

/-- A packet cannot be split, or the ring refuses a carrier while a packet is packed or while the
carrier in use is flushed. -/
inductive PeerFailsOn (s : PeerState × Tx) : Option Bytes → TxError → PeerState × Tx → Prop
  | unsplit (packet data : Bytes) (e : Fragment.Error) :
    s.1.sender.inspect packet = (.ok data : Except TxError Bytes) →
    Fragment.split data (s.1.sender.metadata (s.1.sender.lane data))
      ⟨s.1.sender.packetizer.carrierPayload, s.1.sender.packetizer.carrierPayload -
        s.1.sender.packetizer.buffer.length, s.1.sender.packetizer.minPack⟩ maxFragments =
      .error e →
    PeerFailsOn s (some packet) (.pack (.fragment e))
      ({ s.1 with sender := s.1.sender.opened (s.1.sender.lane data) }, s.2.tick)
  | packing (packet data : Bytes) (k : ℕ) (e : QueueError) {pend records rest : List Record}
    {groups : List (List Record)} {p : Packetizer} {t u : Tx} :
    s.1.sender.inspect packet = (.ok data : Except TxError Bytes) →
    s.1.sender.Open (s.2.clock 0).1 (s.1.sender.lane data) →
    Cuts data (s.1.sender.metadata (s.1.sender.lane data)) records →
    Holds s.1.sender.packetizer.buffer pend →
    Packing s.1.sender.config.peerID pend (records.take k) rest (packetCost s.1.sender data)
      s.1.sender.packetizer p s.2.tick t groups →
    p.buffer ≠ [] → enqueuePayload s.1.sender.config.peerID p.buffer t = (.error e, u) →
    PeerFailsOn s (some packet) (.pack (.emit e)) ({ s.1 with
      sender := { s.1.sender.opened (s.1.sender.lane data) with packetizer := p } }, u)
  | flush (e : QueueError) {u : Tx} : s.1.sender.packetizer.buffer ≠ [] →
    enqueuePayload s.1.sender.config.peerID s.1.sender.packetizer.buffer s.2 = (.error e, u) →
    PeerFailsOn s none (.pack (.emit e)) (s.1, u)

def PeerFails (s : PeerState × Tx) (e : TxError) (t : PeerState × Tx) : Prop :=
  ∃ packet, PeerFailsOn s packet e t

/-- The carrier in use holds records and is not longer than a carrier. -/
structure PeerState.Tidy (peer : PeerState) : Prop where
  holds : ∃ pend, Holds peer.sender.packetizer.buffer pend
  fits : peer.sender.packetizer.buffer.length ≤ peer.sender.packetizer.carrierPayload

private theorem inspect_packetError {s : Sender} {e : TxError}
    (h : s.inspect packet = .error e) : isPacketError e = true := by
  unfold Sender.inspect at h
  split at h
  · next e' hp =>
    cases h
    have hne := InnerIP.parse_error hp
    cases e' <;> first | rfl | exact absurd rfl hne
  · split_ifs at h
    · cases h
      rfl
    · cases h
      rfl

inductive Offered (packet : Bytes) (s : PeerState × Tx) :
    Except TxError Unit × (PeerState × Tx) → Prop
  | did {ev : PeerEvent} {t : PeerState × Tx} : PeerDid s ev t → ev.Offers packet →
    Offered packet s (.ok (), t)
  | failed {e : TxError} {t : PeerState × Tx} : PeerFailsOn s (some packet) e t →
    Offered packet s (.error e, t)

theorem offer_offered (packet : Bytes) {s : PeerState × Tx} (h : s.1.Tidy) :
    Offered packet s (offer packet s) := by
  obtain ⟨⟨pend, hh⟩, hft⟩ := h
  unfold offer
  cases hi : (s.1.sender.inspect packet : Except TxError Bytes) with
  | error e =>
    have hpt := inspect_packetError hi
    rw [Sender.add_refused hi]
    dsimp only
    rw [if_pos hpt]
    exact .did (.refused packet e hpt) rfl
  | ok data =>
    by_cases ho : s.1.sender.Open (s.2.clock 0).1 (s.1.sender.lane data)
    · have hk : Sender.Kept enqueuePayload (Within s.1.sender.config.peerID s.2.tick
          s.1.sender.packetizer.buffer (packetCost s.1.sender data)) 0 (s.1.sender, s.2.tick)
          (Sender.add enqueuePayload (s.2.clock 0).1 (s.2.clock 0).2 packet
            (s.1.sender, s.2.tick)) := by
        refine Sender.add_kept (k := packetCost s.1.sender data) _ _ packet
          (within_spends _ _ _ _ _) hft ?_ ⟨[], Gains.refl _ _, by simp⟩
        intro data' hd
        rw [hi] at hd
        cases hd
        unfold packetCost
        dsimp only
        omega
      have hadds : Sender.Adds enqueuePayload payloads (payloads s.2.tick) pend (s.2.clock 0).1
          (s.2.clock 0).2 packet (s.1.sender, s.2.tick) (Sender.add enqueuePayload (s.2.clock 0).1
            (s.2.clock 0).2 packet (s.1.sender, s.2.tick)) :=
        Sender.add_adds _ _ packet (enqueuePayload_appends s.1.sender.config.peerID)
          (packed_start s.2.tick hh hft)
      have her : ∀ e, (Sender.add enqueuePayload (s.2.clock 0).1 (s.2.clock 0).2 packet
          (s.1.sender, s.2.tick)).1 = .error e → ∃ e', e = .pack e' :=
        fun e => Sender.add_open_error hi ho
      generalize Sender.add enqueuePayload (s.2.clock 0).1 (s.2.clock 0).2 packet
        (s.1.sender, s.2.tick) = out at hk hadds her
      cases hadds with
      | refused e hne =>
        obtain ⟨e', he⟩ := her e rfl
        exact absurd he (hne e')
      | unsplit data' e hd _ hs =>
        exact .failed (.unsplit packet data' e hd hs)
      | failed _ _ k e _ _ _ hd _ hc _ _ hca hmin hp =>
        rw [hi] at hd
        cases hd
        rcases hk.error _ rfl with ⟨-, hne⟩ | ⟨_, _, heq, hw, hne, hf⟩
        · exact absurd rfl (hne e)
        cases heq
        rw [(enqueuePayload_appends _).error hf] at hp
        obtain ⟨_, _, hpk⟩ := Within.packing hw hp hca hmin
        exact .failed (.packing packet data k e hi ho hc hh hpk hne hf)
      | sent _ _ hd _ hc hca hmin hp =>
        rw [hi] at hd
        cases hd
        obtain ⟨_, _, hpk⟩ := Within.packing (hk.ok rfl) hp hca hmin
        exact .did (.packed packet data hi ho hc hh hpk) rfl
    · rw [Sender.add_blocked hi ho]
      exact .did (.refused packet .laneWrap rfl) rfl

theorem offer_logged (packet : Bytes) {s : PeerState × Tx} (h : s.1.Tidy) :
    Eff.Logged PeerDid PeerFails s (fun log _ => ∃ ev, log = [ev] ∧ ev.Offers packet)
      (offer packet s) := by
  have hof := offer_offered packet h
  generalize offer packet s = out at hof
  cases hof with
  | did hd ho => exact .one hd ⟨_, rfl, ho⟩
  | failed hf => exact .fail ⟨_, hf⟩

inductive FlushEnd (s : PeerState × Tx) : Except TxError Unit × (PeerState × Tx) → Prop
  | did {u : Tx} : PeerDid s .flushed (s.1.resetPending, u) →
    FlushEnd s (.ok (), (s.1.resetPending, u))
  | failed {e : TxError} {t : PeerState × Tx} : PeerFailsOn s none e t → FlushEnd s (.error e, t)

theorem flushSender_end {s : PeerState × Tx} (h : s.1.Tidy) : FlushEnd s (flushSender s) := by
  obtain ⟨⟨pend, hh⟩, _⟩ := h
  unfold flushSender
  rw [Sender.flush_eq]
  unfold Sender.onPacketizer Packetizer.flush
  by_cases he : s.1.sender.packetizer.buffer = []
  · have heq : s.1.resetPending = s.1 := by
      unfold PeerState.resetPending Sender.resetPending Packetizer.reset
      rw [← he]
    rw [he] at hh
    obtain rfl := hh.nil
    rw [if_pos he]
    have hpk : Packing s.1.sender.config.peerID [] [] [] 0 s.1.sender.packetizer
        s.1.sender.packetizer.reset s.2 s.2 [] :=
      ⟨rfl, rfl, Nat.zero_le _, Gains.refl _ _, Nat.zero_le _,
        ⟨rfl, fun _ hr => absurd hr not_mem_nil⟩, rfl, fun _ hg => absurd hg not_mem_nil⟩
    have hd : PeerDid s .flushed (s.1.resetPending, s.2) := .flushed (he ▸ hh) hpk
    have hen := FlushEnd.did hd
    rw [heq] at hen
    exact hen
  · rw [if_neg he]
    cases hrun : enqueuePayload s.1.sender.config.peerID s.1.sender.packetizer.buffer s.2 with
    | mk res u =>
      cases res with
      | error e => exact .failed (.flush e he hrun)
      | ok =>
        have hb := hh.bytes
        have hpk : Packing s.1.sender.config.peerID pend [] [] 0 s.1.sender.packetizer
            s.1.sender.packetizer.reset s.2 u [pend] := ?_
        · exact .did (.flushed hh hpk)
        refine ⟨rfl, rfl, Nat.zero_le _, ?_, ?_, ⟨rfl, fun _ hr => absurd hr not_mem_nil⟩, ?_, ?_⟩
        · have hga := (Gains.refl _ _).enqueued hrun
          rw [hb] at hga
          exact hga
        · rw [begun_pos he]
          exact Nat.le_refl 1
        · simp
        · intro group hg
          obtain rfl := mem_singleton.mp hg
          refine ⟨?_, hh.valid⟩
          rintro rfl
          exact he hb

theorem flushSender_logged {s : PeerState × Tx} (h : s.1.Tidy) :
    Eff.Logged PeerDid PeerFails s (fun log t => log = [.flushed] ∧ t.1 = s.1.resetPending)
      (flushSender s) := by
  have he := flushSender_end h
  generalize flushSender s = out at he
  cases he with
  | did hd => exact .one hd ⟨rfl, rfl⟩
  | failed hf => exact .fail ⟨_, hf⟩

/-! ### What the steps of a peer keep -/

/-- The parts of a peer that no step changes. -/
structure SamePeer (peer peer' : PeerState) : Prop where
  id : peer'.id = peer.id
  txSession : peer'.txSession = peer.txSession
  remoteMTU : peer'.remoteMTU = peer.remoteMTU
  dataFragments : peer'.dataFragments = peer.dataFragments
  dataCarrierSize : peer'.dataCarrierSize = peer.dataCarrierSize
  dataEnabled : peer'.dataEnabled = peer.dataEnabled
  config : peer'.sender.config = peer.sender.config
  carrierPayload : peer'.sender.packetizer.carrierPayload = peer.sender.packetizer.carrierPayload
  minPack : peer'.sender.packetizer.minPack = peer.sender.packetizer.minPack
  reuseWait : peer'.sender.reuseWait = peer.sender.reuseWait
  stride : peer'.pendingRing.ring.stride = peer.pendingRing.ring.stride

variable {s t : PeerState × Tx} {ev : PeerEvent} {e : TxError}

theorem SamePeer.refl (peer : PeerState) : SamePeer peer peer :=
  ⟨rfl, rfl, rfl, rfl, rfl, rfl, rfl, rfl, rfl, rfl, rfl⟩

theorem SamePeer.trans {a b c : PeerState} (h : SamePeer a b) (h' : SamePeer b c) : SamePeer a c :=
  ⟨h'.id.trans h.id, h'.txSession.trans h.txSession, h'.remoteMTU.trans h.remoteMTU,
    h'.dataFragments.trans h.dataFragments, h'.dataCarrierSize.trans h.dataCarrierSize,
    h'.dataEnabled.trans h.dataEnabled, h'.config.trans h.config,
    h'.carrierPayload.trans h.carrierPayload, h'.minPack.trans h.minPack,
    h'.reuseWait.trans h.reuseWait, h'.stride.trans h.stride⟩

theorem enqueuePending_same (packet : Bytes) (peer : PeerState) (tx : Tx) :
    SamePeer peer (enqueuePending packet peer tx).1 := by
  have hst := enqueuePending_stride packet peer tx
  refine ⟨?_, ?_, ?_, ?_, ?_, ?_, ?_, ?_, ?_, ?_, hst⟩ <;>
    (unfold enqueuePending; split <;> rfl)

theorem PeerDid.same (h : PeerDid s ev t) : SamePeer s.1 t.1 := by
  cases h with
  | popped hq =>
    exact ⟨rfl, rfl, rfl, rfl, rfl, rfl, rfl, rfl, rfl, rfl, (PendingQueue.pop_some hq).2⟩
  | refused => exact SamePeer.refl s.1
  | packed _ data _ _ _ _ hpk =>
    obtain ⟨-, hc, -, hw⟩ := Sender.opened_packetizer (s := s.1.sender) (s.1.sender.lane data)
    exact ⟨rfl, rfl, rfl, rfl, rfl, rfl, hc, hpk.carrierPayload, hpk.minPack, hw, rfl⟩
  | flushed => constructor <;> rfl

theorem PeerFails.same (h : PeerFails s e t) : SamePeer s.1 t.1 := by
  obtain ⟨_, h⟩ := h
  cases h with
  | unsplit _ data =>
    obtain ⟨hp, hc, -, hw⟩ := Sender.opened_packetizer (s := s.1.sender)
      (s.1.sender.lane data)
    exact ⟨rfl, rfl, rfl, rfl, rfl, rfl, hc, congrArg Packetizer.carrierPayload hp,
      congrArg Packetizer.minPack hp, hw, rfl⟩
  | packing _ data _ _ _ _ _ _ hpk =>
    obtain ⟨-, hc, -, hw⟩ := Sender.opened_packetizer (s := s.1.sender) (s.1.sender.lane data)
    exact ⟨rfl, rfl, rfl, rfl, rfl, rfl, hc, hpk.carrierPayload, hpk.minPack, hw, rfl⟩
  | flush => exact SamePeer.refl s.1

theorem Packing.tidy {rest : List Record} {cost : ℕ}
    {groups : List (List Record)} {q : Packetizer} {t : Tx}
    (h : Packing peer pend records rest cost p q t u groups) :
    (∃ pend, Holds q.buffer pend) ∧ q.buffer.length ≤ q.carrierPayload :=
  ⟨⟨rest, h.holds⟩, by rw [h.carrierPayload]; exact h.fits⟩

theorem PeerDid.tidy (h : PeerDid s ev t) (hs : s.1.Tidy) : t.1.Tidy := by
  cases h with
  | popped => exact ⟨hs.holds, hs.fits⟩
  | refused => exact hs
  | packed _ _ _ _ _ _ hpk =>
    exact ⟨hpk.tidy.1, hpk.tidy.2⟩
  | flushed _ hpk => exact ⟨hpk.tidy.1, hpk.tidy.2⟩

theorem PeerFails.tidy (h : PeerFails s e t) (hs : s.1.Tidy) : t.1.Tidy := by
  obtain ⟨_, h⟩ := h
  cases h with
  | unsplit _ data =>
    obtain ⟨hp, -⟩ := Sender.opened_packetizer (s := s.1.sender) (s.1.sender.lane data)
    constructor
    · dsimp only
      rw [hp]
      exact hs.holds
    · dsimp only
      rw [hp]
      exact hs.fits
  | packing _ _ _ _ _ _ _ _ hpk =>
    exact ⟨hpk.tidy.1, hpk.tidy.2⟩
  | flush => exact hs

theorem PeerDid.offers_pending (h : PeerDid s ev t) (hev : ev.Offers packet) :
    t.1.pending = s.1.pending := by
  cases h with
  | popped => exact hev.elim
  | refused | packed => rfl
  | flushed => exact hev.elim

/-! ### Retained packets that are flushed -/

/-- Each packet is taken and handed to the sender, in order, and then the carrier goes out. -/
inductive FlushLog : List Bytes → List PeerEvent → Prop
  | nil : FlushLog [] [.flushed]
  | cons {packet : Bytes} {rest : List Bytes} {ev : PeerEvent} {log : List PeerEvent} :
    ev.Offers packet → FlushLog rest log → FlushLog (packet :: rest) (.popped packet :: ev :: log)

theorem flushLoop_cons {rest : PendingQueue} (hq : s.1.pendingRing.pop = some (packet, rest))
    (more : ℕ) : flushLoop (more + 1) s =
      (offer packet >>= fun _ => flushLoop more) ({ s.1 with pendingRing := rest }, s.2) := by
  rw [flushLoop]
  dsimp only
  rw [hq]

private theorem flushLoop_logged {packets : List Bytes} (h : s.1.Tidy)
    (hp : s.1.pending = packets) :
    Eff.Logged PeerDid PeerFails s (fun log t => FlushLog packets log ∧ t.1.pending = [] ∧
      t.1.sender.packetizer.buffer = []) (flushLoop packets.length s) := by
  induction packets generalizing s with
  | nil =>
    refine (flushSender_logged h).mono ?_
    rintro _ _ ⟨rfl, ht⟩
    refine ⟨.nil, ?_, ?_⟩
    · rw [ht]
      exact hp
    · rw [ht]
      rfl
  | cons packet rest ih =>
    obtain ⟨q, hq, hrest⟩ := PendingQueue.pop_cons hp
    have hpo : PeerDid s (.popped packet) ({ s.1 with pendingRing := q }, s.2) := .popped hq
    have htidy := hpo.tidy h
    rw [length_cons, flushLoop_cons hq]
    refine Eff.Logged.after (.single hpo) ?_
    refine (offer_logged packet htidy).bind ?_
    rintro _ _ hch ⟨_, rfl, ho⟩
    cases hch with
    | cons hd hn =>
      cases hn
      refine (ih (hd.tidy htidy) ((hd.offers_pending ho).trans hrest)).mono ?_
      rintro _ _ ⟨hl, he, hb⟩
      exact ⟨.cons ho hl, he, hb⟩

theorem flushPending_logged (h : s.1.Tidy) :
    Eff.Logged PeerDid PeerFails s (fun log t => FlushLog s.1.pending log ∧ t.1.pending = [] ∧
      t.1.sender.packetizer.buffer = []) (flushPending s) := by
  unfold flushPending
  rw [← PendingQueue.packets_length]
  exact flushLoop_logged h rfl

end WgFrag.Shim
