import WgFrag.Data.Completeness
import WgFrag.Data.Sender

/-! Everything a sender with a reliable sink puts on the wire: one shipment per packet that was
added, numbered within its lane. -/
namespace WgFrag.Data
open WgFrag.Lib Limits List
open Fragment (Metadata Cuts)
open Packetizer (Appends Packed)
open Reassembly (keyOf)

/-- A sink that takes every carrier. -/
def collect (_ : PeerID) (payload : Bytes) : Eff (List Bytes) Empty Unit := fun out =>
  (.ok (), out ++ [payload])

theorem collect_appends (peer : PeerID) : Appends (collect peer) id := by
  constructor
  · rintro _ _ _ ⟨⟩
    rfl
  · rintro _ _ _ _ ⟨⟩

inductive SenderCall where
  | add (now later : UnixTime) (packet : Bytes)
  | flush

namespace Sender

def call : SenderCall → Sender × List Bytes → Sender × List Bytes
  | .add now later packet, st => (add collect now later packet st).2
  | .flush, st => (flush collect st).2

def transmit (calls : List SenderCall) (st : Sender × List Bytes) : Sender × List Bytes :=
  calls.foldl (fun st c => call c st) st

/-- The packet a call adds, trimmed, and the key it is sent under. -/
def entry : SenderCall → Sender × List Bytes → List (Key × Bytes)
  | .add now later packet, st =>
    match (add collect now later packet st).1 with
    | .ok () => [(keyOf 0 (st.1.metadata (st.1.lane (InnerIP.trim packet))), InnerIP.trim packet)]
    | .error _ => []
  | .flush, _ => []

def sent : List SenderCall → Sender × List Bytes → List (Key × Bytes)
  | [], _ => []
  | c :: calls, st => entry c st ++ sent calls (call c st)

end Sender

/-- A packet with its place in its lane and the fragments it was cut into. -/
structure Shipment where
  data : Bytes
  metadata : Metadata
  fragments : List Record

def Shipment.entry (s : Shipment) : Key × Bytes := (keyOf 0 s.metadata, s.data)

def laneCount (shipments : List Shipment) (lane : UInt8) : ℕ :=
  shipments.countP fun s => s.metadata.laneID = lane

/-- The sequence of the next packet on each lane. -/
def nextSequences (shipments : List Shipment) (lane : UInt8) : UInt32 :=
  UInt32.ofNat (laneCount shipments lane)

/-- The packets are cut, and numbered within their lanes. -/
structure Numbered (session : UInt16) (shipments : List Shipment) : Prop where
  cuts : ∀ s ∈ shipments, Cuts s.data s.metadata s.fragments
  session : ∀ s ∈ shipments, s.metadata.dataSessionID = session
  sequence : ∀ pre s post, shipments = pre ++ s :: post →
    s.metadata.laneSequence = nextSequences pre s.metadata.laneID

theorem nextSequences_snoc (shipments : List Shipment) (s : Shipment) :
    nextSequences (shipments ++ [s]) = Function.update (nextSequences shipments)
      s.metadata.laneID (nextSequences shipments s.metadata.laneID + 1) := by
  funext lane
  unfold nextSequences laneCount
  rw [countP_append]
  by_cases hl : lane = s.metadata.laneID
  · rw [hl, Function.update_self, countP_singleton, if_pos (by simp), UInt32.ofNat_add]
    rfl
  · rw [Function.update_of_ne hl, countP_singleton, if_neg (by simp [Ne.symm hl]),
      Nat.add_zero]

theorem Numbered.nil (session : UInt16) : Numbered session [] := by
  refine ⟨by simp, by simp, ?_⟩
  intro pre s post h
  simp at h

theorem Numbered.snoc {session : UInt16} {shipments : List Shipment} {s : Shipment}
    (h : Numbered session shipments) (hc : Cuts s.data s.metadata s.fragments)
    (hss : s.metadata.dataSessionID = session)
    (hse : s.metadata.laneSequence = nextSequences shipments s.metadata.laneID) :
    Numbered session (shipments ++ [s]) := by
  refine ⟨?_, ?_, ?_⟩
  · intro t ht
    rcases mem_append.mp ht with ht | ht
    · exact h.cuts t ht
    · rw [mem_singleton.mp ht]
      exact hc
  · intro t ht
    rcases mem_append.mp ht with ht | ht
    · exact h.session t ht
    · rw [mem_singleton.mp ht]
      exact hss
  · intro pre t post hsp
    rcases eq_nil_or_concat post with rfl | ⟨post, u, rfl⟩
    · obtain ⟨rfl, hs⟩ := append_inj' hsp rfl
      cases hs
      exact hse
    · have hs' : shipments ++ [s] = (pre ++ t :: post) ++ [u] := by
        rw [hsp]
        simp
      exact h.sequence pre t post (append_inj' hs' rfl).1

/-- What the sender has put on the wire and still has in its carrier. -/
structure Shipped (c : SenderConfig) (shipments : List Shipment) (st : Sender × List Bytes) :
    Prop where
  config : st.1.config = c
  numbered : Numbered c.dataSessionID shipments
  next : st.1.sequences = nextSequences shipments
  packed : Packed st.1.packetizer.carrierPayload [] (shipments.flatMap Shipment.fragments) st.2
    st.1.packetizer.buffer

/-- The shipment carries the trimmed packet of the call, which the sender lets through. -/
def CarriedBy (c : SenderConfig) (s : Shipment) : SenderCall → Prop
  | .add _ _ packet => ∃ parsed, InnerIP.parse packet = .ok parsed ∧ s.data = parsed.data ∧
    s.data.length ≤ c.remotePeerMTU
  | .flush => False

variable {c : SenderConfig} {shipments : List Shipment} {st : Sender × List Bytes} {s : Sender}
  {packet data : Bytes}

theorem Sender.inspect_ok {ε : Type}
    (h : s.inspect packet = (.ok data : Except (SendError ε) Bytes)) :
    ∃ parsed, InnerIP.parse packet = .ok parsed ∧ data = parsed.data ∧
      data.length ≤ s.config.remotePeerMTU := by
  unfold inspect at h
  split at h
  · cases h
  rename_i parsed hp
  split_ifs at h with hr hm
  obtain rfl := Except.ok.inj h
  exact ⟨parsed, hp, rfl, Nat.le_of_not_lt hm⟩

theorem Shipped.call (h : Shipped c shipments st) (call : SenderCall) :
    ∃ more, Shipped c (shipments ++ more) (Sender.call call st) ∧
      more.map Shipment.entry = Sender.entry call st ∧ ∀ s ∈ more, CarriedBy c s call := by
  cases call with
  | flush =>
    refine ⟨[], ?_, rfl, by simp⟩
    rw [append_nil]
    rcases Sender.flush_flushes (collect_appends st.1.config.peerID) h.packed with
      ⟨t, hrun, hpa⟩ | ⟨e, _⟩
    · show Shipped c shipments (Sender.flush collect st).2
      rw [hrun]
      exact ⟨h.config, h.numbered, h.next, hpa⟩
    · cases e
  | add now later packet =>
    have hadds := Sender.add_adds now later packet (collect_appends st.1.config.peerID) h.packed
    unfold Sender.call Sender.entry
    dsimp only
    generalize Sender.add collect now later packet st = out at hadds
    cases hadds with
    | refused =>
      refine ⟨[], ?_, rfl, by simp⟩
      rw [append_nil]
      exact h
    | unsplit data e =>
      refine ⟨[], ?_, rfl, by simp⟩
      obtain ⟨hp, hcf, hse, -⟩ := Sender.opened_packetizer (s := st.1) (st.1.lane data)
      rw [append_nil]
      refine ⟨hcf.trans h.config, h.numbered, ?_, ?_⟩
      · rw [hse]
        exact h.next
      · rw [hp]
        exact h.packed
    | failed _ _ _ e => cases e
    | sent data fs hi ho hc hca hmin hpa =>
      obtain ⟨parsed, hpr, hd, hm⟩ := Sender.inspect_ok hi
      have htrim : InnerIP.trim packet = data := by
        rw [hd]
        exact InnerIP.trim_eq hpr
      obtain ⟨-, hcf, hse, -⟩ := Sender.opened_packetizer (s := st.1) (st.1.lane data)
      refine ⟨[⟨data, st.1.metadata (st.1.lane data), fs⟩], ⟨?_, ?_, ?_, ?_⟩, ?_, ?_⟩
      · exact hcf.trans h.config
      · exact h.numbered.snoc hc (congrArg SenderConfig.dataSessionID h.config)
          (congrFun h.next _)
      · rw [nextSequences_snoc, ← h.next, ← hse]
        rfl
      · rw [flatMap_append, flatMap_singleton]
        exact hpa
      · dsimp only
        rw [htrim]
        rfl
      · intro s hs
        rw [mem_singleton.mp hs]
        refine ⟨parsed, hpr, hd, ?_⟩
        rw [← h.config]
        exact hm

theorem Shipped.flushed (h : Shipped c shipments st) :
    (Sender.call .flush st).1.packetizer.buffer = [] := by
  rcases Sender.flush_flushes (collect_appends st.1.config.peerID) h.packed with
    ⟨t, hrun, -⟩ | ⟨e, _⟩
  · show (Sender.flush collect st).2.1.packetizer.buffer = []
    rw [hrun]
    rfl
  · cases e

theorem Shipped.transmit (h : Shipped c shipments st) (calls : List SenderCall) :
    ∃ more, Shipped c (shipments ++ more) (Sender.transmit calls st) ∧
      more.map Shipment.entry = Sender.sent calls st ∧
      ∀ s ∈ more, ∃ call ∈ calls, CarriedBy c s call := by
  induction calls generalizing shipments st with
  | nil =>
    refine ⟨[], ?_, rfl, by simp⟩
    rw [append_nil]
    exact h
  | cons call _ ih =>
    obtain ⟨first, hf, he, hc⟩ := h.call call
    obtain ⟨rest, hr, hse, hcarr⟩ := ih hf
    refine ⟨first ++ rest, ?_, ?_, ?_⟩
    · rw [← append_assoc]
      exact hr
    · rw [map_append, he, hse]
      rfl
    intro s hs
    rcases mem_append.mp hs with hs | hs
    · exact ⟨call, mem_cons_self .., hc s hs⟩
    · obtain ⟨call', hmem, hby⟩ := hcarr s hs
      exact ⟨call', mem_cons_of_mem _ hmem, hby⟩

theorem newPayloadSender_shipped
    (hn : newPayloadSender c = (.ok s : Except (SendError Empty) Sender))
    (hz : ∀ lane, s.sequences lane = 0) : c.Valid ∧ Shipped c [] (s, []) := by
  unfold newPayloadSender at hn
  split at hn
  · cases hn
  rename_i hv
  split at hn
  · cases hn
  rename_i packetizer hi
  obtain rfl := Except.ok.inj hn
  unfold Packetizer.init at hi
  split_ifs at hi
  obtain rfl := Except.ok.inj hi
  refine ⟨not_not.mp hv, rfl, .nil _, funext hz, [], [], rfl, rfl, rfl, ?_, ?_, Nat.zero_le _⟩
  · simp
  · simp

/-- A route for every address to the peer `0`. -/
def sampleRoutes : Route.Snapshot := ⟨⟨[{ peer := some 0 }]⟩, ⟨[{ peer := some 0 }]⟩⟩

/-- A sender of small carriers on one lane. -/
def sampleSender : SenderConfig where
  dataSessionID := 1
  laneID := 3
  carrierPayload := 40
  minPack := 1
  remotePeerMTU := 1280
  peerID := 0
  allowedIPs := none
  classifier := none
  initialSequences := none
  initialWrapBlocks := none
  sequenceReuseLifetime := 0

def sampleInner : Bytes := [69, 0, 0, 20, 0, 0, 0, 0, 0, 0, 0, 0, 10, 0, 0, 1, 10, 0, 0, 2]

/-- A packet with padding, no packet, and a packet without padding. -/
def sampleAdds : List SenderCall :=
  [.add 0 0 (sampleInner ++ [0, 0]), .add 0 0 [1], .add 0 0 sampleInner]

end WgFrag.Data
