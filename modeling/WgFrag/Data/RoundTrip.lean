import WgFrag.Data.Arrival
import WgFrag.Data.Shipment

/-! What a sender emits, a receiver of the same session delivers. The fragments of a packet come
one after the other, so the receiver holds at most one packet at a time. -/
namespace WgFrag.Data.Reassembly
open WgFrag.Lib Reassembler Fragment

variable {r : Reassembler} {key : Key}

theorem hasSlot_of_free (hwf : r.Wf) (hfr : ∀ i, (r.slot i).state = .free) : HasSlot r key := by
  have hl : r.load key.peerID = 0 := by
    unfold load
    rw [List.countP_eq_zero]
    intro s hs
    obtain ⟨i, hi, rfl⟩ := List.getElem_of_mem hs
    rw [← slot_eq_getElem hi]
    simp [Slot.Active, hfr i]
  have hc := hwf.load key.peerID
  have hv := hwf.config
  have hsl : 0 < r.slots.length := by
    rw [hwf.length]
    exact hv.1
  have hq : 0 < r.config.perPeerSlots := hv.2.2.2.2.1
  unfold HasSlot
  rw [if_neg (by omega)]
  exact ⟨0, hsl, by simp [hfr 0]⟩

end WgFrag.Data.Reassembly

namespace WgFrag.Data
open WgFrag.Lib Limits List
open Fragment (Metadata Cuts)
open Reassembly (Reassembler Packet keyOf Partly)
open Reorder (Reorderer)

variable {c : ReceiverConfig} {expected : UInt8 → UInt32} {r r' : Receiver} {now : Time}
  {answer : List (Key × Bytes) → Bytes → Bool} {p : Packet}

/-! ### One packet -/

/-- The receiver holds nothing in its queues; lanes expect the given sequences. -/
structure Calm (c : ReceiverConfig) (expected : UInt8 → UInt32) (r : Receiver) : Prop where
  config : r.config = { c with reorderBudget := c.budget }
  store : r.reassembly.config = c.reassembly
  wf : r.reassembly.Wf
  output : r.outputSize = if c.reorderEnabled then c.reorderCapacity + 1 else 1
  held : r.reorderHeld = 0
  lane : ∀ lane, (r.reorders lane).config = c.lane lane
  queue : c.reorderEnabled = true → ∀ lane, (r.reorders lane).Ok ∧
    (r.reorders lane).pending = [] ∧ (r.reorders lane).next = expected lane

theorem Calm.accept (h : Calm c expected r) (now : Time) (hp : p.key.peerID = 0)
    (hsession : p.key.dataSessionID = c.dataSessionID)
    (hse : p.key.laneSequence = expected p.key.laneID) :
    ∃ q, Reorder.accept now p r.outputSize (r.reorders p.key.laneID) = (.ok ⟨.delivered, [p]⟩, q) ∧
      q.config = c.lane p.key.laneID ∧ (c.reorderEnabled = true → q.Ok ∧ q.pending = [] ∧
        q.next = expected p.key.laneID + 1) := by
  have hl := h.lane p.key.laneID
  have hm : (r.reorders p.key.laneID).matchesLane p = true := by
    unfold Reorderer.matchesLane
    rw [hl]
    simp [ReceiverConfig.lane, hp, hsession]
  cases hen : c.reorderEnabled with
  | false =>
    refine ⟨r.reorders p.key.laneID, ?_, hl, by simp⟩
    have hd : ¬ (r.reorders p.key.laneID).config.enabled = true := by
      rw [hl]
      simp [ReceiverConfig.lane, hen]
    unfold Reorder.accept
    rw [Eff.get_bind, if_neg (not_not.mpr hm), if_pos hd, h.output, hen]
    rfl
  | true =>
    obtain ⟨hok, hpe, hnx⟩ := h.queue hen p.key.laneID
    have ho : (r.reorders p.key.laneID).config.capacity + 1 ≤ r.outputSize := by
      rw [hl, h.output, hen]
      exact Nat.le_refl _
    have hex : p.key.laneSequence = (r.reorders p.key.laneID).next := hse.trans hnx.symm
    obtain ⟨_, q, hrun, ha, hq⟩ := Reorder.accept_delivered now hok hm ho hex
    have hlate : ¬ Reorder.aheadOf p.key.laneSequence (r.reorders p.key.laneID).next = true := by
      rw [hex]
      simp [Reorder.aheadOf]
    cases ha with
    | @delivered _ drained hs hpm had hc hg =>
      rw [hpe] at hpm
      obtain ⟨rfl, he⟩ := append_eq_nil_iff.mp hpm.eq_nil
      refine ⟨q, hrun, hc.trans hl, fun _ => ⟨hq, he, ?_⟩⟩
      rw [show q.next = (r.reorders p.key.laneID).next + 1 from had, hnx]
    | late hne => exact absurd hex hne
    | duplicate hah => exact absurd hah hlate
    | flushed hah => exact absurd hah hlate
    | queued hah => exact absurd hah hlate

private theorem deliver_one (ha : ∀ log data, answer log data = true)
    (hp : r.passes (r.reassembly.data p) = true)
    (hr : (r.reassembly.release p.handle).1 = .ok ()) :
    ∃ r', deliver [p] (some answer) r = (.ok (), r') ∧ Kept r { r' with reassembly := r.reassembly } ∧
      r'.reassembly = (r.reassembly.release p.handle).2 ∧
      r'.log = r.log ++ [(p.key, r.reassembly.data p)] := by
  obtain ⟨hk, hst, hands⟩ := handOver_spec (some answer) r p none
  unfold deliver Receiver.deliverLoop
  generalize r.handOver (some answer) p none = out at hk hst hands
  obtain ⟨err, r1⟩ := out
  dsimp only at hk hst hands ⊢
  rw [hst]
  generalize ho : r.reassembly.release p.handle = released at hr
  obtain ⟨_, _⟩ := released
  subst hr
  generalize he : (err, r1.log) = entry at hands
  cases hands with
  | kept hf =>
    rw [hf rfl rfl] at hp
    cases hp
  | handed _ _ hs =>
    cases hs
    rw [ha] at he
    obtain ⟨rfl, hl⟩ := Prod.mk.inj he
    exact ⟨_, rfl, ⟨hk.config, hk.reorders, hk.outputSize, hk.reorderHeld,
      hk.reorderBudget, hk.reorderDeadline, rfl⟩, rfl, hl⟩

theorem Calm.completed (h : Calm c expected r) (now : Time) (hp : p.key.peerID = 0)
    (hsession : p.key.dataSessionID = c.dataSessionID)
    (hs : p.key.laneSequence = expected p.key.laneID) (ha : ∀ log data, answer log data = true)
    (hpa : r.passes (r.reassembly.data p) = true)
    (hr : (r.reassembly.release p.handle).1 = .ok ()) :
    ∃ r', acceptCompleted now (some answer) p r = (.ok (), r') ∧
      Calm c (Function.update expected p.key.laneID (expected p.key.laneID + 1)) r' ∧
      r'.reassembly = (r.reassembly.release p.handle).2 ∧
      r'.log = r.log ++ [(p.key, r.reassembly.data p)] := by
  obtain ⟨q, hrun, hc, hq⟩ := h.accept now hp hsession hs
  have hn : ¬ (r.config.reorderEnabled = true ∧ (r.reorderBudget : ℤ) ≤ r.reorderHeld ∧
      (r.reorders p.key.laneID).wouldQueue p.key.laneSequence = true) := by
    rintro ⟨he, -, hw⟩
    rw [h.config] at he
    obtain ⟨-, -, hnx⟩ := h.queue he p.key.laneID
    unfold Reorderer.wouldQueue at hw
    rw [if_pos (.inr (.inl (hs.trans hnx.symm)))] at hw
    cases hw
  have heq : acceptCompleted now (some answer) p r =
      acceptOrdered now (some answer) p r.reorderHeld r := by
    unfold acceptCompleted
    rw [Eff.get_bind, if_neg hn]
  obtain ⟨t, hb⟩ := rebooked_booked now r.reorderHeld p.key.laneID ⟨.delivered, [p]⟩
    (r.setLane p.key.laneID q)
  rw [heq, acceptOrdered_eq hrun, if_neg (by simp), hb]
  obtain ⟨r', hd, hk, hst, hlo⟩ := deliver_one (p := p) ha
    (show Receiver.passes { r.setLane p.key.laneID q with
      reorderHeld := (r.setLane p.key.laneID q).reorderHeld - (([p] : List Packet).length - 1)
      reorderDeadline := t } (r.reassembly.data p) = true from hpa) hr
  refine ⟨r', hd, ⟨?_, ?_, ?_, ?_, ?_, ?_, ?_⟩, hst, hlo⟩
  · exact hk.config.trans h.config
  · rw [hst]
    exact (Reassembly.Steps.config
      (Reassembly.call_steps h.wf (.release p.handle))).1.trans h.store
  · rw [hst]
    exact Reassembly.Steps.wf (Reassembly.call_steps h.wf (.release p.handle)) h.wf
  · exact hk.outputSize.trans h.output
  · have hh : r'.reorderHeld = r.reorderHeld - ((1 : ℕ) - 1) := hk.reorderHeld
    rw [hh, h.held]
    rfl
  · intro lane
    have hre : r'.reorders = Function.update r.reorders p.key.laneID q := hk.reorders
    rw [hre]
    by_cases hl : lane = p.key.laneID
    · rw [hl, Function.update_self, hc]
    · rw [Function.update_of_ne hl]
      exact h.lane lane
  · intro he lane
    have hre : r'.reorders = Function.update r.reorders p.key.laneID q := hk.reorders
    rw [hre]
    by_cases hl : lane = p.key.laneID
    · rw [hl, Function.update_self, Function.update_self]
      exact hq he
    · rw [Function.update_of_ne hl, Function.update_of_ne hl]
      exact h.queue he lane

/-! ### The fragments of a packet -/

variable {data : Bytes} {metadata : Metadata} {records pre rest : List Record} {record : Record}

/-- The fragments of `pre` have come, and nothing else is in the slots. -/
structure Filling (c : ReceiverConfig) (expected : UInt8 → UInt32) (now : Time)
    (metadata : Metadata) (records pre : List Record) (r : Receiver) : Prop where
  calm : Calm c expected r
  slots : (pre = [] ∧ ∀ j, (r.reassembly.slot j).state = .free) ∨
    ∃ i, Partly (keyOf 0 metadata) now records pre (r.reassembly.slot i) ∧
      ∀ j, j ≠ i → (r.reassembly.slot j).state = .free

/-- Nothing waits, and every slot is free. -/
structure Idle (c : ReceiverConfig) (expected : UInt8 → UInt32) (r : Receiver) : Prop where
  calm : Calm c expected r
  free : ∀ j, (r.reassembly.slot j).state = .free

theorem Calm.stored (h : Calm c expected r) (now : Time) (record : Record) :
    Calm c expected (r.stored now record) := by
  have hs := Reassembly.call_steps h.wf (.accept now record.key record)
  exact ⟨h.config, (Reassembly.Steps.config hs).1.trans h.store,
    Reassembly.Steps.wf hs h.wf, h.output, h.held, h.lane, h.queue⟩

section Fill
variable (hcuts : Cuts data metadata records) (hsession : metadata.dataSessionID ≠ 0)
  (hmax : data.length ≤ c.maxPacketSize) (hlife : 0 < c.lifetime)
include hcuts hsession hmax hlife

theorem Filling.accept (h : Filling c expected now metadata records pre r) (hr : record ∈ records) :
    Reassembly.Takes data records pre record
      (Reassembly.accept now (keyOf 0 metadata) record r.reassembly) ∧
    ∃ i, Partly (keyOf 0 metadata) now records (record :: pre)
      ((Reassembly.accept now (keyOf 0 metadata) record r.reassembly).2.slot i) ∧
      ∀ j, j ≠ i → ((Reassembly.accept now (keyOf 0 metadata) record r.reassembly).2.slot j).state =
        .free := by
  have hmax' : data.length ≤ r.reassembly.config.maxPacketSize := by
    rw [h.calm.store]
    exact hmax
  rcases h.slots with ⟨rfl, hfr⟩ | ⟨i, hpa, ho⟩
  · have hp : 0 < r.reassembly.config.maxPeers := by
      rw [h.calm.store]
      exact Nat.one_pos
    obtain ⟨htk, i, hnx, heq⟩ := Reassembly.accept_partly hcuts hsession rfl h.calm.wf hmax'
      now hp hr (fun j ha => absurd (hfr j) ha.1) (Reassembly.hasSlot_of_free h.calm.wf hfr)
    refine ⟨htk, i, hnx, fun j hj => ?_⟩
    rw [heq j hj]
    exact hfr j
  · have hn : now < now + r.reassembly.config.lifetime := by
      rw [h.calm.store]
      exact Int.lt_add_of_pos_right _ hlife
    obtain ⟨htk, hnx, heq⟩ := hpa.accept hcuts hsession rfl h.calm.wf hmax' hr hn
    refine ⟨htk, i, hnx, fun j hj => ?_⟩
    rw [heq j hj]
    exact ho j hj

/-- The last fragments of a packet that its lane expects: it is delivered, and its slot is free
again. -/
theorem Filling.visit (h : Filling c expected now metadata records pre r)
    (hre : records = pre ++ rest) (hne : rest ≠ [])
    (hs : metadata.laneSequence = expected metadata.laneID)
    (how : metadata.dataSessionID = c.dataSessionID)
    (ha : ∀ log data, answer log data = true) (hpa : r.passes data = true) :
    ∃ r', visitAll (acceptRecord now (some answer)) rest r = (.ok (), r') ∧
      Idle c (Function.update expected metadata.laneID (expected metadata.laneID + 1)) r' ∧
      r'.log = r.log ++ [(keyOf 0 metadata, data)] := by
  induction rest generalizing pre r with
  | nil => exact absurd rfl hne
  | cons record rest ih =>
    have hr : record ∈ records := by
      rw [hre]
      simp
    have hd := (hcuts.metadata record hr).1
    have hkey := Reassembly.cuts_key hcuts hr
    have hnw : record ∉ pre := (hre ▸ hcuts).fresh
    have hsm : record.header.dataSessionID = r.config.dataSessionID := by
      rw [hd, how, h.calm.config]
    obtain ⟨htk, i, hp, hot⟩ := h.accept hcuts hsession hmax hlife hr
    have hcalm := h.calm.stored now record
    rw [← hkey] at htk hp hot
    rw [visitAll, Eff.bind_apply]
    cases rest with
    | nil =>
      obtain ⟨p, evicted, hdn, hpk⟩ := htk.completed hnw (by simp [hre, or_comm])
      have hh := Reassembly.accept_holding h.calm.wf hdn
      have hpkey : p.key = keyOf 0 metadata :=
        (Reassembly.accept_completed h.calm.wf hdn).1.trans hkey
      rw [acceptRecord_completed hsm hdn]
      obtain ⟨r', hrun, hnx, hst, hl⟩ := hcalm.completed (p := p) now (by rw [hpkey]; rfl)
        (by rw [hpkey]; exact how) (by rw [hpkey]; exact hs) ha
        (by rw [show (r.stored now record).reassembly.data p = data from hpk]; exact hpa)
        hh.release
      rw [hrun]
      rw [hpkey] at hnx hl
      refine ⟨r', rfl, ⟨hnx, fun j => ?_⟩, ?_⟩
      · -- Only the slot of the packet was in use, and it is the one that is released.
        rw [hst]
        rcases Reassembly.release_cases hcalm.wf p.handle with ⟨hrl, hn⟩ | ⟨hrl, hat, hc⟩
        · exact absurd ⟨hh.state, hh.generation⟩ hn
        rw [hrl, hc.slot (Reassembly.Reassembler.lt_of_state (by rw [hat.1]; simp))]
        split
        · rfl
        rename_i hj
        have hid : p.handle.index = i := by
          by_contra hi
          have hfr := hot _ hi
          rw [hh.state] at hfr
          cases hfr
        exact hot j (by rw [← hid]; exact fun heq => hj heq.symm)
      · rw [hl]
        exact congrArg (fun d => r.log ++ [(keyOf 0 metadata, d)]) hpk
    | cons next rest =>
      have hr' : records = (pre ++ [record]) ++ next :: rest := by
        rw [hre, append_assoc]
        rfl
      have ho : next ∉ pre ++ [record] := (hr' ▸ hcuts).fresh
      obtain ⟨evicted, hdn⟩ := htk.accepted hnw ⟨next, by simp [hr'], by
        simpa [or_comm] using ho⟩
      rw [acceptRecord_open hsm hdn (by simp)]
      refine ih ⟨hcalm, .inr ⟨i, ?_, hot⟩⟩ hr' (by simp) hpa
      rw [← hkey]
      exact hp.congr (by simp [or_comm])

end Fill

/-! ### A whole transmission -/

def acceptAll (now : Time) (sink : Sink) : List Bytes → ReceiverM Unit
  | [] => pure ()
  | payload :: payloads => do
    acceptPayload now payload sink
    acceptAll now sink payloads

/-- However records are grouped into payloads, they are visited one after the other. -/
theorem acceptAll_encode {groups : List (List Record)} (sink : Sink)
    (hv : ∀ record ∈ groups.flatten, record.Valid) (hne : ∀ group ∈ groups, group ≠ []) :
    acceptAll now sink (groups.map (List.flatMap encodeRecord)) =
      visitAll (acceptRecord now sink) groups.flatten := by
  induction groups with
  | nil => rfl
  | cons group _ ih =>
    rw [flatten_cons, visitAll_append, map_cons, acceptAll,
      ih (fun record hr => hv record (by simp [mem_flatten.mp hr]))
        (fun g hg => hne g (mem_cons_of_mem _ hg))]
    unfold acceptPayload
    rw [parse_encode _ _ (fun record hr => hv record (by simp [hr]))
      (hne group (mem_cons_self ..))]

theorem Idle.receive {shipped shipments : List Shipment} (now : Time)
    (h : Idle c (nextSequences shipped) r) (hn : Numbered c.dataSessionID (shipped ++ shipments))
    (hsession : c.dataSessionID ≠ 0) (hlife : 0 < c.lifetime)
    (hmax : ∀ s ∈ shipments, s.data.length ≤ c.maxPacketSize)
    (hp : ∀ s ∈ shipments, r.passes s.data = true) (ha : ∀ log data, answer log data = true) :
    ∃ r', visitAll (acceptRecord now (some answer)) (shipments.flatMap Shipment.fragments) r =
      (.ok (), r') ∧ r'.log = r.log ++ shipments.map Shipment.entry := by
  induction shipments generalizing shipped r with
  | nil => exact ⟨r, rfl, by simp⟩
  | cons s shipments ih =>
    have hs : s ∈ shipped ++ s :: shipments := by simp
    have hcuts := hn.cuts s hs
    have ho := hn.session s hs
    have hfill : Filling c (nextSequences shipped) now s.metadata s.fragments [] r :=
      ⟨h.calm, .inl ⟨rfl, h.free⟩⟩
    obtain ⟨_, hrun, hid, hl⟩ := hfill.visit hcuts (by rw [ho]; exact hsession)
      (hmax s (mem_cons_self ..)) hlife (nil_append _).symm
      (ne_nil_of_length_pos hcuts.count.1) (hn.sequence _ _ _ rfl) ho ha
      (hp s (mem_cons_self ..))
    rw [← nextSequences_snoc] at hid
    obtain ⟨r', hr, hl'⟩ := ih hid (by simpa using hn)
      (fun t ht => hmax t (mem_cons_of_mem _ ht)) (by
        intro t ht
        have hpass := hp t (mem_cons_of_mem _ ht)
        unfold Receiver.passes at hpass ⊢
        rw [hid.calm.config, ← h.calm.config]
        exact hpass)
    refine ⟨r', ?_, ?_⟩
    · rw [flatMap_cons, visitAll_append, Eff.bind_apply, hrun]
      exact hr
    · rw [hl', hl, append_assoc]
      rfl

private theorem newConfiguredReceiver_idle {payloadOnly : Bool}
    (hn : newConfiguredReceiver c payloadOnly = .ok r) :
    Idle c (nextSequences []) r ∧ r.log = [] := by
  obtain ⟨_, -, reassembly, _, hre, hro, rfl⟩ := newConfiguredReceiver_ok hn
  obtain ⟨hwf, hfr⟩ := Reassembly.new_wf hre
  have hs : reassembly.config = c.reassembly := Reassembly.new_config hre
  refine ⟨⟨⟨rfl, hs, hwf, rfl, rfl, fun _ => rfl, fun he lane => ?_⟩, hfr⟩, rfl⟩
  exact ⟨((newConfiguredReceiver_fresh hn he).1.custody.queue lane),
    (Reorder.new_ok hro he).2.2⟩

/-- A new receiver delivers what a new sender of its session was given: every packet that was
added, trimmed, once and in order. -/
theorem transmit_delivered {config : SenderConfig} {s : Sender} {payloadOnly : Bool}
    (hsender : newPayloadSender config = (.ok s : Except (SendError Empty) Sender))
    (hzero : ∀ lane, s.sequences lane = 0) (hreceiver : newConfiguredReceiver c payloadOnly = .ok r)
    (hsession : c.dataSessionID = config.dataSessionID)
    (hmtu : config.remotePeerMTU ≤ c.maxPacketSize) (calls : List SenderCall)
    (hsource : ∀ early late packet parsed, .add early late packet ∈ calls →
      InnerIP.parse packet = .ok parsed → c.allowedIPs.validateSource c.peerID parsed.source = true)
    (now : Time) (answer : List (Key × Bytes) → Bytes → Bool)
    (hanswer : ∀ log data, answer log data = true) :
    ∃ r', acceptAll now (some answer) (Sender.transmit (calls ++ [.flush]) (s, [])).2 r =
      (.ok (), r') ∧ r'.log = Sender.sent (calls ++ [.flush]) (s, []) := by
  obtain ⟨_, hnot⟩ := newPayloadSender_shipped hsender hzero
  obtain ⟨hidle, hlog⟩ := newConfiguredReceiver_idle hreceiver
  obtain ⟨hrec, -⟩ := newConfiguredReceiver_ok hreceiver
  obtain ⟨shipments, hshi, hsent, hcar⟩ := hnot.transmit (calls ++ [.flush])
  have hflu : (Sender.transmit (calls ++ [.flush]) (s, [])).1.packetizer.buffer = [] := by
    obtain ⟨_, hbef, -⟩ := hnot.transmit calls
    unfold Sender.transmit
    rw [foldl_append]
    exact hbef.flushed
  obtain ⟨_, rest, hout, hbuf, hreo, hgro, hall, -⟩ := hshi.packed
  rw [hflu] at hbuf
  have hrest : rest = [] := by
    by_contra hne
    obtain ⟨_, _, rfl⟩ := exists_cons_of_ne_nil hne
    have hlen := congrArg List.length hbuf
    rw [flatMap_cons, length_append, length_encodeRecord] at hlen
    simp [headerSize] at hlen
    omega
  rw [hrest, append_nil, nil_append] at hreo
  have hnum : Numbered c.dataSessionID ([] ++ shipments) := by
    rw [hsession]
    exact hshi.numbered
  have hby : ∀ t ∈ shipments, t.data.length ≤ c.maxPacketSize ∧ r.passes t.data = true := by
    intro t ht
    obtain ⟨call, hmem, hcarr⟩ := hcar t ht
    cases call with
    | flush => exact hcarr.elim
    | add early late packet =>
      obtain ⟨parsed, hpar, hdata, hlen⟩ := hcarr
      refine ⟨Nat.le_trans hlen hmtu, ?_⟩
      have hadd : SenderCall.add early late packet ∈ calls := by simpa using hmem
      unfold Receiver.passes
      rw [hdata, (InnerIP.parseExact_data hpar).1, hidle.calm.config]
      exact hsource early late packet parsed hadd hpar
  obtain ⟨r', hrun, hdel⟩ := hidle.receive now hnum hrec.1
    hrec.2.2.2.2.2.2.1 (fun t ht => (hby t ht).1) (fun t ht => (hby t ht).2) hanswer
  refine ⟨r', ?_, ?_⟩
  · rw [hout, nil_append, acceptAll_encode _ (by rw [hreo]; exact hall) hgro, hreo]
    exact hrun
  · rw [hdel, hlog, hsent]
    rfl

theorem transmit_delivered_sample : ∃ s r r',
    newPayloadSender sampleSender = (.ok s : Except (SendError Empty) Sender) ∧
    newConfiguredReceiver { sampleReceiver with allowedIPs := sampleRoutes } true = .ok r ∧
    acceptAll 7 takeAll (Sender.transmit (sampleAdds ++ [.flush]) (s, [])).2 r = (.ok (), r') ∧
    r'.log = [(⟨0, 1, 3, 0⟩, sampleInner), (⟨0, 1, 3, 1⟩, sampleInner)] := by
  obtain ⟨s, hs⟩ : ∃ s, newPayloadSender sampleSender =
    (.ok s : Except (SendError Empty) Sender) := ⟨_, rfl⟩
  obtain ⟨r, hr⟩ : ∃ r, newConfiguredReceiver
    { sampleReceiver with allowedIPs := sampleRoutes } true = .ok r := ⟨_, rfl⟩
  have hsrc : ∀ early late packet parsed, SenderCall.add early late packet ∈ sampleAdds →
      InnerIP.parse packet = .ok parsed → sampleRoutes.validateSource 0 parsed.source = true := by
    intro early late packet parsed hmem hpar
    simp only [sampleAdds, mem_cons, SenderCall.add.injEq, not_mem_nil, or_false] at hmem
    rcases hmem with ⟨-, -, rfl⟩ | ⟨-, -, rfl⟩ | ⟨-, -, rfl⟩
    · cases hpar
      rfl
    · cases hpar
    · cases hpar
      rfl
  have hzero : ∀ lane, s.sequences lane = 0 := by
    obtain rfl := Except.ok.inj hs
    exact fun _ => rfl
  obtain ⟨r', hrun, hlog⟩ := transmit_delivered hs hzero hr rfl (by decide) sampleAdds hsrc 7
    (fun _ _ => true) (fun _ _ => rfl)
  refine ⟨s, r, r', hs, hr, hrun, ?_⟩
  rw [hlog]
  obtain rfl := Except.ok.inj hs
  rfl

end WgFrag.Data
