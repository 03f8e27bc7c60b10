import WgFrag.Shim.SlotSize

/-! Admission of native batches. A batch that finds enough free slots for its packets and for the
retained ones never meets a full ring: each packet begins at most `dataFragments` carriers, and the
carriers in use are paid for. -/
namespace WgFrag.Shim
open WgFrag.Lib WgFrag.Data Limits List

/-! ### Sums over peers -/

def total {α : Type} (f : α → ℕ) : List α → ℕ
  | [] => 0
  | x :: xs => f x + total f xs

theorem total_set {α : Type} (f : α → ℕ) {l : List α} {i : ℕ} {x y : α} (h : l[i]? = some x) :
    total f (l.set i y) + f x = total f l + f y := by
  induction l generalizing i with
  | nil => cases h
  | cons _ _ ih =>
    cases i with
    | zero =>
      obtain rfl := Option.some.inj h
      simp only [set_cons_zero, total]
      omega
    | succ i =>
      have hr := ih (i := i) h
      simp only [set_cons_succ, total]
      omega

theorem total_le_mul {α : Type} {f g : α → ℕ} {k : ℕ} {l : List α} (h : ∀ x ∈ l, f x ≤ k * g x) :
    total f l ≤ k * total g l := by
  induction l with
  | nil => exact Nat.zero_le _
  | cons x _ ih =>
    have hx := h x (mem_cons_self ..)
    have hr := ih fun y hy => h y (mem_cons_of_mem _ hy)
    simp only [total, Nat.mul_add]
    omega

private theorem ceilDiv_le_div (n d : ℕ) : ceilDiv n d ≤ (n + d - 1) / d := by
  unfold ceilDiv
  split
  · exact Nat.zero_le _
  · exact Nat.le_refl _

/-- A packet within the inner MTU begins at most as many carriers as its peer counts. -/
theorem packetCost_le {peer : PeerState} {innerMTU index : ℕ} {data : Bytes}
    (h : peer.Sound innerMTU index) (hlen : data.length ≤ innerMTU) :
    packetCost peer.sender data ≤ peer.dataFragments := by
  have hc : headerSize < peer.sender.config.carrierPayload := h.config.2.1
  have hh : dataHeaderSize = headerSize := rfl
  rw [h.fragments]
  unfold packetCost carrierFragmentCountForPayload carrierFragmentCount
  rw [h.payload]
  have hp : ipv6HeaderSize + peer.sender.config.carrierPayload - ipv6HeaderSize -
      dataHeaderSize = peer.sender.config.carrierPayload - headerSize := by omega
  rw [hp, if_neg (by omega)]
  have hmono := Fragment.ceilDiv_mono (d := peer.sender.config.carrierPayload - headerSize)
    (by omega) hlen
  have hd := ceilDiv_le_div innerMTU (peer.sender.config.carrierPayload - headerSize)
  omega

/-! ### One peer -/

/-- What the peer may still add to the ring: its carrier in use, and the retained packets of an open
gate. -/
def weight (fragments : ℕ) (peer : PeerState) : ℕ :=
  if peer.dataEnabled then begun peer.sender.packetizer.buffer + fragments * peer.pending.length
  else 0

/-- The ring has room for the peer and for `spare` carriers more. -/
structure Affords (fragments innerMTU index spare : ℕ) (s : PeerState × Tx) : Prop where
  sound : s.1.Sound innerMTU index
  bound : s.1.dataFragments ≤ fragments
  gate : s.1.dataEnabled = true
  room : s.2.queue.contents.length + weight fragments s.1 + spare ≤ s.2.queue.slots

/-- A call ends with room for `spare` carriers, or with an error other than a full ring; it has not
met a full ring. -/
structure Spared (fragments innerMTU index spare : ℕ) (s : PeerState × Tx)
    (out : Except TxError Unit × (PeerState × Tx)) : Prop where
  ok : out.1 = .ok () → Affords fragments innerMTU index spare out.2
  overflows : out.2.2.carrierQueueOverflows = s.2.carrierQueueOverflows
  slots : out.2.2.queue.slots = s.2.queue.slots

variable {fragments innerMTU index spare : ℕ} {s t : PeerState × Tx} {packet : Bytes}

theorem Packing.length {peer : PeerID} {pend records rest : List Record} {cost : ℕ}
    {p q : Packetizer} {t u : Tx} {groups : List (List Record)}
    (h : Packing peer pend records rest cost p q t u groups) :
    u.queue.contents.length + begun q.buffer ≤ t.queue.contents.length + begun p.buffer + cost := by
  have hcost := h.cost
  rw [h.gains.contents, length_append, length_map, length_map]
  omega

/-- A carrier that is refused within the room of the peer was too long for its slot. -/
theorem not_full {peer : PeerID} {pend records rest : List Record} {cost : ℕ}
    {p q : Packetizer} {t u v : Tx} {groups : List (List Record)} {e : QueueError}
    (h : Packing peer pend records rest cost p q t u groups) (hne : q.buffer ≠ [])
    (hrm : t.queue.contents.length + begun p.buffer + cost ≤ t.queue.slots)
    (hf : enqueuePayload peer q.buffer u = (.error e, v)) : v = u := by
  rcases enqueuePayload_error hf with ⟨-, hfu, -⟩ | ⟨-, -, rfl⟩
  · have hlen := h.length
    rw [begun_pos hne, hfu, h.gains.slots] at hlen
    omega
  · rfl

theorem flushSender_spared (h : Affords fragments innerMTU index spare s) :
    Spared fragments innerMTU index spare s (flushSender s) := by
  have he := flushSender_end h.sound.tidy
  have hrm := h.room
  unfold weight at hrm
  rw [h.gate, if_pos rfl] at hrm
  generalize flushSender s = out at he
  cases he with
  | @did u hd =>
    have hs := h.sound.did hd
    cases hd with
    | flushed _ hpk =>
      have hlen := hpk.length
      refine ⟨fun _ => ⟨hs, h.bound, h.gate, ?_⟩, hpk.gains.counters.1, hpk.gains.slots⟩
      unfold weight
      rw [if_pos (show s.1.resetPending.dataEnabled = true from h.gate), hpk.gains.slots]
      show u.queue.contents.length + (begun s.1.sender.packetizer.reset.buffer +
        fragments * s.1.pending.length) + spare ≤ s.2.queue.slots
      omega
  | failed hf =>
    refine ⟨nofun, ?_, (PeerFails.extends ⟨_, hf⟩).2.1⟩
    cases hf with
    | flush _ hne hfa =>
      rcases enqueuePayload_error hfa with ⟨-, _, -⟩ | ⟨-, -, rfl⟩
      · rw [begun_pos hne] at hrm
        omega
      · rfl

theorem offer_spared (hlen : packet.length ≤ innerMTU)
    (h : Affords fragments innerMTU index (spare + fragments) s) :
    Spared fragments innerMTU index spare s (offer packet s) := by
  have hof := offer_offered packet h.sound.tidy
  have hrm := h.room
  have hb := h.bound
  unfold weight at hrm
  rw [h.gate, if_pos rfl] at hrm
  have hcost : ∀ data, s.1.sender.inspect packet = (.ok data : Except TxError Bytes) →
      packetCost s.1.sender data ≤ fragments := fun data hd =>
    Nat.le_trans (packetCost_le h.sound (Nat.le_trans (Sender.inspect_length hd) hlen)) hb
  generalize offer packet s = out at hof
  cases hof with
  | @did _ _ hdi ho =>
    have hs := h.sound.did hdi
    cases hdi with
    | popped | flushed => exact ho.elim
    | refused =>
      refine ⟨fun _ => ⟨hs, hb, h.gate, ?_⟩, rfl, rfl⟩
      unfold weight
      dsimp only [dropTXPacket, Tx.tick]
      rw [h.gate, if_pos rfl]
      omega
    | @packed packet' data _ _ _ _ p u hi _ _ _ hpk =>
      obtain rfl : packet' = packet := ho
      have hle := hcost data hi
      have hl := hpk.length
      dsimp only [Tx.tick] at hl
      refine ⟨fun _ => ⟨hs, hb, h.gate, ?_⟩, hpk.gains.counters.1, hpk.gains.slots⟩
      unfold weight
      rw [h.gate, if_pos rfl, hpk.gains.slots]
      show u.queue.contents.length + (begun p.buffer + fragments * s.1.pending.length) + spare ≤
        s.2.queue.slots
      omega
  | failed hf =>
    refine ⟨nofun, ?_, (PeerFails.extends ⟨_, hf⟩).2.1⟩
    cases hf with
    | unsplit => rfl
    | packing _ data _ _ hi _ _ _ hpk hne hfa =>
      have hle := hcost data hi
      have hft : s.2.tick.queue.contents.length + begun s.1.sender.packetizer.buffer +
          packetCost s.1.sender data ≤ s.2.tick.queue.slots := by
        show s.2.queue.contents.length + begun s.1.sender.packetizer.buffer +
          packetCost s.1.sender data ≤ s.2.queue.slots
        omega
      rw [not_full hpk hne hft hfa]
      exact hpk.gains.counters.1

private theorem flushLoop_spared {packets : List Bytes} (hp : s.1.pending = packets)
    (h : Affords fragments innerMTU index spare s) :
    Spared fragments innerMTU index spare s (flushLoop packets.length s) := by
  induction packets generalizing s with
  | nil => exact flushSender_spared h
  | cons packet rest ih =>
    obtain ⟨q, hq, hrest⟩ := PendingQueue.pop_cons hp
    have hd : PeerDid s (.popped packet) ({ s.1 with pendingRing := q }, s.2) := .popped hq
    have hrm := h.room
    unfold weight at hrm
    rw [h.gate, if_pos rfl, hp, length_cons, Nat.mul_succ] at hrm
    -- The packet that is taken pays for its own carriers.
    have hpaid : Affords fragments innerMTU index (spare + fragments)
        ({ s.1 with pendingRing := q }, s.2) := by
      refine ⟨h.sound.did hd, h.bound, h.gate, ?_⟩
      unfold weight PeerState.pending
      dsimp only
      rw [h.gate, if_pos rfl, hrest]
      omega
    have hlen : packet.length ≤ innerMTU := by
      apply h.sound.short
      rw [hp]
      exact mem_cons_self ..
    rw [length_cons, flushLoop_cons hq]
    have hr : Spared fragments innerMTU index spare ({ s.1 with pendingRing := q }, s.2)
        ((offer packet >>= fun _ => flushLoop rest.length)
          ({ s.1 with pendingRing := q }, s.2)) := by
      have hof := offer_spared hlen hpaid
      have hk := offer_offered packet (s := ({ s.1 with pendingRing := q }, s.2)) hpaid.sound.tidy
      rw [Eff.bind_apply]
      generalize offer packet ({ s.1 with pendingRing := q }, s.2) = out at hof hk
      cases hk with
      | failed => exact ⟨nofun, hof.overflows, hof.slots⟩
      | did hd ho =>
        have hnx := ih ((hd.offers_pending ho).trans hrest) (hof.ok rfl)
        exact ⟨hnx.ok, hnx.overflows.trans hof.overflows, hnx.slots.trans hof.slots⟩
    exact ⟨hr.ok, hr.overflows, hr.slots⟩

theorem flushPending_spared (h : Affords fragments innerMTU index spare s) :
    Spared fragments innerMTU index spare s (flushPending s) := by
  unfold flushPending
  rw [← PendingQueue.packets_length]
  exact flushLoop_spared rfl h

/-! ### The device -/

namespace Device
variable {d : Device} {n : ℕ}

/-- What the peers may still add to the ring. -/
def load (d : Device) : ℕ := total (fun peer => peer.elim 0 (weight d.dataFragments)) d.peers

structure Affords (spare : ℕ) (d : Device) : Prop where
  sound : d.Sound
  room : d.tx.queue.contents.length + d.load + spare ≤ d.tx.queue.slots

structure Spared {ε : Type} (spare : ℕ) (d : Device) (out : Except ε Unit × Device) : Prop where
  ok : out.1 = .ok () → out.2.Affords spare
  overflows : out.2.tx.carrierQueueOverflows = d.tx.carrierQueueOverflows
  fragments : out.2.dataFragments = d.dataFragments
  innerMTU : out.2.innerMTU = d.innerMTU

theorem Spared.error {ε ε' : Type} {e : ε} {e' : ε'} {d' : Device}
    (h : Spared n d (.error e, d')) : Spared spare d (.error e', d') :=
  ⟨nofun, h.overflows, h.fragments, h.innerMTU⟩

theorem Spared.next {ε ε' : Type} {d' : Device} {out : Except ε' Unit × Device}
    (h : Spared n d ((.ok () : Except ε Unit), d')) (h' : Spared spare d' out) : Spared spare d out :=
  ⟨h'.ok, h'.overflows.trans h.overflows, h'.fragments.trans h.fragments,
    h'.innerMTU.trans h.innerMTU⟩

private theorem load_put {peer : PeerState} (hp : d.peerFor index = some peer) :
    (d.put index t).load + weight d.dataFragments peer = d.load + weight d.dataFragments t.1 :=
  total_set (fun peer : Option PeerState => peer.elim 0 (weight d.dataFragments))
    (peerFor_eq_some.mp hp)

private theorem onPeer_spared {x : PeerM Unit} {peer : PeerState}
    (hp : d.peerFor index = some peer) (hg : peer.dataEnabled = true)
    (hx : ∀ spare s, Shim.Affords d.dataFragments d.innerMTU index (spare + n) s →
      Shim.Spared d.dataFragments d.innerMTU index spare s (x s))
    (hd : d.Affords (spare + n)) : Spared spare d (onPeer index x d) := by
  obtain ⟨hs, hb⟩ := hd.sound.get hp
  have hrm := hd.room
  have hle : weight d.dataFragments peer ≤ d.load := by
    have he : (d.put index ({ peer with dataEnabled := false }, d.tx)).load +
        weight d.dataFragments peer = d.load + weight d.dataFragments
          { peer with dataEnabled := false } := load_put hp
    have hz : weight d.dataFragments { peer with dataEnabled := false } = 0 := rfl
    omega
  have hsp := hx (d.load - weight d.dataFragments peer + spare) (peer, d.tx)
    ⟨hs, hb, hg, by dsimp only; omega⟩
  rw [onPeer_eq hp]
  refine ⟨fun hok => ?_, hsp.overflows, rfl, rfl⟩
  obtain ⟨hs', hb', _, _⟩ := hsp.ok hok
  have hl := load_put (t := (x (peer, d.tx)).2) hp
  refine ⟨hd.sound.put hs' hb', ?_⟩
  dsimp only [put] at hl ⊢
  omega

theorem forEnabled_spared {x : PeerM Unit} {indices : List ℕ}
    (hx : ∀ index spare s, Shim.Affords d.dataFragments d.innerMTU index spare s →
      Shim.Spared d.dataFragments d.innerMTU index spare s (x s))
    (hd : d.Affords spare) : Spared spare d (forEnabled x indices d) := by
  induction indices generalizing d with
  | nil => exact ⟨fun _ => hd, rfl, rfl, rfl⟩
  | cons index indices ih =>
    unfold forEnabled
    rw [Eff.get_bind]
    split
    · next hg =>
      obtain ⟨_, hp, ho⟩ := (Option.any_eq_true _ _).mp hg
      have hfs : Spared spare d (onPeer index x d) :=
        onPeer_spared (n := 0) hp ho (fun spare s hs => hx index spare s hs) hd
      rw [Eff.bind_apply]
      generalize onPeer index x d = out at hfs
      obtain ⟨res, d'⟩ := out
      cases res with
      | error => exact hfs.error
      | ok =>
        have hf : d'.dataFragments = d.dataFragments := hfs.fragments
        have hm : d'.innerMTU = d.innerMTU := hfs.innerMTU
        exact hfs.next (ih (d := d') (by rw [hf, hm]; exact hx) (hfs.ok rfl))
    · exact ih hx hd

private theorem takePacket_spared (hlen : packet.length ≤ d.innerMTU)
    (hd : d.Affords (spare + d.dataFragments)) : Spared spare d (takePacket packet d) := by
  have hrm := hd.room
  unfold takePacket
  cases hr : d.routePacket packet with
  | error =>
    refine ⟨fun _ => ⟨hd.sound, ?_⟩, rfl, rfl, rfl⟩
    show d.tx.queue.contents.length + d.load + spare ≤ d.tx.queue.slots
    omega
  | ok found =>
    obtain ⟨index, peer⟩ := found
    have hp := routePacket_ok hr
    dsimp only
    split
    · next ho => exact onPeer_spared hp ho (fun spare s hs => offer_spared hlen hs) hd
    rename_i hcl
    have hcl : peer.dataEnabled = false := by simpa using hcl
    have heq := enqueuePending_same packet peer d.tx
    have hst : Did d _ (d.put index (enqueuePending packet peer d.tx)) :=
      .retained packet hr hp hcl hlen
    have hl := load_put (t := enqueuePending packet peer d.tx) hp
    have hw' : weight d.dataFragments (enqueuePending packet peer d.tx).1 = 0 := by
      unfold weight
      rw [heq.dataEnabled, hcl]
      rfl
    have hq : (enqueuePending packet peer d.tx).2.queue = d.tx.queue ∧
        (enqueuePending packet peer d.tx).2.carrierQueueOverflows = d.tx.carrierQueueOverflows := by
      unfold enqueuePending
      split <;> exact ⟨rfl, rfl⟩
    refine ⟨fun _ => ⟨hst.sound hd.sound, ?_⟩, hq.2, rfl, rfl⟩
    show (enqueuePending packet peer d.tx).2.queue.contents.length +
      (d.put index (enqueuePending packet peer d.tx)).load + spare ≤
        (enqueuePending packet peer d.tx).2.queue.slots
    rw [hq.1]
    omega

private theorem readLoop_spared {reads : List NativeRead}
    (hd : d.Affords (spare + d.dataFragments * reads.length)) :
    Spared spare d (readLoop reads d) := by
  induction reads generalizing d with
  | nil => exact ⟨fun _ => hd, rfl, rfl, rfl⟩
  | cons read reads ih =>
    unfold readLoop
    split
    · exact ⟨fun h => (by cases h), rfl, rfl, rfl⟩
    rename_i hsz
    have hlen : (read.buffer.take read.size.toNat).length ≤ d.innerMTU := by
      rw [length_take]
      omega
    rw [length_cons, Nat.mul_succ, ← Nat.add_assoc] at hd
    have ht := takePacket_spared hlen hd
    generalize takePacket (read.buffer.take read.size.toNat) d = out at ht
    obtain ⟨res, d'⟩ := out
    cases res with
    | error => exact ht.error
    | ok =>
      have hf : d'.dataFragments = d.dataFragments := ht.fragments
      have hnx : d'.Affords (spare + d.dataFragments * reads.length) := ht.ok rfl
      rw [← hf] at hnx
      exact ht.next (ih hnx)

private theorem failBatch_overflows (startCount : ℕ) (e : TxError) :
    (d.failBatch startCount e).2.tx.carrierQueueOverflows = d.tx.carrierQueueOverflows := by
  unfold failBatch
  split <;> rfl

private theorem processNativeBatch_spared {reads : List NativeRead}
    (hd : d.Affords (d.dataFragments * reads.length)) :
    (processNativeBatch reads d).2.tx.carrierQueueOverflows = d.tx.carrierQueueOverflows := by
  unfold processNativeBatch
  have hfs : Spared (d.dataFragments * reads.length) d
      (forEnabled flushPending (List.range d.peers.length) d) :=
    forEnabled_spared (fun index spare s hs => flushPending_spared hs) hd
  generalize forEnabled flushPending (List.range d.peers.length) d = out at hfs
  obtain ⟨res, d1⟩ := out
  cases res with
  | error e => exact (failBatch_overflows _ e).trans hfs.overflows
  | ok u =>
    have hf : d1.dataFragments = d.dataFragments := hfs.fragments
    have hst : d1.Affords (0 + d1.dataFragments * reads.length) := by
      rw [hf, Nat.zero_add]
      exact hfs.ok rfl
    have hr := readLoop_spared hst
    dsimp only
    generalize readLoop reads d1 = out at hr
    obtain ⟨res, d2⟩ := out
    cases res with
    | error e =>
      cases e with
      | size => exact hr.overflows.trans hfs.overflows
      | send e =>
        exact (failBatch_overflows _ e).trans (hr.overflows.trans hfs.overflows)
    | ok =>
      have hl : Spared 0 d2 (forEnabled flushSender (List.range d2.peers.length) d2) :=
        forEnabled_spared (fun index spare s hs => flushSender_spared hs) (hr.ok rfl)
      dsimp only
      generalize forEnabled flushSender (List.range d2.peers.length) d2 = out at hl
      obtain ⟨res, d3⟩ := out
      have ha : d3.tx.carrierQueueOverflows = d.tx.carrierQueueOverflows :=
        hl.overflows.trans (hr.overflows.trans hfs.overflows)
      cases res with
      | error e => exact (failBatch_overflows _ e).trans ha
      | ok => exact ha

/-- The retained packets of the peers with open gates. -/
def openRetained (d : Device) : ℕ :=
  total (fun peer => peer.elim 0 fun p => if p.dataEnabled then p.pending.length else 0) d.peers

/-- Without carriers in use the retained packets are all that the peers may add. -/
theorem load_le (hr : d.reading = true) (hd : d.Drained) :
    d.load ≤ d.dataFragments * d.openRetained := by
  apply total_le_mul
  intro peer hp
  cases peer with
  | none => exact Nat.zero_le _
  | some peer =>
    obtain ⟨index, hi⟩ := mem_iff_getElem?.mp hp
    show weight d.dataFragments peer ≤ d.dataFragments * if peer.dataEnabled then _ else _
    unfold weight
    by_cases ho : peer.dataEnabled = true
    · rw [if_pos ho, if_pos ho, hd hr index peer hi ho, begun_nil]
      omega
    · rw [if_neg ho]
      exact Nat.zero_le _

/-- A native batch that finds a free slot for every fragment of its packets and of the retained ones
does not meet a full ring. -/
theorem batch_admission (hd : d.Reached) (reads : List NativeRead)
    (hfree : (reads.length + d.openRetained) * d.dataFragments ≤
      d.tx.queue.slots - d.tx.queue.contents.length) :
    (d.call (.batch reads)).tx.carrierQueueOverflows = d.tx.carrierQueueOverflows := by
  obtain ⟨hsnd, hdra⟩ := hd.sound
  unfold call
  dsimp only
  split
  · next hrea =>
    apply processNativeBatch_spared
    have hload := load_le hrea hdra
    have hlen := d.tx.queue.length_le_slots
    rw [Nat.add_mul, Nat.mul_comm, Nat.mul_comm d.openRetained] at hfree
    exact ⟨hsnd, by omega⟩
  · rfl

/-- One peer with a closed gate. -/
def gatedConfig (carrierQueueSize : ℕ) : DeviceConfig :=
  { wideConfig carrierQueueSize with dataInitiallyEnabled := false, batch := 16 }

private theorem gatedConfig_accepted9 : (new (gatedConfig 9) true).toOption.isSome = true := by
  decide +kernel

def inner40 : Bytes :=
  [0x45, 0, 0, 40, 0, 0, 0, 0, 64, 17, 0, 0, 10, 0, 0, 1, 10, 0, 0, 2] ++ List.replicate 20 0

/-- The ring is full when the gate opens on two packets. The first one is lost, and the second one
stays retained. -/
def crowdedDevice : Device :=
  ((new (gatedConfig 9) true).toOption.get gatedConfig_accepted9).runCalls
    ([.setDataEnabled 0 true, .batch (List.replicate 4 ⟨1280, widePacket⟩), .setDataEnabled 0 false,
      .batch [⟨1280, widePacket⟩, ⟨40, inner40⟩], .setDataEnabled 0 true] ++ List.replicate 9 .dequeue)

private theorem crowdedDevice_reached : crowdedDevice.Reached :=
  ⟨gatedConfig 9, true, _, _, ok_get gatedConfig_accepted9, rfl⟩

def smallReads : List NativeRead := [⟨40, inner40⟩, ⟨40, inner40⟩]

/-- A retained packet, and two packets that share a carrier. -/
theorem batch_admission_sample : crowdedDevice.Reached ∧ crowdedDevice.openRetained = 1 ∧
    crowdedDevice.dataFragments = 3 ∧
    (smallReads.length + crowdedDevice.openRetained) * crowdedDevice.dataFragments ≤
      crowdedDevice.tx.queue.slots - crowdedDevice.tx.queue.contents.length ∧
    (crowdedDevice.call (.batch smallReads)).tx.queue.contents.length = 2 ∧
    (crowdedDevice.call (.batch smallReads)).tx.carrierQueueOverflows =
      crowdedDevice.tx.carrierQueueOverflows := by
  have hstart : crowdedDevice.openRetained = 1 ∧ crowdedDevice.dataFragments = 3 ∧
      (smallReads.length + crowdedDevice.openRetained) * crowdedDevice.dataFragments ≤
        crowdedDevice.tx.queue.slots - crowdedDevice.tx.queue.contents.length ∧
      (crowdedDevice.call (.batch smallReads)).tx.queue.contents.length = 2 := by decide +kernel
  obtain ⟨hret, hfra, hfree, hlen⟩ := hstart
  exact ⟨crowdedDevice_reached, hret, hfra, hfree, hlen,
    batch_admission crowdedDevice_reached smallReads hfree⟩

end Device
end WgFrag.Shim
