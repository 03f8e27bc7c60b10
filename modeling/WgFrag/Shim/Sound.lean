import WgFrag.Shim.Batch

/-! What holds of the transmit side in every run of its calls: each peer's sender is the one of its
configuration, and the carrier in use of an open gate is empty between calls. -/
namespace WgFrag.Shim
open WgFrag.Lib WgFrag.Data Limits List

/-! ### Peers by their place -/

/-- `P` holds of every peer at its place. -/
def Each (P : ℕ → PeerState → Prop) (peers : Peers) : Prop :=
  ∀ index peer, peers[index]? = some (some peer) → P index peer

namespace Each
variable {P Q : ℕ → PeerState → Prop} {peers : Peers} {index : ℕ}
  {peer : PeerState}

theorem imp (h : Each P peers) (hi : ∀ i p, P i p → Q i p) : Each Q peers :=
  fun i p hp => hi i p (h i p hp)

theorem set (h : Each P peers) (hpr : P index peer) : Each P (peers.set index (some peer)) := by
  intro i p hp
  rw [getElem?_set] at hp
  split_ifs at hp with heq hlt
  · obtain rfl := Option.some.inj (Option.some.inj hp)
    exact heq ▸ hpr
  · exact h i p hp

theorem set_none (h : Each P peers) : Each P (peers.set index none) := by
  intro i p hp
  rw [getElem?_set] at hp
  split_ifs at hp
  · cases hp
  · exact h i p hp

theorem holes (h : Each P peers) (n : ℕ) : Each P (peers ++ List.replicate n none) := by
  intro i p hp
  rw [getElem?_append] at hp
  split_ifs at hp
  · exact h i p hp
  · have hmem := eq_of_mem_replicate (mem_of_getElem? hp)
    cases hmem

theorem map {f : PeerState → PeerState} (h : Each P peers) (hf : ∀ i p, P i p → Q i (f p)) :
    Each Q (peers.map (Option.map f)) := by
  intro i p hp
  rw [getElem?_map] at hp
  obtain ⟨found, hfo, heq⟩ := Option.map_eq_some_iff.mp hp
  cases found with
  | none => cases heq
  | some q =>
    obtain rfl := Option.some.inj heq
    exact hf i q (h i q hfo)

end Each

theorem foldl_max_le {α : Type} (f : α → ℕ) (l : List α) (m : ℕ) :
    m ≤ l.foldl (fun m x => max m (f x)) m ∧ ∀ x ∈ l, f x ≤ l.foldl (fun m x => max m (f x)) m := by
  induction l generalizing m with
  | nil => exact ⟨Nat.le_refl m, fun _ hx => absurd hx not_mem_nil⟩
  | cons y l ih =>
    obtain ⟨hle, ha⟩ := ih (max m (f y))
    rw [foldl_cons]
    refine ⟨Nat.le_trans (Nat.le_max_left _ _) hle, fun x hx => ?_⟩
    rcases mem_cons.mp hx with rfl | hx
    · exact Nat.le_trans (Nat.le_max_right _ _) hle
    · exact ha x hx

theorem foldl_max_bound {α : Type} {f : α → ℕ} {l : List α} {m n : ℕ} (hm : m ≤ n)
    (h : ∀ x ∈ l, f x ≤ n) : l.foldl (fun m x => max m (f x)) m ≤ n :=
  List.foldlRecOn (motive := fun m => m ≤ n) l _ hm fun _ hm x hx => Nat.max_le.mpr ⟨hm, h x hx⟩

theorem le_maxPeerFragments {peers : Peers} {peer : PeerState}
    (h : some peer ∈ peers) : peer.dataFragments ≤ maxPeerFragments peers :=
  (foldl_max_le (fun p : Option PeerState => p.elim 0 PeerState.dataFragments) peers 1).2 _ h

theorem le_maxPeerCarrierSize {peers : Peers} {peer : PeerState}
    (h : some peer ∈ peers) : peer.dataCarrierSize ≤ maxPeerCarrierSize peers :=
  (foldl_max_le (fun p : Option PeerState => p.elim 0 PeerState.dataCarrierSize) peers 0).2 _ h

/-! ### Sound peers -/

structure PeerState.Sound (innerMTU index : ℕ) (peer : PeerState) : Prop where
  tidy : peer.Tidy
  config : peer.sender.config.Valid
  minimum : ValidMinCarrierPayload peer.sender.config.remotePeerMTU
    peer.sender.config.carrierPayload
  payload : peer.sender.packetizer.carrierPayload = peer.sender.config.carrierPayload
  minPack : peer.sender.packetizer.minPack = peer.sender.config.minPack
  session : peer.txSession = peer.sender.config.dataSessionID
  size : peer.dataCarrierSize = peer.sender.config.carrierPayload + ipv6HeaderSize
  fragments : peer.dataFragments =
    carrierFragmentCountForPayload peer.sender.config.carrierPayload innerMTU
  peerID : peer.sender.config.peerID = index
  slot : peer.pendingRing.ring.stride = innerMTU

namespace PeerState
variable {innerMTU index : ℕ} {peer peer' : PeerState}

theorem Sound.short (h : peer.Sound innerMTU index) :
    ∀ packet ∈ peer.pending, packet.length ≤ innerMTU :=
  h.slot ▸ peer.pendingRing.packets_short

theorem Sound.same (h : peer.Sound innerMTU index) (heq : SamePeer peer peer')
    (htidy : peer'.Tidy) : peer'.Sound innerMTU index where
  tidy := htidy
  config := heq.config ▸ h.config
  minimum := heq.config ▸ h.minimum
  payload := by rw [heq.carrierPayload, h.payload, heq.config]
  minPack := by rw [heq.minPack, h.minPack, heq.config]
  session := by rw [heq.txSession, h.session, heq.config]
  size := by rw [heq.dataCarrierSize, h.size, heq.config]
  fragments := by rw [heq.dataFragments, h.fragments, heq.config]
  peerID := by rw [heq.config, h.peerID]
  slot := heq.stride.trans h.slot

theorem Sound.retained (h : peer.Sound innerMTU index) (packet : Bytes) (tx : Tx) :
    (enqueuePending packet peer tx).1.Sound innerMTU index :=
  h.same (enqueuePending_same packet peer tx) (Device.enqueuePending_tidy packet peer tx h.tidy)

theorem Sound.did {s t : PeerState × Tx} {ev : PeerEvent} (h : s.1.Sound innerMTU index)
    (hd : PeerDid s ev t) : t.1.Sound innerMTU index := h.same hd.same (hd.tidy h.tidy)

theorem Sound.fails {s t : PeerState × Tx} {e : TxError} (h : s.1.Sound innerMTU index)
    (hf : PeerFails s e t) : t.1.Sound innerMTU index := h.same hf.same (hf.tidy h.tidy)

theorem Sound.reset (h : peer.Sound innerMTU index) : peer.resetPending.Sound innerMTU index :=
  h.same (by constructor <;> rfl) ⟨⟨[], rfl, fun _ hr => absurd hr not_mem_nil⟩, Nat.zero_le _⟩

theorem Sound.gate (h : peer.Sound innerMTU index) (enabled : Bool) :
    ({ peer with dataEnabled := enabled } : PeerState).Sound innerMTU index :=
  ⟨⟨h.tidy.holds, h.tidy.fits⟩, h.config, h.minimum, h.payload, h.minPack, h.session, h.size,
    h.fragments, h.peerID, h.slot⟩

end PeerState

theorem newPayloadSender_ok {c : SenderConfig} {s : Sender}
    (h : (newPayloadSender c : Except TxError Sender) = .ok s) :
    c.Valid ∧ s.config = c ∧ s.packetizer = ⟨c.carrierPayload, c.minPack, []⟩ := by
  unfold newPayloadSender at h
  split_ifs at h with hv
  cases hi : (Packetizer.init c.carrierPayload c.carrierPayload c.minPack :
      Except (PackError QueueError) Packetizer) with
  | error e =>
    rw [hi] at h
    cases h
  | ok packetizer =>
    rw [hi] at h
    obtain rfl := Except.ok.inj h
    unfold Packetizer.init at hi
    split_ifs at hi
    exact ⟨hv, rfl, (Except.ok.inj hi).symm⟩

theorem newPayloadSender_tidy {c : SenderConfig} {s : Sender}
    (h : (newPayloadSender c : Except TxError Sender) = .ok s) :
    (∃ pend, Holds s.packetizer.buffer pend) ∧
      s.packetizer.buffer.length ≤ s.packetizer.carrierPayload := by
  obtain ⟨-, -, hp⟩ := newPayloadSender_ok h
  rw [hp]
  exact ⟨⟨[], rfl, fun _ hr => absurd hr not_mem_nil⟩, Nat.zero_le _⟩

namespace Device
variable {d d' : Device} {index : ℕ} {peer : PeerState}
variable {accepted : Bool} {c : DeviceConfig} {innerMTU : ℕ} {out : Except DeviceError Unit × Device}
  {id : PeerID} {config : SenderConfig} {removed : List PeerID} {routes : Option Route.Snapshot}
  {added : PeerConfigs}

def Sound (d : Device) : Prop :=
  Each (fun index peer => peer.Sound d.innerMTU index ∧ peer.dataFragments ≤ d.dataFragments) d.peers

/-- While the native reader runs, the carriers in use of open gates are empty. -/
def Drained (d : Device) : Prop := d.reading = true →
  Each (fun _ peer => peer.dataEnabled = true → peer.sender.packetizer.buffer = []) d.peers

theorem Sound.tidy (h : d.Sound) : d.Tidy := by
  intro peer hp
  obtain ⟨index, hi⟩ := mem_iff_getElem?.mp hp
  exact (h index peer hi).1.tidy

theorem Sound.get (h : d.Sound) (hp : d.peerFor index = some peer) :
    peer.Sound d.innerMTU index ∧ peer.dataFragments ≤ d.dataFragments :=
  h index peer (peerFor_eq_some.mp hp)

theorem Sound.put (h : d.Sound) {s : PeerState × Tx} (hs : s.1.Sound d.innerMTU index)
    (hf : s.1.dataFragments ≤ d.dataFragments) : (d.put index s).Sound :=
  Each.set h ⟨hs, hf⟩

theorem Did.sound {ev : Event} (h : Did d ev d') (hd : d.Sound) : d'.Sound := by
  cases h with
  | dropped => exact hd
  | @retained _ peer packet _ hp _ hlen =>
    obtain ⟨hs, hf⟩ := hd.get hp
    have heq := enqueuePending_same packet peer d.tx
    exact hd.put (hs.retained packet _) (heq.dataFragments ▸ hf)
  | peer hp hdi =>
    obtain ⟨hs, hf⟩ := hd.get hp
    exact hd.put (hs.did hdi) (hdi.same.dataFragments ▸ hf)

theorem Fails.sound {e : TxError} (h : Fails d e d') (hd : d.Sound) : d'.Sound := by
  cases h with
  | peer hp hf =>
    obtain ⟨hs, hfr⟩ := hd.get hp
    exact hd.put (hs.fails hf) (hf.same.dataFragments ▸ hfr)

theorem chain_sound {log : List Event} (h : Chain Did d log d') (hd : d.Sound) : d'.Sound :=
  h.invariant (fun _ _ _ hdi => hdi.sound) hd

theorem failBatch_sound (hd : d.Sound) (startCount : ℕ) (e : TxError) :
    (d.failBatch startCount e).2.Sound := by
  unfold failBatch
  split
  · exact Each.map hd fun i p hp => ⟨hp.1.reset, hp.2⟩
  · exact hd

theorem Batched.sound {reads : List NativeRead} (h : Batched reads d d') (hd : d.Sound) :
    d'.Sound :=
  h.rule hd Did.sound (fun _ h => h) (fun hf h => failBatch_sound (hf.sound h) _ _) fun _ h => h

/-- A batch that failed has reset every carrier in use, or has stopped the reader. -/
theorem failBatch_drained (startCount : ℕ) (e : TxError) :
    (d.failBatch startCount e).2.Drained := by
  unfold failBatch
  split
  · intro _ index peer hp _
    rw [getElem?_map] at hp
    obtain ⟨found, -, heq⟩ := Option.map_eq_some_iff.mp hp
    cases found with
    | none => cases heq
    | some =>
      obtain rfl := Option.some.inj heq
      rfl
  · intro hr
    cases hr

/-- After a batch the open gates have no carrier in use, unless the reader has stopped. -/
theorem Batched.drained {reads : List NativeRead} (h : Batched reads d d') : d'.Drained := by
  cases h with
  | done _ _ _ hb => exact fun _ i peer hp => hb i peer (peerFor_eq_some.mpr hp)
  | entering | failed => exact failBatch_drained _ _
  | size =>
    intro hr
    cases hr

/-! ### The other calls -/

theorem chain_sound_peer {s t : PeerState × Tx} {log : List PeerEvent}
    (h : Chain PeerDid s log t) (hs : s.1.Sound innerMTU index) :
    t.1.Sound innerMTU index ∧ SamePeer s.1 t.1 := by
  induction h with
  | nil s => exact ⟨hs, SamePeer.refl s.1⟩
  | cons hd _ ih =>
    obtain ⟨hsn, heq⟩ := ih (hs.did hd)
    exact ⟨hsn, hd.same.trans heq⟩

theorem GateSet.sound {enabled : Bool} (h : GateSet id d enabled out) (hd : d.Sound) :
    out.2.Sound := by
  cases h with
  | unknown => exact hd
  | closed hpr =>
    obtain ⟨hs, hfr⟩ := hd.get hpr
    have htidy := hs.tidy
    exact hd.put ⟨⟨htidy.holds, htidy.fits⟩, hs.config, hs.minimum, hs.payload,
      hs.minPack, hs.session, hs.size, hs.fragments, hs.peerID, hs.slot⟩ hfr
  | already => exact hd
  | opened hpr _ hch =>
    obtain ⟨hs, hfr⟩ := hd.get hpr
    obtain ⟨hs', heq⟩ := chain_sound_peer hch (hs.gate true)
    exact hd.put hs' (heq.dataFragments ▸ hfr)
  | full hpr _ hch hf =>
    obtain ⟨hs, hfr⟩ := hd.get hpr
    obtain ⟨hs', heq⟩ := chain_sound_peer hch (hs.gate true)
    exact hd.put (hs'.fails hf).reset
      ((heq.trans hf.same).dataFragments ▸ hfr)
  | fatal hpr _ hch hf =>
    obtain ⟨hs, hfr⟩ := hd.get hpr
    obtain ⟨hs', heq⟩ := chain_sound_peer hch (hs.gate true)
    exact hd.put ((hs'.fails hf).gate false)
      ((heq.trans hf.same).dataFragments ▸ hfr)

def replanned (innerMTU : ℕ) (peer : PeerState) (config : SenderConfig) (sender : Sender) :
    PeerState :=
  { peer with
    sender := sender
    txSession := config.dataSessionID
    remoteMTU := config.remotePeerMTU
    dataFragments := carrierFragmentCountForPayload config.carrierPayload innerMTU
    dataCarrierSize := config.carrierPayload + ipv6HeaderSize }

/-- The device with the new sender in place. -/
def placed (d : Device) (id : PeerID) (peer : PeerState) : Device :=
  { d.setPeer id peer with dataFragments := maxPeerFragments (d.setPeer id peer).peers }

/-- The slots that the device's own peers need. -/
def activeSlots (d : Device) : ℕ :=
  activeCarrierQueueSlots d.maxInt d.queueLimit d.dataFragments d.batch (activePeerCount d.peers)

/-- The ring for the peers would be empty or too large for an `int`. -/
def Overflowing (d : Device) : Prop :=
  d.activeSlots = 0 ∨ maxPeerCarrierSize d.peers = 0 ∨
    d.maxInt / d.activeSlots < maxPeerCarrierSize d.peers

/-- How a call of `InstallDataPlane` ends: it is refused and nothing changes, or the new sender is
in place and the last check refuses the ring, or the ring is replaced as well. -/
inductive InstallEnd (id : PeerID) (config : SenderConfig) (d : Device) :
    Except DeviceError Unit × Device → Prop
  | refused (e : DeviceError) : InstallEnd id config d (.error e, d)
  | late {peer : PeerState} {sender : Sender} : d.peerFor id = some peer → config.peerID = id →
    config.carrierPayload + ipv6HeaderSize ≤ d.controlStride →
    ValidMinCarrierPayload config.remotePeerMTU config.carrierPayload →
    (newPayloadSender (carried peer config) : Except TxError Sender) = .ok sender →
    (d.placed id (replanned d.innerMTU peer (carried peer config) sender)).Overflowing →
    InstallEnd id config d (.error .invalidConfig,
      d.placed id (replanned d.innerMTU peer (carried peer config) sender))
  | done {peer : PeerState} {sender : Sender} {queue : DataQueue} : d.peerFor id = some peer →
    config.peerID = id → config.carrierPayload + ipv6HeaderSize ≤ d.controlStride →
    ValidMinCarrierPayload config.remotePeerMTU config.carrierPayload →
    (newPayloadSender (carried peer config) : Except TxError Sender) = .ok sender →
    queue.contents = [] → queue.ring.stride = maxPeerCarrierSize
      (d.placed id (replanned d.innerMTU peer (carried peer config) sender)).peers →
    queue.slots = (d.placed id (replanned d.innerMTU peer (carried peer config) sender)).activeSlots →
    InstallEnd id config d (.ok (),
      (d.placed id (replanned d.innerMTU peer (carried peer config) sender)).setQueue queue)

theorem installDataPlane_end (id : PeerID) (config : SenderConfig) (accepted : Bool) (d : Device) :
    InstallEnd id config d (installDataPlane id config accepted d) := by
  unfold installDataPlane
  split
  · exact .refused _
  rename_i hc
  simp only [not_or, not_not, Nat.not_lt] at hc
  obtain ⟨-, -, hid, hco, hmin⟩ := hc
  cases hp : d.peerFor id with
  | none => exact .refused _
  | some peer =>
    dsimp only
    cases hs : (newPayloadSender (carried peer config) : Except TxError Sender) with
    | error => exact .refused _
    | ok sender =>
      dsimp only
      split
      · next hl => exact .late hp hid hco hmin hs hl
      rename_i hsz
      split
      · obtain ⟨hc, hst, hsl⟩ := DataQueue.make_spec
          (Nat.pos_of_ne_zero (not_or.mp hsz).1)
        exact .done hp hid hco hmin hs hc hst hsl
      rename_i heq
      obtain ⟨hst, hsl⟩ := not_or.mp heq
      obtain ⟨hc, hst', hsl'⟩ := DataQueue.discard_spec d.tx.queue
      exact .done hp hid hco hmin hs hc (hst'.trans (not_not.mp hst).symm)
        (hsl'.trans (not_not.mp hsl).symm)

theorem carried_eq (peer : PeerState) (config : SenderConfig) :
    (carried peer config).carrierPayload = config.carrierPayload ∧
      (carried peer config).remotePeerMTU = config.remotePeerMTU ∧
      (carried peer config).peerID = config.peerID := by
  unfold carried
  split <;> exact ⟨rfl, rfl, rfl⟩

theorem replanned_sound {config : SenderConfig} {sender : Sender}
    (hpr : peer.Sound innerMTU index) (hid : config.peerID = index)
    (hm : ValidMinCarrierPayload config.remotePeerMTU config.carrierPayload)
    (hs : (newPayloadSender (carried peer config) : Except TxError Sender) = .ok sender) :
    (replanned innerMTU peer (carried peer config) sender).Sound innerMTU index := by
  obtain ⟨hpy, hmt, hpeI⟩ := carried_eq peer config
  obtain ⟨hv, hcf, hpa⟩ := newPayloadSender_ok hs
  obtain ⟨hh, hf⟩ := newPayloadSender_tidy hs
  have hsn : ∀ c, sender.config = c → sender.packetizer = ⟨c.carrierPayload, c.minPack, []⟩ →
      c.Valid → ValidMinCarrierPayload c.remotePeerMTU c.carrierPayload → c.peerID = index →
      (replanned innerMTU peer c sender).Sound innerMTU index := by
    rintro _ rfl hp hc hmin hci
    exact ⟨⟨hh, hf⟩, hc, hmin, congrArg Packetizer.carrierPayload hp,
      congrArg Packetizer.minPack hp, rfl, rfl, rfl, hci, hpr.slot⟩
  refine hsn _ hcf hpa hv ?_ (hpeI.trans hid)
  rw [hpy, hmt]
  exact hm

theorem placed_sound {id : PeerID} {peer' : PeerState} (hd : d.Sound)
    (hpr : peer'.Sound d.innerMTU id) : (d.placed id peer').Sound := by
  intro i p hp
  refine ⟨?_, le_maxPeerFragments (mem_of_getElem? hp)⟩
  have he : Each (fun i p => p.Sound d.innerMTU i) (d.peers.set id (some peer')) :=
    Each.set (Each.imp hd fun i p h => h.1) hpr
  exact he i p hp

theorem InstallEnd.sound (h : InstallEnd id config d out) (hd : d.Sound) : out.2.Sound := by
  cases h with
  | refused => exact hd
  | late hp hid _ hmin hs | done hp hid _ hmin hs =>
    exact placed_sound hd (replanned_sound (hd.get hp).1 hid hmin hs)

/-! ### Replacement of peers -/

theorem newPeerState_ok {id : PeerID} {config : SenderConfig}
    (h : d.newPeerState id config = .ok peer) : peer.dataEnabled = false ∧ peer.pending = [] ∧
      peer.sender.config = config ∧ peer.sender.packetizer.buffer = [] ∧
      (config.peerID = id → ValidMinCarrierPayload config.remotePeerMTU config.carrierPayload →
        peer.Sound d.innerMTU id) := by
  unfold newPeerState at h
  cases hs : (newPayloadSender config : Except TxError Sender) with
  | error => simp [hs] at h
  | ok =>
    simp only [hs] at h
    obtain rfl := Except.ok.inj h
    obtain ⟨hv, hc, hpa⟩ := newPayloadSender_ok hs
    have htidy := newPayloadSender_tidy hs
    refine ⟨rfl, PendingQueue.make_packets _, hc, congrArg Packetizer.buffer hpa, fun hid hmin => ?_⟩
    subst hc
    exact ⟨⟨htidy.1, htidy.2⟩, hv, hmin, congrArg Packetizer.carrierPayload hpa,
      congrArg Packetizer.minPack hpa, rfl, Nat.add_comm _ _, rfl, hid, rfl⟩

section Replace
variable {P : ℕ → PeerState → Prop} {peers peers' : Peers}

theorem removePeers_each {ids : List PeerID} (h : Each P peers)
    (hrun : removePeers ids peers = some peers') : Each P peers' := by
  induction ids generalizing peers with
  | nil =>
    obtain rfl := Option.some.inj hrun
    exact h
  | cons _ _ ih =>
    unfold removePeers at hrun
    split_ifs at hrun
    exact ih h.set_none hrun

/-- The configuration of a new peer, with the routes of the call. -/
def withRoutes (routes : Option Route.Snapshot) (config : SenderConfig) : SenderConfig :=
  if routes.isSome then { config with allowedIPs := routes } else config

theorem addPeers_each {routes : Option Route.Snapshot} {added : PeerConfigs}
    (h : Each P peers) (hne : ∀ new ∈ added, ∀ peer,
      d.newPeerState new.1 (withRoutes routes new.2) = .ok peer → P new.1 peer)
    (hrun : addPeers d routes added peers = some peers') : Each P peers' := by
  induction added generalizing peers with
  | nil =>
    obtain rfl := Option.some.inj hrun
    exact h
  | cons new _ ih =>
    obtain ⟨id, config⟩ := new
    unfold addPeers at hrun
    split at hrun
    · cases hrun
    dsimp only at hrun
    cases hp : d.newPeerState id (withRoutes routes config) with
    | error =>
      unfold withRoutes at hp
      simp [hp] at hrun
    | ok peer =>
      have hP : P id peer := hne (id, config) (mem_cons_self ..) peer hp
      unfold withRoutes at hp
      simp only [hp] at hrun
      exact ih (h.set hP) (fun new hn => hne new (mem_cons_of_mem _ hn)) hrun

theorem removePeers_length {ids : List PeerID} (h : removePeers ids peers = some peers') :
    peers'.length = peers.length := by
  induction ids generalizing peers with
  | nil =>
    obtain rfl := Option.some.inj h
    rfl
  | cons _ _ ih =>
    unfold removePeers at h
    split_ifs at h
    exact (ih h).trans length_set

theorem addPeers_length {routes : Option Route.Snapshot} {added : PeerConfigs}
    (h : addPeers d routes added peers = some peers') : peers'.length = peers.length := by
  induction added generalizing peers with
  | nil =>
    obtain rfl := Option.some.inj h
    rfl
  | cons =>
    rename_i ih
    unfold addPeers at h
    split at h
    · cases h
    dsimp only at h
    split at h
    · cases h
    · exact (ih h).trans length_set

/-- The peer with the routes of the call. -/
def withAllowed (routes : Option Route.Snapshot) (peer : PeerState) : PeerState :=
  { peer with sender.config.allowedIPs := routes }

/-- The places that a reconfiguration makes for the peers. -/
def width (d : Device) (added : PeerConfigs) : ℕ :=
  added.foldl (fun w new => max w (new.1 + 1)) d.peers.length

theorem le_width (d : Device) (added : PeerConfigs) : d.peers.length ≤ d.width added :=
  (foldl_max_le (fun new : PeerID × SenderConfig => new.1 + 1) added d.peers.length).1

inductive ReconfigureEnd (added : PeerConfigs) (removed : List PeerID)
    (routes : Option Route.Snapshot) (d : Device) : Except DeviceError Unit × Device → Prop
  | refused (e : DeviceError) : ReconfigureEnd added removed routes d (.error e, d)
  | done {peers : Peers} {fragments : ℕ} {queue : DataQueue} :
    (∀ P : ℕ → PeerState → Prop, Each P d.peers →
      (∀ new ∈ added, d.validatePeerConfig new.1 new.2 = true →
        new.2.carrierPayload + ipv6HeaderSize ≤ d.tx.queue.ring.stride →
        ∀ peer, d.newPeerState new.1 (withRoutes routes new.2) = .ok peer → P new.1 peer) →
      (∀ i p, P i p → P i (withAllowed routes p)) → Each P peers) →
    fragments = max d.dataFragments (maxPeerFragments peers) →
    queue.contents = d.tx.queue.contents.filter (fun c => c.1 ∉ removed) →
    queue.ring.stride = d.tx.queue.ring.stride →
    queue.slots = max (activeCarrierQueueSlots d.maxInt d.queueLimit fragments d.batch
      (activePeerCount peers)) d.tx.queue.slots → peers.length = d.width added →
    ReconfigureEnd added removed routes d (.ok (), { d.setQueue queue with
      peers := peers, routes := routes, dataFragments := fragments })

theorem purgeAll_spec (removed : List PeerID) (q : DataQueue) :
    (removed.foldl DataQueue.purgeDataPeer q).contents =
      q.contents.filter (fun c => c.1 ∉ removed) ∧
    (removed.foldl DataQueue.purgeDataPeer q).ring.stride = q.ring.stride ∧
    (removed.foldl DataQueue.purgeDataPeer q).slots = q.slots := by
  induction removed generalizing q with
  | nil => simp
  | cons id _ ih =>
    obtain ⟨hc, hs, hsl⟩ := ih (q.purgeDataPeer id)
    obtain ⟨hc', hs', hsl'⟩ := q.purge_spec id
    rw [foldl_cons]
    refine ⟨?_, hs.trans hs', hsl.trans hsl'⟩
    rw [hc, hc', filter_filter]
    congr 1
    funext c
    rw [Bool.and_comm]
    exact Bool.eq_iff_iff.mpr (by simp)

theorem reconfigure_end (added : PeerConfigs) (removed : List PeerID)
    (routes : Option Route.Snapshot) (accepted : Bool) (d : Device) :
    ReconfigureEnd added removed routes d (reconfigure added removed routes accepted d) := by
  unfold reconfigure
  split
  · exact .refused _
  rename_i hc
  dsimp only
  cases hrun : (removePeers removed (d.peers ++ List.replicate
      (added.foldl (fun w new => max w (new.1 + 1)) d.peers.length - d.peers.length) none)).bind
      (d.addPeers routes added) with
  | none => exact .refused _
  | some peers =>
    dsimp only
    split
    · exact .refused _
    rename_i hsz
    obtain ⟨_, hr, ha⟩ := Option.bind_eq_some_iff.mp hrun
    obtain ⟨hco, hs, hsl⟩ := purgeAll_spec removed
      (d.tx.queue.growDataQueue (activeCarrierQueueSlots d.maxInt d.queueLimit
        (max d.dataFragments (maxPeerFragments
          (peers.map (Option.map (rerouted routes (added.map Prod.fst)))))) d.batch
        (activePeerCount (peers.map (Option.map (rerouted routes (added.map Prod.fst)))))))
    obtain ⟨hg, hgrS, hgrSl⟩ := d.tx.queue.grow_spec (activeCarrierQueueSlots
      d.maxInt d.queueLimit (max d.dataFragments (maxPeerFragments
        (peers.map (Option.map (rerouted routes (added.map Prod.fst)))))) d.batch
      (activePeerCount (peers.map (Option.map (rerouted routes (added.map Prod.fst))))))
    refine .done ?_ rfl ?_ (hs.trans hgrS) (hsl.trans hgrSl) ?_
    · intro P hP hn hro
      have had : Each P peers := by
        refine addPeers_each (removePeers_each (hP.holes _) hr) ?_ ha
        intro new hmem peer hpr
        refine hn new hmem ?_ ?_ peer hpr
        · by_contra hi
          refine hc (.inr ⟨new, hmem, .inl ?_⟩)
          simpa using hi
        · by_contra hlong
          exact hsz ⟨new, hmem, Nat.lt_of_not_le hlong⟩
      refine had.map fun i p hp => ?_
      unfold rerouted
      split
      · exact hp
      · exact hro i p hp
    · rw [hco, hg]
    · have hle := d.le_width added
      rw [length_map, addPeers_length ha, removePeers_length hr, length_append, length_replicate]
      exact Nat.add_sub_of_le hle

end Replace

theorem withRoutes_eq (routes : Option Route.Snapshot) (config : SenderConfig) :
    (withRoutes routes config).carrierPayload = config.carrierPayload ∧
      (withRoutes routes config).remotePeerMTU = config.remotePeerMTU ∧
      (withRoutes routes config).peerID = config.peerID := by
  unfold withRoutes
  split <;> exact ⟨rfl, rfl, rfl⟩

theorem PeerState.Sound.allowed (h : peer.Sound innerMTU index)
    (routes : Option Route.Snapshot) : (withAllowed routes peer).Sound innerMTU index :=
  ⟨⟨h.tidy.holds, h.tidy.fits⟩, h.config, h.minimum, h.payload, h.minPack, h.session, h.size,
    h.fragments, h.peerID, h.slot⟩

theorem ReconfigureEnd.sound (h : ReconfigureEnd added removed routes d out) (hd : d.Sound) :
    out.2.Sound := by
  cases h with
  | refused => exact hd
  | @done peers fragments _ he hf =>
    have hs : Each (fun i p => p.Sound d.innerMTU i) peers := by
      refine he _ (Each.imp hd fun i p h => h.1) ?_ ?_
      · intro new hmem hv _ peer hpr
        obtain ⟨hpa, hm, hpeI⟩ := withRoutes_eq routes new.2
        obtain ⟨hid, -, hmin⟩ := of_decide_eq_true hv
        refine (newPeerState_ok hpr).2.2.2.2 (hpeI.trans hid) ?_
        rw [hpa, hm]
        exact hmin
      · intro i p hp
        exact PeerState.Sound.allowed hp routes
    intro i p hp
    refine ⟨hs i p hp, ?_⟩
    have hmax := le_maxPeerFragments (mem_of_getElem? hp)
    show p.dataFragments ≤ fragments
    rw [hf]
    exact Nat.le_trans hmax (Nat.le_max_right _ _)

/-! ### Runs -/

theorem newPeers_each {P : ℕ → PeerState → Prop} {enabled : Bool} {configs : List SenderConfig}
    {start : ℕ} {peers : Peers}
    (hn : ∀ config ∈ configs, ∀ peer, d.newPeerState config.peerID config = .ok peer →
      P config.peerID { peer with dataEnabled := enabled })
    (hrun : newPeers d enabled start configs = some peers) :
    peers.length = configs.length ∧ Each (fun i p => P (start + i) p) peers := by
  induction configs generalizing start peers with
  | nil =>
    obtain rfl := Option.some.inj hrun
    exact ⟨rfl, fun i p hp => by simp at hp⟩
  | cons config configs ih =>
    unfold newPeers at hrun
    split at hrun
    · cases hrun
    rename_i hid
    have hid : config.peerID = start := not_not.mp hid
    split at hrun
    · next peer rest hpr hr =>
      obtain rfl := Option.some.inj hrun
      obtain ⟨hlen, he⟩ := ih (fun c hc => hn c (mem_cons_of_mem _ hc)) hr
      refine ⟨congrArg (· + 1) hlen, ?_⟩
      intro i p hp
      cases i with
      | zero =>
        obtain rfl := Option.some.inj (Option.some.inj hp)
        have hP := hn config (mem_cons_self ..) peer (hid ▸ hpr)
        rw [hid] at hP
        exact hP
      | succ i =>
        have hP : P (start + 1 + i) p := he i p hp
        rwa [show start + 1 + i = start + (i + 1) by omega] at hP
    · cases hrun

theorem new_ok (h : new c accepted = .ok d) :
    ∃ base : Device, newPeers base c.dataInitiallyEnabled 0 c.peers = some d.peers ∧
      base.innerMTU = d.innerMTU ∧ d.tx.queue.contents = [] ∧ d.txFatal = none ∧
      (∀ p ∈ c.peers, ValidMinCarrierPayload p.remotePeerMTU p.carrierPayload ∧
        carrierFragmentCountForPayload p.carrierPayload d.innerMTU ≤ d.dataFragments ∧
        ipv6HeaderSize + p.carrierPayload ≤ d.tx.queue.ring.stride) := by
  unfold new at h
  dsimp only at h
  split at h
  · cases h
  rename_i hc
  split at h
  · cases h
  rename_i peers hpe
  obtain rfl := Except.ok.inj h
  refine ⟨_, hpe, rfl, (DataQueue.make_spec (by simp only [not_or] at hc; omega)).1,
    rfl, fun p hp => ⟨?_, ?_, ?_⟩⟩
  · simp only [not_or, not_exists, not_and, not_not] at hc
    exact hc.2.2.2.2.2.2.2.2.2.2.1 p hp
  · exact (foldl_max_le (fun p : SenderConfig =>
      carrierFragmentCountForPayload p.carrierPayload c.nativeMTU) c.peers 1).2 p hp
  · exact (foldl_max_le (fun p : SenderConfig =>
      ipv6HeaderSize + p.carrierPayload) c.peers 0).2 p hp

theorem new_sound (h : new c accepted = .ok d) : d.Sound := by
  obtain ⟨_, hpe, hm, -, -, hco⟩ := new_ok h
  have he := (newPeers_each (P := fun i p => p.Sound d.innerMTU i ∧
      p.dataFragments ≤ d.dataFragments) (fun config hc peer hpr => ?_) hpe).2
  · intro i p hp
    have hP := he i p hp
    simp only [Nat.zero_add] at hP
    exact hP
  · obtain ⟨hmin, hf, -⟩ := hco config hc
    obtain ⟨-, -, hcf, -, hs⟩ := newPeerState_ok hpr
    have hpeS := hs rfl hmin
    rw [hm] at hpeS
    refine ⟨hpeS.gate _, ?_⟩
    show peer.dataFragments ≤ d.dataFragments
    rw [hpeS.fragments, hcf]
    exact hf

theorem new_drained (h : new c accepted = .ok d) : d.Drained := by
  obtain ⟨_, hpe, -⟩ := new_ok h
  intro _ i p hp _
  exact (newPeers_each (P := fun _ p => p.sender.packetizer.buffer = [])
    (fun config hc peer hpr => (newPeerState_ok hpr).2.2.2.1) hpe).2 i p hp

inductive CallEnd (d : Device) : Call → Device → Prop
  | idle (c : Call) : CallEnd d c d
  | batch {reads : List NativeRead} {d' : Device} : Batched reads d d' → CallEnd d (.batch reads) d'
  | gate {id : PeerID} {enabled : Bool} {out : Except DeviceError Unit × Device} :
    GateSet id d enabled out → CallEnd d (.setDataEnabled id enabled) out.2
  | install {id : PeerID} {config : SenderConfig} {accepted : Bool}
    {out : Except DeviceError Unit × Device} : installDataPlane id config accepted d = out →
    InstallEnd id config d out → CallEnd d (.install id config accepted) out.2
  | reconfigure {added : PeerConfigs} {removed : List PeerID}
    {routes : Option Route.Snapshot} {accepted : Bool} {out : Except DeviceError Unit × Device} :
    ReconfigureEnd added removed routes d out →
    CallEnd d (.reconfigure added removed routes accepted) out.2
  | dequeued {found : (PeerID × Bytes) × DataQueue} : d.tx.queue.dequeue = some found →
    CallEnd d .dequeue (d.setQueue found.2)
  | reset : CallEnd d .resetTransportErrors { d with txFatal := none }

theorem call_end (c : Call) (hd : d.Tidy) : CallEnd d c (d.call c) := by
  cases c with
  | batch reads =>
    unfold call
    dsimp only
    split
    · exact .batch (processNativeBatch_batched reads hd)
    · exact .idle _
  | setDataEnabled id enabled => exact .gate (setDataEnabled_gateSet id enabled hd)
  | install id config accepted => exact .install rfl (installDataPlane_end id config accepted d)
  | reconfigure added removed routes accepted =>
    exact .reconfigure (reconfigure_end added removed routes accepted d)
  | dequeue =>
    unfold call
    cases hq : d.tx.queue.dequeue with
    | none => exact .idle _
    | some => exact .dequeued hq
  | resetTransportErrors => exact .reset

theorem call_sound (c : Call) (hd : d.Sound) : (d.call c).Sound := by
  have he := call_end c hd.tidy
  generalize d.call c = d' at he
  cases he with
  | idle | dequeued | reset => exact hd
  | batch h | gate h | install _ h | reconfigure h => exact h.sound hd

theorem GateSet.drained {enabled : Bool} (hs : GateSet id d enabled out) (h : d.Drained) :
    out.2.Drained := by
  intro hr
  cases hs with
  | unknown => exact h hr
  | closed | fatal => exact (h hr).set fun ho => by cases ho
  | already => exact h hr
  | opened _ _ _ _ _ hb => exact (h hr).set fun _ => hb
  | full => exact (h hr).set fun _ => rfl

theorem InstallEnd.drained (he : InstallEnd id config d out) (h : d.Drained) : out.2.Drained := by
  intro hr
  cases he with
  | refused => exact h hr
  | late _ _ _ _ hs | done _ _ _ _ hs =>
    exact (h hr).set fun _ => congrArg Packetizer.buffer (newPayloadSender_ok hs).2.2

theorem ReconfigureEnd.drained (hen : ReconfigureEnd added removed routes d out)
    (h : d.Drained) : out.2.Drained := by
  intro hr
  cases hen with
  | refused => exact h hr
  | done he =>
    refine he _ (h hr) ?_ ?_
    · intro new hmem _ _ peer hpr _
      exact (newPeerState_ok hpr).2.2.2.1
    · intro i p hp ho
      exact hp ho

theorem call_drained (c : Call) (hd : d.Sound) (h : d.Drained) : (d.call c).Drained := by
  have he := call_end c hd.tidy
  generalize d.call c = d' at he
  cases he with
  | idle | dequeued | reset => exact h
  | batch he => exact he.drained
  | gate he | install _ he | reconfigure he => exact he.drained h

def Reached (d : Device) : Prop :=
  ∃ c accepted start calls, new c accepted = .ok start ∧ d = start.runCalls calls

theorem Reached.sound (h : d.Reached) : d.Sound ∧ d.Drained := by
  obtain ⟨c, _, _, calls, hs, rfl⟩ := h
  refine List.foldlRecOn (motive := fun d => d.Sound ∧ d.Drained) calls call ?_ ?_
  · exact ⟨new_sound hs, new_drained hs⟩
  · intro d hd c _
    exact ⟨call_sound c hd.1, call_drained c hd.1 hd.2⟩

end Device
end WgFrag.Shim
