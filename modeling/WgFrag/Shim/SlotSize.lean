import WgFrag.Shim.Sound

/-! The slots of the DATA ring and the senders. An installation checks the new ring only after it has
replaced the sender, but the check cannot fail for a ring that fits an `int`, and then a carrier of
an installed sender always fits into a slot. -/
namespace WgFrag.Shim
open WgFrag.Lib WgFrag.Data Limits List
variable {u : Tx} {peer : PeerID}

/-! ### The ring under the steps -/

/-- The ring keeps its slots and gains carriers of one peer. -/
def Extends (peer : PeerID) (t u : Tx) : Prop :=
  u.queue.ring.stride = t.queue.ring.stride ∧ u.queue.slots = t.queue.slots ∧
    ∃ carriers : List Bytes, u.queue.contents = t.queue.contents ++ carriers.map (peer, ·)

def SameSlots (q q' : DataQueue) : Prop :=
  q'.ring.stride = q.ring.stride ∧ q'.slots = q.slots

theorem SameSlots.trans {q q' q'' : DataQueue} (h : SameSlots q q') (h' : SameSlots q' q'') :
    SameSlots q q'' := ⟨h'.1.trans h.1, h'.2.trans h.2⟩

theorem Extends.sameSlots {t : Tx} (h : Extends peer t u) : SameSlots t.queue u.queue :=
  ⟨h.1, h.2.1⟩

theorem Extends.of_queue {t : Tx} (h : u.queue = t.queue) : Extends peer t u := by
  unfold Extends
  rw [h]
  exact ⟨rfl, rfl, [], (append_nil _).symm⟩

theorem Gains.extends {carriers : List Bytes} {t : Tx}
    (h : Gains peer carriers t u) : Extends peer t u := ⟨h.stride, h.slots, carriers, h.contents⟩

theorem Gains.counters {carriers : List Bytes} {t : Tx}
    (h : Gains peer carriers t u) : u.carrierQueueOverflows = t.carrierQueueOverflows ∧
      u.preconfirmDrops = t.preconfirmDrops ∧ u.txPacketDrops = t.txPacketDrops := by
  rw [h.frame]
  exact ⟨rfl, rfl, rfl⟩

variable {s t : PeerState × Tx} {ev : PeerEvent} {e : TxError}

theorem PeerDid.extends (h : PeerDid s ev t) : Extends s.1.sender.config.peerID s.2 t.2 := by
  cases h with
  | popped | refused => exact Extends.of_queue rfl
  | packed _ _ _ _ _ _ hpk => exact hpk.gains.extends
  | flushed _ hpk => exact hpk.gains.extends

theorem enqueuePending_queue (packet : Bytes) (peer : PeerState) (tx : Tx) :
    (enqueuePending packet peer tx).2.queue = tx.queue := by
  unfold enqueuePending
  split <;> rfl

private theorem enqueuePayload_error_queue {packet : Bytes} {t : Tx} {e : QueueError}
    (h : enqueuePayload peer packet t = (.error e, u)) : u.queue = t.queue := by
  rcases enqueuePayload_error h with ⟨-, -, rfl⟩ | ⟨-, -, rfl⟩ <;> rfl

theorem PeerFails.extends (h : PeerFails s e t) : Extends s.1.sender.config.peerID s.2 t.2 := by
  obtain ⟨_, h⟩ := h
  cases h with
  | unsplit => exact Extends.of_queue rfl
  | packing _ _ _ _ _ _ _ _ hpk _ hf =>
    have hg := hpk.gains.extends
    unfold Extends at hg ⊢
    rw [enqueuePayload_error_queue hf]
    exact hg
  | flush _ _ hf => exact Extends.of_queue (enqueuePayload_error_queue hf)

/-- A sender whose carriers fit is never told that a slot is too short. -/
theorem PeerFails.not_short (h : PeerFails s e t) (hs : s.1.Tidy)
    (hft : s.1.sender.packetizer.carrierPayload ≤ s.2.queue.payloadStride) :
    e ≠ .pack (.emit .shortBuffer) := by
  obtain ⟨_, h⟩ := h
  cases h with
  | unsplit => simp
  | packing _ _ _ _ _ _ _ _ hpk _ hf =>
    rcases enqueuePayload_error hf with ⟨rfl, -, -⟩ | ⟨-, hsh, -⟩
    · simp
    have hlen := hpk.fits
    unfold DataQueue.payloadStride at hsh hft
    rw [hpk.gains.stride] at hsh
    exact absurd (Nat.le_trans hlen hft) (Nat.not_le.mpr hsh)
  | flush _ _ hf =>
    rcases enqueuePayload_error hf with ⟨rfl, -, -⟩ | ⟨-, hsh, -⟩
    · simp
    · exact absurd (Nat.le_trans hs.fits hft) (Nat.not_le.mpr hsh)

namespace Device
variable {d d' : Device} {calls : List Call} {log : List Event} {e : TxError} {id : PeerID}
  {out : Except DeviceError Unit × Device} {config : SenderConfig} {removed : List PeerID}
  {routes : Option Route.Snapshot} {added : PeerConfigs}

/-- Every carrier of a sender fits into a slot behind the hidden header. -/
def Fits (d : Device) : Prop :=
  Each (fun _ peer => peer.sender.config.carrierPayload + ipv6HeaderSize ≤ d.tx.queue.ring.stride)
    d.peers

/-- The numbers that bound the ring. -/
structure Sizes where
  batch : ℕ
  queueLimit : ℕ
  controlStride : ℕ
  maxInt : ℕ
  dataFragments : ℕ
  /-- the places for peers -/
  width : ℕ
  stride : ℕ
  slots : ℕ

def sizes (d : Device) : Sizes where
  batch := d.batch
  queueLimit := d.queueLimit
  controlStride := d.controlStride
  maxInt := d.maxInt
  dataFragments := d.dataFragments
  width := d.peers.length
  stride := d.tx.queue.ring.stride
  slots := d.tx.queue.slots

/-- The sizes are the same, and carriers that fit still do. -/
structure Kept (d d' : Device) : Prop where
  sizes : d'.sizes = d.sizes
  fits : d.Fits → d'.Fits

theorem Kept.refl (d : Device) : Kept d d := ⟨rfl, fun h => h⟩

theorem Kept.trans {d'' : Device} (h : Kept d d') (h' : Kept d' d'') : Kept d d'' :=
  ⟨h'.sizes.trans h.sizes, fun hd => h'.fits (h.fits hd)⟩

theorem Kept.setQueue {q : DataQueue} (h : SameSlots d.tx.queue q) : Kept d (d.setQueue q) := by
  constructor
  · show Sizes.mk _ _ _ _ _ _ q.ring.stride q.slots = _
    rw [h.1, h.2]
    rfl
  · intro hd
    unfold Fits Device.setQueue
    rw [h.1]
    exact hd

theorem Kept.put {index : ℕ} {peer : PeerState} (hp : d.peerFor index = some peer)
    {s : PeerState × Tx} (hc : s.1.sender.config = peer.sender.config)
    (hs : SameSlots d.tx.queue s.2.queue) : Kept d (d.put index s) := by
  constructor
  · show Sizes.mk _ _ _ _ _ (d.peers.set index (some s.1)).length s.2.queue.ring.stride
      s.2.queue.slots = _
    rw [length_set, hs.1, hs.2]
    rfl
  · intro hd
    have he : Each (fun _ p => p.sender.config.carrierPayload + ipv6HeaderSize ≤
        s.2.queue.ring.stride) d.peers := by
      rw [hs.1]
      exact hd
    refine he.set ?_
    rw [hc, hs.1]
    exact hd index peer (peerFor_eq_some.mp hp)

theorem Did.kept {ev : Event} (h : Did d ev d') : Kept d d' := by
  cases h with
  | dropped => exact ⟨rfl, fun h => h⟩
  | retained packet _ hp =>
    refine .put hp (enqueuePending_same packet _ _).config ?_
    rw [enqueuePending_queue packet]
    exact ⟨rfl, rfl⟩
  | peer hp hd => exact .put hp hd.same.config hd.extends.sameSlots

theorem chain_kept (h : Chain Did d log d') : Kept d d' :=
  h.invariant (I := Kept d) (fun _ _ _ hd hc => hc.trans hd.kept) (.refl d)

theorem Fails.kept (h : Fails d e d') : Kept d d' := by
  cases h with
  | peer hp hf => exact .put hp hf.same.config hf.extends.sameSlots

theorem Fails.not_short (h : Fails d e d') (hs : d.Sound) (hd : d.Fits) :
    e ≠ .pack (.emit .shortBuffer) := by
  cases h with
  | @peer index peer _ _ hp hf =>
    have hfi := hd index peer (peerFor_eq_some.mp hp)
    have hpeS := (hs.get hp).1
    refine hf.not_short hpeS.tidy ?_
    dsimp only
    rw [hpeS.payload]
    unfold DataQueue.payloadStride
    omega

theorem rollback_kept (n : ℕ) : Kept d (d.rollback n) := .setQueue (d.tx.queue.rollback_spec n).2

theorem failBatch_kept (n : ℕ) (e : TxError) : Kept d (d.failBatch n e).2 := by
  unfold failBatch
  split
  · have hk := rollback_kept (d := d) n
    refine ⟨?_, fun hd => Each.map (hk.fits hd) fun _ _ hp => hp⟩
    rw [← hk.sizes]
    show Sizes.mk _ _ _ _ _ (d.peers.map (Option.map PeerState.resetPending)).length _ _ = _
    rw [length_map]
    rfl
  · exact ⟨rfl, fun h => h⟩

/-- The carriers fit and no slot was too short. -/
def Fitting (d : Device) : Prop :=
  d.Fits ∧ d.txFatal ≠ some (.send (.pack (.emit .shortBuffer)))

theorem Did.txFatal {ev : Event} (h : Did d ev d') : d'.txFatal = d.txFatal := by
  cases h <;> rfl

theorem Fails.txFatal (h : Fails d e d') : d'.txFatal = d.txFatal := by
  cases h with
  | peer => rfl

theorem chain_fitting (h : Chain Did d log d') (hd : d.Fitting) : d'.Fitting :=
  h.invariant (fun _ _ _ hdi hc => ⟨(Did.kept hdi).fits hc.1, Did.txFatal hdi ▸ hc.2⟩) hd

theorem failBatch_fitting (startCount : ℕ) (hf : Fails d e d') (hsn : d.Sound)
    (hd : d.Fitting) : (d'.failBatch startCount e).2.Fitting := by
  obtain ⟨hft, hfa⟩ := hd
  refine ⟨(hf.kept.trans (failBatch_kept _ _)).fits hft, ?_⟩
  unfold failBatch
  split
  · exact hf.txFatal ▸ hfa
  have hsh := hf.not_short hsn hft
  intro hs
  cases hs
  exact hsh rfl

theorem Batched.fitting {reads : List NativeRead} (h : Batched reads d d') (hs : d.Sound)
    (hd : d.Fitting) : d'.Fitting :=
  h.rule (I := fun d => d.Sound ∧ d.Fitting) ⟨hs, hd⟩
    (fun hdi h => ⟨hdi.sound h.1, hdi.kept.fits h.2.1, hdi.txFatal ▸ h.2.2⟩) (fun _ h => h.2)
    (fun hf h => failBatch_fitting _ hf h.1 h.2)
    fun _ h => ⟨(rollback_kept _).fits h.2.1, nofun⟩

theorem Batched.kept {reads : List NativeRead} (h : Batched reads d d') : Kept d d' :=
  h.rule (I := Kept d) (.refl d) (fun hd h => h.trans hd.kept) (fun _ h => h)
    (fun hf h => h.trans (hf.kept.trans (failBatch_kept _ _)))
    fun _ h => ⟨(h.trans (rollback_kept _)).sizes, (h.trans (rollback_kept _)).fits⟩

theorem chain_extends {s t : PeerState × Tx} {log : List PeerEvent} (h : Chain PeerDid s log t) :
    SameSlots s.2.queue t.2.queue :=
  h.invariant (I := fun u => SameSlots s.2.queue u.2.queue)
    (fun _ _ _ hd hc => hc.trans hd.extends.sameSlots) ⟨rfl, rfl⟩

theorem GateSet.kept {enabled : Bool} (h : GateSet id d enabled out) (hs : d.Sound) :
    Kept d out.2 := by
  cases h with
  | unknown | already => exact .refl d
  | closed hp => exact .put hp rfl ⟨rfl, rfl⟩
  | opened hp _ hch =>
    have heq := (chain_sound_peer hch ((hs.get hp).1.gate true)).2
    exact .put hp heq.config (chain_extends hch)
  | full hp _ hch hf =>
    have heq := (chain_sound_peer hch ((hs.get hp).1.gate true)).2
    exact .put hp (heq.trans hf.same).config
      (((chain_extends hch).trans hf.extends.sameSlots).trans (DataQueue.rollback_spec _ _).2)
  | @fatal _ _ _ u _ hp _ hch hf =>
    have heq := (chain_sound_peer hch ((hs.get hp).1.gate true)).2
    have hk : Kept d (d.put id ({ u.1 with dataEnabled := false }, u.2)) :=
      .put hp (heq.trans hf.same).config ((chain_extends hch).trans hf.extends.sameSlots)
    exact ⟨hk.sizes, hk.fits⟩

theorem GateSet.fitting {enabled : Bool} (h : GateSet id d enabled out) (hsn : d.Sound)
    (hd : d.Fitting) : out.2.Fitting := by
  refine ⟨(h.kept hsn).fits hd.1, ?_⟩
  cases h with
  | unknown | closed | already | opened | full => exact hd.2
  | @fatal peer _ _ _ _ hp _ hch hf =>
    obtain ⟨hpeS, heq⟩ := chain_sound_peer hch ((hsn.get hp).1.gate true)
    intro hs
    refine hf.not_short hpeS.tidy ?_ ?_
    · have hfi := hd.1 id peer (peerFor_eq_some.mp hp)
      unfold DataQueue.payloadStride
      rw [(chain_extends hch).1, hpeS.payload, heq.config]
      dsimp only
      omega
    · cases hs
      rfl

/-! ### Installations -/

/-- An installation that fails leaves the device as it was. -/
def Unbroken (d : Device) : Call → Prop
  | .install id config accepted => (installDataPlane id config accepted d).1 = .ok () ∨
    (installDataPlane id config accepted d).2 = d
  | _ => True

/-- Every call of the run is made in a state that `Q` allows. -/
def Along (Q : Device → Call → Prop) : Device → List Call → Prop
  | _, [] => True
  | d, c :: calls => Q d c ∧ Along Q (d.call c) calls

theorem InstallEnd.fits (h : InstallEnd id config d out) (hsn : d.Sound) (hok : out.1 = .ok ()) :
    out.2.Fits ∧ out.2.txFatal = d.txFatal := by
  cases h with
  | refused | late => cases hok
  | @done _ _ _ hpr hid _ hmin hs _ hst =>
    refine ⟨?_, rfl⟩
    have hpl := placed_sound hsn
      (replanned_sound (hsn.get hpr).1 hid hmin hs)
    intro i p hp
    have hsz := le_maxPeerCarrierSize (mem_of_getElem? hp)
    rw [(hpl i p hp).1.size] at hsz
    exact Nat.le_trans hsz (Nat.le_of_eq hst.symm)

theorem ReconfigureEnd.fits (h : ReconfigureEnd added removed routes d out) (hf : d.Fits) :
    out.2.Fits ∧ out.2.txFatal = d.txFatal := by
  cases h with
  | refused => exact ⟨hf, rfl⟩
  | done he _ _ hs =>
    refine ⟨?_, rfl⟩
    have hpe := he _ hf (fun new hmem _ hsz peer hpr => by
      rw [(newPeerState_ok hpr).2.2.1, (withRoutes_eq routes new.2).1]
      exact hsz) (fun i p hp => hp)
    intro i p hp
    have hp' := hpe i p hp
    rw [← hs] at hp'
    exact hp'

theorem call_fitting (c : Call) (hs : d.Sound) (hd : d.Fitting) (hc : d.Unbroken c) :
    (d.call c).Fitting := by
  have he := call_end c hs.tidy
  generalize d.call c = d' at he
  cases he with
  | idle => exact hd
  | batch h | gate h => exact h.fitting hs hd
  | install hrun h =>
    unfold Unbroken at hc
    dsimp only at hc
    rw [hrun] at hc
    rcases hc with hok | heq
    · obtain ⟨hf, hfa⟩ := h.fits hs hok
      exact ⟨hf, hfa ▸ hd.2⟩
    · rw [heq]
      exact hd
  | reconfigure h =>
    obtain ⟨hf, hfa⟩ := h.fits hd.1
    exact ⟨hf, hfa ▸ hd.2⟩
  | dequeued hq => exact ⟨(Kept.setQueue (DataQueue.dequeue_some hq).2).fits hd.1, hd.2⟩
  | reset => exact ⟨hd.1, nofun⟩

theorem new_fitting {config : DeviceConfig} {accepted : Bool} (h : new config accepted = .ok d) :
    d.Fitting := by
  obtain ⟨_, hpe, -, -, hf, hco⟩ := new_ok h
  refine ⟨?_, by simp [hf]⟩
  intro i p hp
  refine (newPeers_each (P := fun _ p => p.sender.config.carrierPayload + ipv6HeaderSize ≤
    d.tx.queue.ring.stride) (fun config hc peer hpr => ?_) hpe).2 i p hp
  rw [(newPeerState_ok hpr).2.2.1, Nat.add_comm]
  exact (hco config hc).2.2

/-! ### Rings that fit an `int` -/

/-- The most slots that `width` peers can need. -/
def slotBound (queueLimit batch width : ℕ) : ℕ :=
  min queueLimit ((batch * 2 + width * defaultPreconfirmQueueSize) * maxFragments)

theorem slotBound_mono (queueLimit batch : ℕ) {width width' : ℕ} (h : width ≤ width') :
    slotBound queueLimit batch width ≤ slotBound queueLimit batch width' :=
  min_le_min_left _ (Nat.mul_le_mul_right _ (Nat.add_le_add_left (Nat.mul_le_mul_right _ h) _))

section Slots
variable {maxInt configured fragments batch : ℕ}

theorem activeCarrierQueueSlots_pos (fragments peerCount : ℕ)
    (hc : 0 < configured) (hb : 0 < batch) (hint : 0 < maxInt) :
    0 < activeCarrierQueueSlots maxInt configured fragments batch peerCount := by
  unfold activeCarrierQueueSlots
  rw [if_neg (by omega)]
  dsimp only
  have hw : ∀ packets : ℕ, 0 < packets → 0 < (if packets ≤ maxInt / max 1 fragments
      then packets * max 1 fragments else maxInt) := by
    intro packets hp
    split
    · exact Nat.mul_pos hp (by omega)
    · exact hint
  have hp : ∀ pending : ℕ, 0 < (if batch ≤ (maxInt - pending) / 2
      then batch * 2 + pending else maxInt) := by
    intro pending
    split
    · omega
    · exact hint
  exact Nat.lt_min.mpr ⟨hc, hw _ (hp _)⟩

/-- A product that does not fit an `int` is larger than its maximum. -/
theorem activeCarrierQueueSlots_le (maxInt batch peerCount : ℕ) (hc : 0 < configured)
    (hf : fragments ≤ maxFragments) :
    activeCarrierQueueSlots maxInt configured fragments batch peerCount ≤
      slotBound configured batch peerCount := by
  unfold activeCarrierQueueSlots slotBound
  rw [if_neg (by omega)]
  dsimp only
  have hpe : (if peerCount ≤ maxInt / defaultPreconfirmQueueSize
      then peerCount * defaultPreconfirmQueueSize else maxInt) ≤
        peerCount * defaultPreconfirmQueueSize := by
    unfold defaultPreconfirmQueueSize
    split <;> omega
  generalize (if peerCount ≤ maxInt / defaultPreconfirmQueueSize
    then peerCount * defaultPreconfirmQueueSize else maxInt) = pending at hpe
  have hpa : (if batch ≤ (maxInt - pending) / 2 then batch * 2 + pending else maxInt) ≤
      batch * 2 + peerCount * defaultPreconfirmQueueSize := by
    split <;> omega
  generalize (if batch ≤ (maxInt - pending) / 2 then batch * 2 + pending else maxInt) =
    packets at hpa
  have hfr : max 1 fragments ≤ maxFragments := Nat.max_le.mpr ⟨by decide, hf⟩
  refine min_le_min_left _ (Nat.le_trans ?_ (Nat.mul_le_mul hpa hfr))
  split
  · exact Nat.le_refl _
  · next hl =>
    have hpos : 0 < max 1 fragments := by omega
    exact Nat.le_of_lt ((Nat.div_lt_iff_lt_mul hpos).mp (Nat.lt_of_not_le hl))

end Slots

theorem carrierFragmentCount_le (carrierSize innerMTU : ℕ) :
    carrierFragmentCount carrierSize innerMTU ≤ maxFragments := by
  unfold carrierFragmentCount
  dsimp only
  split
  · exact Nat.le_refl _
  · exact Nat.min_le_left _ _

private theorem maxPeer_le {f : PeerState → ℕ} {peers : Peers} {m n : ℕ}
    (hm : m ≤ n)
    (h : Each (fun _ peer => f peer ≤ n) peers) :
    peers.foldl (fun m peer => max m (peer.elim 0 f)) m ≤ n := by
  refine foldl_max_bound hm fun peer hp => ?_
  cases peer with
  | none => exact Nat.zero_le n
  | some peer =>
    obtain ⟨i, hi⟩ := mem_iff_getElem?.mp hp
    exact h i peer hi

theorem Sound.maxPeerFragments_le (h : d.Sound) : maxPeerFragments d.peers ≤ maxFragments := by
  refine maxPeer_le (by decide) fun i p hp => ?_
  dsimp only
  rw [(h i p hp).1.fragments]
  exact carrierFragmentCount_le _ _

/-- The ring has no more slots than the peers can need, and a ring of so many slots for the largest
carrier fits an `int`. -/
structure Sizes.Roomy (s : Sizes) : Prop where
  batch : 0 < s.batch
  limit : 0 < s.queueLimit
  fits : slotBound s.queueLimit s.batch s.width * s.controlStride ≤ s.maxInt
  fragments : s.dataFragments ≤ maxFragments
  stride : s.stride ≤ s.controlStride
  slots : s.slots ≤ slotBound s.queueLimit s.batch s.width

def Roomy (d : Device) : Prop := d.sizes.Roomy

theorem Roomy.kept (h : d.Roomy) (hk : Kept d d') : d'.Roomy := by
  unfold Roomy
  rw [hk.sizes]
  exact h

theorem Roomy.activeSlots_le (h : d.Roomy) (peers : Peers) {fragments : ℕ}
    (hf : fragments ≤ maxFragments) : activeCarrierQueueSlots d.maxInt d.queueLimit fragments
      d.batch (activePeerCount peers) ≤ slotBound d.queueLimit d.batch peers.length :=
  Nat.le_trans (activeCarrierQueueSlots_le _ _ _ h.limit hf)
    (slotBound_mono _ _ (length_filter_le _ _))

theorem Roomy.placed (hd : d.Roomy) (hsn : d.Sound) (hf : d.Fits) {id : PeerID}
    {peer new : PeerState} (hpr : d.peerFor id = some peer) (hpl : (d.placed id new).Sound)
    (hsz : new.dataCarrierSize ≤ d.controlStride) (hpos : 0 < new.dataCarrierSize) :
    maxPeerCarrierSize (d.placed id new).peers ≤ d.controlStride ∧
      (d.placed id new).activeSlots ≤ slotBound d.queueLimit d.batch d.peers.length ∧
      ¬ (d.placed id new).Overflowing := by
  have hs : Each (fun _ p => p.dataCarrierSize ≤ d.controlStride) (d.placed id new).peers := by
    refine Each.set (fun i p hp => ?_) hsz
    rw [(hsn i p hp).1.size]
    exact Nat.le_trans (hf i p hp) hd.stride
  have hmax : maxPeerCarrierSize (d.placed id new).peers ≤ d.controlStride :=
    maxPeer_le (Nat.zero_le _) hs
  have hmem : some new ∈ (d.placed id new).peers := mem_set (peerFor_lt hpr) _
  have hmaP := Nat.lt_of_lt_of_le hpos (le_maxPeerCarrierSize hmem)
  have hle : (d.placed id new).activeSlots ≤ slotBound d.queueLimit d.batch d.peers.length := by
    have hle := hd.activeSlots_le (d.placed id new).peers hpl.maxPeerFragments_le
    rw [show (d.placed id new).peers.length = d.peers.length from length_set] at hle
    exact hle
  have hpo := Nat.mul_le_mul hmax hle
  rw [Nat.mul_comm d.controlStride] at hpo
  have hrm := Nat.le_trans hpo hd.fits
  refine ⟨hmax, hle, ?_⟩
  have hbo : 0 < slotBound d.queueLimit d.batch d.peers.length := by
    have hb := hd.batch
    exact Nat.lt_min.mpr ⟨hd.limit, Nat.mul_pos (Nat.add_pos_left (Nat.mul_pos hb (by decide)) _)
      (by decide)⟩
  have hint : 0 < d.maxInt :=
    Nat.lt_of_lt_of_le (Nat.mul_pos hbo (Nat.lt_of_lt_of_le hmaP hmax)) hd.fits
  have hsl : 0 < (d.placed id new).activeSlots :=
    activeCarrierQueueSlots_pos _ _ hd.limit hd.batch hint
  rintro (hz | hz | hl)
  · exact Nat.ne_of_gt hsl hz
  · exact Nat.ne_of_gt hmaP hz
  · exact Nat.not_lt.mpr ((Nat.le_div_iff_mul_le hsl).mpr hrm) hl

theorem InstallEnd.roomy (he : InstallEnd id config d out) (hs : d.Sound) (hf : d.Fits)
    (hd : d.Roomy) : (out.1 = .ok () ∨ out.2 = d) ∧ out.2.Roomy := by
  have hsz : ∀ peer sender, config.carrierPayload + ipv6HeaderSize ≤ d.controlStride →
      (replanned d.innerMTU peer (carried peer config) sender).dataCarrierSize ≤
        d.controlStride := by
    intro peer sender hc
    show (carried peer config).carrierPayload + ipv6HeaderSize ≤ _
    rw [(carried_eq peer config).1]
    exact hc
  have hpos : ∀ peer sender,
      0 < (replanned d.innerMTU peer (carried peer config) sender).dataCarrierSize :=
    fun peer sender => Nat.add_pos_right _ (by decide)
  cases he with
  | refused => exact ⟨.inr rfl, hd⟩
  | @late peer sender hp hid hc hmin hsd hl =>
    have hpl := placed_sound hs (replanned_sound (hs.get hp).1 hid hmin hsd)
    exact absurd hl (hd.placed hs hf hp hpl (hsz peer sender hc) (hpos peer sender)).2.2
  | @done peer sender queue hp hid hc hmin hsd _ hst hsl =>
    have hpl := placed_sound hs (replanned_sound (hs.get hp).1 hid hmin hsd)
    obtain ⟨hmax, hle, -⟩ := hd.placed hs hf hp hpl (hsz peer sender hc) (hpos peer sender)
    refine ⟨.inl rfl, hd.batch, hd.limit, ?_, hpl.maxPeerFragments_le,
      Nat.le_trans (Nat.le_of_eq hst) hmax, ?_⟩
    · show slotBound d.queueLimit d.batch (d.peers.set id _).length * _ ≤ _
      rw [length_set]
      exact hd.fits
    · show queue.slots ≤ slotBound d.queueLimit d.batch (d.peers.set id _).length
      rw [length_set, hsl]
      exact hle

/-- A reconfiguration makes no more places than a ring that fits an `int` has slots for. -/
def Admits (d : Device) : Call → Prop
  | .reconfigure added _ _ _ =>
    slotBound d.queueLimit d.batch (d.width added) * d.controlStride ≤ d.maxInt
  | _ => True

theorem ReconfigureEnd.roomy (h : ReconfigureEnd added removed routes d out) (hs : d.Sound)
    (hd : d.Roomy)
    (hw : slotBound d.queueLimit d.batch (d.width added) * d.controlStride ≤ d.maxInt) :
    out.2.Roomy := by
  have hsn := h.sound hs
  cases h with
  | refused => exact hd
  | @done peers _ queue _ hfr _ hst hsl hlen =>
    have hf : max d.dataFragments (maxPeerFragments peers) ≤ maxFragments :=
      Nat.max_le.mpr ⟨hd.fragments, hsn.maxPeerFragments_le⟩
    subst hfr
    refine ⟨hd.batch, hd.limit, ?_, hf, Nat.le_trans (Nat.le_of_eq hst) hd.stride, ?_⟩
    · show slotBound d.queueLimit d.batch peers.length * _ ≤ _
      rw [hlen]
      exact hw
    · show queue.slots ≤ slotBound d.queueLimit d.batch peers.length
      rw [hsl]
      refine Nat.max_le.mpr ⟨hd.activeSlots_le peers hf, Nat.le_trans hd.slots (slotBound_mono _ _ ?_)⟩
      rw [hlen]
      exact d.le_width added

theorem call_roomy (c : Call) (hs : d.Sound) (hf : d.Fits) (hd : d.Roomy) (hc : d.Admits c) :
    d.Unbroken c ∧ (d.call c).Roomy := by
  constructor
  · cases c with
    | install id config accepted =>
      exact ((installDataPlane_end id config accepted d).roomy hs hf hd).1
    | _ => trivial
  · have he := call_end c hs.tidy
    generalize d.call c = d' at he
    cases he with
    | idle => exact hd
    | batch h => exact hd.kept h.kept
    | gate h => exact hd.kept (h.kept hs)
    | install _ h => exact (h.roomy hs hf hd).2
    | reconfigure h => exact h.roomy hs hd hc
    | dequeued hq => exact hd.kept (.setQueue (DataQueue.dequeue_some hq).2)
    | reset => exact hd.kept ⟨rfl, fun h => h⟩

/-- A ring of the most slots that the peers can need, for the largest carrier, fits an `int`. -/
def DeviceConfig.Roomy (c : DeviceConfig) : Prop :=
  slotBound c.carrierQueueSize c.batch c.peers.length * (ipv6HeaderSize +
    c.peers.foldl (fun m p => max m p.carrierPayload) c.maxCarrierPayload) ≤ c.maxInt

theorem new_roomy {config : DeviceConfig} {accepted : Bool} (h : new config accepted = .ok d)
    (hr : config.Roomy) : d.Roomy := by
  unfold new at h
  dsimp only at h
  split at h
  · cases h
  rename_i hc
  simp only [not_or] at hc
  obtain ⟨-, -, hq, hb, -⟩ := hc
  split at h
  · cases h
  rename_i hpe
  obtain rfl := Except.ok.inj h
  have hlen := (newPeers_each (P := fun _ _ => True) (fun _ _ _ _ => trivial) hpe).1
  have hf : config.peers.foldl (fun m p => max m (carrierFragmentCountForPayload p.carrierPayload
      config.nativeMTU)) 1 ≤ maxFragments :=
    foldl_max_bound (by decide) fun p _ => carrierFragmentCount_le _ _
  refine ⟨Nat.pos_of_ne_zero hb, Nat.pos_of_ne_zero hq, ?_, hf, ?_, ?_⟩
  · show slotBound config.carrierQueueSize config.batch (List.length _) * _ ≤ _
    rw [hlen]
    exact hr
  · refine foldl_max_bound (Nat.zero_le _) fun p hp => Nat.add_le_add_left ?_ _
    exact (foldl_max_le SenderConfig.carrierPayload config.peers config.maxCarrierPayload).2 p hp
  · show DataQueue.slots _ ≤ slotBound config.carrierQueueSize config.batch (List.length _)
    rw [hlen, (DataQueue.make_spec _).2.2]
    exact activeCarrierQueueSlots_le _ _ _ (Nat.pos_of_ne_zero hq) hf

/-! ### Devices in memory -/

/-- The bytes that a process can address. -/
def addressSpace : ℕ := 2 ^ 48

/-- On a platform with 64-bit integers the buffers that `New` makes, those of the native reads and
those of the retained packets, fit into the address space. -/
structure DeviceConfig.Allocatable (c : DeviceConfig) : Prop where
  int : c.maxInt = 2 ^ 63 - 1
  reads : c.batch * (c.nativeReadOffset + c.nativeMTU) ≤ addressSpace
  pending : c.peers.length * (c.nativeMTU * defaultPreconfirmQueueSize) ≤ addressSpace

/-- Peers are numbered by unsigned integers of 32 bits. -/
def Call.Numbered : Call → Prop
  | .reconfigure added _ _ _ => ∀ new ∈ added, new.1 < UInt32.size
  | _ => True

/-- More peers than can be numbered, or than fit into the address space. -/
def peerLimit : ℕ := 2 ^ 35

/-- Even with all peers in place the ring fits an `int`. -/
structure Ample (d : Device) : Prop where
  width : d.peers.length ≤ peerLimit
  fits : slotBound d.queueLimit d.batch peerLimit * d.controlStride ≤ d.maxInt

theorem Ample.kept (h : d.Ample) (hk : Kept d d') : d'.Ample := by
  have hs := hk.sizes
  unfold sizes at hs
  injection hs with hb hq hc hint _ hw
  exact ⟨hw ▸ h.width, by rw [hb, hq, hc, hint]; exact h.fits⟩

theorem Ample.width_le (h : d.Ample) (hn : ∀ new ∈ added, new.1 < UInt32.size) :
    d.width added ≤ peerLimit := by
  refine foldl_max_bound h.width fun new hmem => ?_
  exact Nat.le_trans (hn new hmem) (by decide)

theorem Ample.admits (h : d.Ample) {c : Call} (hn : c.Numbered) : d.Admits c := by
  cases c with
  | reconfigure =>
    exact Nat.le_trans (Nat.mul_le_mul_right _ (slotBound_mono _ _ (h.width_le hn))) h.fits
  | _ => trivial

theorem InstallEnd.ample (h : InstallEnd id config d out) (hd : d.Ample) : out.2.Ample := by
  cases h with
  | refused => exact hd
  | late | done => exact ⟨Nat.le_trans (Nat.le_of_eq length_set) hd.width, hd.fits⟩

theorem ReconfigureEnd.ample (h : ReconfigureEnd added removed routes d out) (hd : d.Ample)
    (hn : ∀ new ∈ added, new.1 < UInt32.size) : out.2.Ample := by
  cases h with
  | refused => exact hd
  | done _ _ _ _ _ hlen => exact ⟨Nat.le_trans (Nat.le_of_eq hlen) (hd.width_le hn), hd.fits⟩

theorem call_ample (c : Call) (hs : d.Sound) (hd : d.Ample) (hn : c.Numbered) :
    (d.call c).Ample := by
  have he := call_end c hs.tidy
  generalize d.call c = d' at he
  cases he with
  | idle => exact hd
  | batch h => exact hd.kept h.kept
  | gate h => exact hd.kept (h.kept hs)
  | install _ h => exact h.ample hd
  | reconfigure h => exact h.ample hd hn
  | dequeued hq => exact hd.kept (.setQueue (DataQueue.dequeue_some hq).2)
  | reset => exact hd.kept ⟨rfl, fun h => h⟩

theorem runCalls_fitting (hs : d.Sound) (hd : d.Fitting) (hr : d.Roomy) (ha : d.Ample)
    (hn : ∀ c ∈ calls, c.Numbered) :
    (d.runCalls calls).Sound ∧ (d.runCalls calls).Fitting ∧ (d.runCalls calls).Roomy := by
  induction calls generalizing d with
  | nil => exact ⟨hs, hd, hr⟩
  | cons c _ ih =>
    obtain ⟨hc, hn⟩ := forall_mem_cons.mp hn
    obtain ⟨hu, hr'⟩ := call_roomy c hs hd.1 hr (ha.admits hc)
    exact ih (call_sound c hs) (call_fitting c hs hd hu) hr' (call_ample c hs ha hc) hn

private theorem bytes_le {batch : ℕ} (h : batch * 1280 ≤ addressSpace) :
    (batch * 2 + peerLimit * defaultPreconfirmQueueSize) * maxFragments * 65535 ≤ 2 ^ 63 - 1 := by
  have hb : batch ≤ addressSpace / 1280 := (Nat.le_div_iff_mul_le (by decide)).mpr h
  calc (batch * 2 + peerLimit * defaultPreconfirmQueueSize) * maxFragments * 65535
    _ ≤ (addressSpace / 1280 * 2 + peerLimit * defaultPreconfirmQueueSize) * maxFragments * 65535 :=
      Nat.mul_le_mul_right _ (Nat.mul_le_mul_right _
        (Nat.add_le_add_right (Nat.mul_le_mul_right _ hb) _))
    _ ≤ 2 ^ 63 - 1 := by decide

/-- The reads are of at least 1280 bytes each, so there are few of them in a batch, and a carrier has
at most 65535 bytes. -/
theorem new_ample {config : DeviceConfig} {accepted : Bool} (h : new config accepted = .ok d)
    (ha : config.Allocatable) : config.Roomy ∧ d.Ample := by
  unfold new at h
  dsimp only at h
  split at h
  · cases h
  rename_i hc
  simp only [not_or, not_not, Nat.not_lt] at hc
  obtain ⟨-, -, -, -, hmtu, -, -, -, -, -, -, hmax, -⟩ := hc
  split at h
  · cases h
  rename_i hpe
  obtain rfl := Except.ok.inj h
  have hlen := (newPeers_each (P := fun _ _ => True) (fun _ _ _ _ => trivial) hpe).1
  have hmtu : 1280 ≤ config.nativeMTU := hmtu.1
  have hb : config.batch * 1280 ≤ addressSpace := Nat.le_trans
    (Nat.mul_le_mul_left _ (Nat.le_trans hmtu (Nat.le_add_left _ _))) ha.reads
  have hw : config.peers.length ≤ peerLimit := by
    have hpe := Nat.le_trans (Nat.mul_le_mul_left _
      (Nat.mul_le_mul_right defaultPreconfirmQueueSize hmtu)) ha.pending
    unfold defaultPreconfirmQueueSize addressSpace at hpe
    unfold peerLimit
    omega
  have hst : ipv6HeaderSize + config.peers.foldl (fun m p => max m p.carrierPayload)
      config.maxCarrierPayload ≤ 65535 := by
    unfold maxUint16 at hmax
    unfold ipv6HeaderSize at hmax ⊢
    omega
  have hfit : slotBound config.carrierQueueSize config.batch peerLimit * (ipv6HeaderSize +
      config.peers.foldl (fun m p => max m p.carrierPayload) config.maxCarrierPayload) ≤
        config.maxInt := by
    refine Nat.le_trans (Nat.mul_le_mul (Nat.min_le_right _ _) hst) ?_
    rw [ha.int]
    exact bytes_le hb
  exact ⟨Nat.le_trans (Nat.mul_le_mul_right _ (slotBound_mono _ _ hw)) hfit,
    Nat.le_trans (Nat.le_of_eq hlen) hw, hfit⟩

/-- The ring is a queue, and in every run of a device whose buffers fit into memory, every carrier of
an installed sender fits into a slot and the bytes of the ring are counted by an `int`. -/
theorem dataRing_fifo {config : DeviceConfig} {accepted : Bool} (hnew : new config accepted = .ok d)
    (halloc : config.Allocatable) (hids : ∀ c ∈ calls, c.Numbered) : (∀ q : DataQueue, q.Fifo) ∧
      Each (fun _ peer => peer.sender.packetizer.carrierPayload ≤
        (d.runCalls calls).tx.queue.payloadStride) (d.runCalls calls).peers ∧
      (d.runCalls calls).txFatal ≠ some (.send (.pack (.emit .shortBuffer))) ∧
      (d.runCalls calls).tx.queue.slots * (d.runCalls calls).tx.queue.ring.stride ≤
        (d.runCalls calls).maxInt := by
  obtain ⟨hroo, hamp⟩ := new_ample hnew halloc
  obtain ⟨hsnd, ⟨hfits, hfat⟩, hend⟩ := runCalls_fitting (new_sound hnew) (new_fitting hnew)
    (new_roomy hnew hroo) hamp hids
  refine ⟨DataQueue.fifo, fun i p hp => ?_, hfat,
    Nat.le_trans (Nat.mul_le_mul hend.slots hend.stride) hend.fits⟩
  have hfit := hfits i p hp
  dsimp only at hfit ⊢
  rw [(hsnd i p hp).1.payload]
  unfold DataQueue.payloadStride
  omega

theorem ok_get {ε α : Type} {x : Except ε α} (h : x.toOption.isSome = true) :
    x = .ok (x.toOption.get h) := by
  cases x with
  | ok => rfl
  | error => cases h

def wideSender (payload : ℕ) : SenderConfig where
  dataSessionID := 1
  laneID := 0
  carrierPayload := payload
  minPack := 1
  remotePeerMTU := 1280
  peerID := 0
  allowedIPs := none
  classifier := none
  initialSequences := none
  initialWrapBlocks := none
  sequenceReuseLifetime := 0

/-- One peer on a platform with 64-bit integers. -/
def wideConfig (carrierQueueSize : ℕ) : DeviceConfig where
  peers := [wideSender 613]
  routes := none
  carrierQueueSize := carrierQueueSize
  maxCarrierPayload := 65448
  dataInitiallyEnabled := true
  batch := 16400
  nativeMTU := 1280
  nativeReadOffset := 0
  nativeWriteOffset := 0
  maxInt := 9223372036854775807
  clock := fun _ => (0, 0)

def widePacket : Bytes :=
  [0x45, 0, 0x05, 0, 0, 0, 0, 0, 64, 17, 0, 0, 10, 0, 0, 1, 10, 0, 0, 2] ++ List.replicate 1260 0

private theorem narrowConfig_accepted : (new (wideConfig 16) true).toOption.isSome = true := by
  decide +kernel

def narrowDevice : Device := (new (wideConfig 16) true).toOption.get narrowConfig_accepted

theorem narrowDevice_new : new (wideConfig 16) true = .ok narrowDevice :=
  ok_get narrowConfig_accepted

/-- An installation for larger carriers, a second peer, and a packet of full size. -/
def narrowCalls : List Call :=
  [.install 0 (wideSender 2000) true,
    .reconfigure [(1, { wideSender 613 with peerID := 1 })] [] none true,
    .batch [⟨1280, widePacket⟩]]

theorem dataRing_fifo_sample : new (wideConfig 16) true = .ok narrowDevice ∧
    (wideConfig 16).Allocatable ∧
    (narrowDevice.runCalls [.install 0 (wideSender 2000) true]).tx.queue.payloadStride = 2000 ∧
    Each (fun _ peer => peer.sender.packetizer.carrierPayload ≤
      (narrowDevice.runCalls narrowCalls).tx.queue.payloadStride)
      (narrowDevice.runCalls narrowCalls).peers := by
  have hall : (wideConfig 16).Allocatable := ⟨by decide, by decide, by decide⟩
  refine ⟨narrowDevice_new, hall, by decide +kernel, (dataRing_fifo narrowDevice_new hall ?_).2.1⟩
  intro c hc
  rcases mem_cons.mp hc with rfl | hc
  · trivial
  rcases mem_pair.mp hc with rfl | rfl
  · intro new hnew
    rw [mem_singleton.mp hnew]
    decide
  · trivial

end Device
end WgFrag.Shim
