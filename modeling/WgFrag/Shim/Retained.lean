import WgFrag.Shim.Capacity
import WgFrag.Shim.Clean

/-! What becomes of the packets that are retained for closed gates. In a run that closes no gate and
removes no peer with packets behind it, and opens no gate without room for them in the ring, each
of them is overwritten, refused or published, and counted accordingly. -/
namespace WgFrag.Shim
open WgFrag.Lib WgFrag.Data Limits List
open Fragment (Cuts)

variable {s t : PeerState × Tx}

namespace Device
variable {d d' : Device} {index : ℕ} {peer : PeerState}
variable {log : List PeerEvent}

/-! ### Gates -/

/-- A step of each packet that leaves, in order, says what became of it. -/
theorem flushLog_settled {packets : List Bytes} (h : FlushLog packets log) (id i : ℕ) :
    (((log.map (Event.peer id)).flatMap (Event.settled true)).filter (·.index == i)).map
      Settled.packet = (log.map (Event.peer id)).flatMap (Event.left i) := by
  induction h with
  | nil => simp [Event.settled, Event.left, PeerEvent.left]
  | @cons packet _ ev _ ho _ ih =>
    have hev : ((Event.settled true (.peer id ev)).filter (·.index == i)).map Settled.packet =
        if id = i then [packet] else [] := by
      cases ev with
      | popped | flushed => exact ho.elim
      | refused p | packed p =>
        obtain rfl : p = packet := ho
        by_cases hi : id = i <;> simp [Event.settled, hi]
    have hl : Event.left i (.peer id ev) = [] := by
      cases ev with
      | popped | flushed => exact ho.elim
      | refused | packed => exact ite_self _
    rw [map_cons, map_cons, flatMap_cons, flatMap_cons, flatMap_cons,
      flatMap_cons, filter_append, map_append, filter_append, map_append,
      ih, hev, hl]
    rfl

theorem peer_counts (h : Chain PeerDid s log t) (id : ℕ) :
    t.2.carrierQueueOverflows = s.2.carrierQueueOverflows ∧ t.2.txPacketDrops = s.2.txPacketDrops +
      ((log.map (Event.peer id)).flatMap (Event.settled true)).countP Settled.refused := by
  induction h with
  | nil => exact ⟨rfl, rfl⟩
  | cons hd _ ih =>
    obtain ⟨-, ho, hdr⟩ := peerDid_counts hd id
    rw [ih.1, ih.2, ho, hdr, map_cons, flatMap_cons, countP_append, Nat.add_assoc]
    exact ⟨rfl, rfl⟩

/-- Setting a gate is not seen by the account. -/
theorem alike_gate (peer' : PeerState) (hp : d.peerFor index = some peer)
    (hid : peer.sender.config.peerID = index) (hs : peer'.sender = peer.sender)
    (hpe : peer'.pending = peer.pending) : Alike (d.put index (peer', d.tx)) d where
  pending i := by
    by_cases hi : i = index
    · subst hi
      rw [pendingOf_put_self hp, pendingOf_eq hp]
      exact hpe.symm
    · rw [pendingOf_put_of_ne hi]
  preconfirm := rfl
  stream i := by
    by_cases hi : i = index
    · subst hi
      rw [stream_put hp (s := (peer', d.tx)) (hs ▸ hid), stream_eq hp hid]
      unfold PeerState.stream
      dsimp only
      rw [hs]
    · rw [stream_put_of_ne (s := (peer', d.tx)) hi rfl]

theorem opened_accounts {packets : List Bytes} (hd : d.Sound) (hp : d.peerFor index = some peer)
    (hch : Chain PeerDid ({ peer with dataEnabled := true }, d.tx) log t)
    (hl : FlushLog packets log) :
    Accounts d (d.put index t) (fun _ => []) [] (t.2.txPacketDrops - d.tx.txPacketDrops) []
      ((log.map (Event.peer index)).flatMap (Event.settled true))
      ((log.map (Event.peer index)).flatMap (Event.published true)) := by
  have hs := (hd.get hp).1
  have ho : (d.put index ({ peer with dataEnabled := true }, d.tx)).Sound :=
    hd.put (hs.gate true) (hd.get hp).2
  have ha := chain_did id (chain_peer id (peerFor_put_self
    (s := ({ peer with dataEnabled := true }, d.tx)) (peerFor_lt hp)) rfl rfl hch)
  rw [put_put] at ha
  have har : ∀ i, (log.map (Event.peer index)).flatMap (Event.arrived i) = [] := by
    intro i
    rw [flatMap_map]
    exact flatMap_eq_nil_iff.mpr fun _ _ => rfl
  refine Accounts.alike ?_ (alike_gate { peer with dataEnabled := true } hp hs.peerID rfl rfl)
  constructor
  · intro i
    rw [flushLog_settled hl index i, ← chain_balance ha ho i, har]
  · exact chain_preconfirm ha true
  · have hdr := (peer_counts hch index).2
    dsimp only at hdr
    omega
  · exact flatMap_publication _ true
  · rw [filter_flatMap, flatMap_eq_nil_iff.mpr fun ev _ => ev.published_retained]
    exact List.Sublist.refl _
  · exact chain_published_whole ha true
  · intro i
    rw [flatMap_published, ← chain_stream ha ho]
    rfl

/-- The run stays within the sizes of the native device, opens a gate only with room in the ring for
the packets behind it, closes no gate and removes no peer with packets behind it, and keeps the ring
within an `int`. -/
def Regular (d : Device) : Call → Prop
  | .batch reads => ∀ read ∈ reads, 0 ≤ read.size ∧ read.size ≤ d.innerMTU
  | .setDataEnabled id true => d.dataFragments * (d.pendingOf id).length ≤
    d.tx.queue.slots - d.tx.queue.contents.length
  | .setDataEnabled id false => d.pendingOf id = []
  | .reconfigure added removed routes accepted =>
    d.Admits (.reconfigure added removed routes accepted) ∧ ∀ id ∈ removed, d.pendingOf id = []
  | _ => True

/-- An opening fails only because the ring is full. -/
theorem opening_full {u : PeerState × Tx} {e : TxError} (hd : d.Clean)
    (hp : d.peerFor index = some peer)
    (hch : Chain PeerDid ({ peer with dataEnabled := true }, d.tx) log t)
    (hf : PeerFails t e u) : isQueueFull e = true ∧
      u.2.carrierQueueOverflows = d.tx.carrierQueueOverflows + 1 := by
  obtain ⟨hs, heq⟩ := chain_sound_peer hch ((hd.sound.get hp).1.gate true)
  have hfi := hd.fitting.1 index peer (peerFor_eq_some.mp hp)
  have hrm : t.1.sender.packetizer.carrierPayload ≤ t.2.queue.payloadStride := by
    unfold DataQueue.payloadStride
    rw [(chain_extends hch).1, hs.payload, heq.config]
    dsimp only
    omega
  obtain ⟨hfu, -, ho, -⟩ := hf.full hs hrm
  rw [(peer_counts hch index).1] at ho
  exact ⟨hfu, ho⟩

/-- With room for the packets behind it, a gate opens without meeting a full ring. -/
theorem opening_spared (id : PeerID) (hd : d.Clean) (hrm : d.dataFragments *
    (d.pendingOf id).length ≤ d.tx.queue.slots - d.tx.queue.contents.length) :
    (setDataEnabled id true d).2.tx.carrierQueueOverflows = d.tx.carrierQueueOverflows := by
  unfold setDataEnabled
  cases hp : d.peerFor id with
  | none => rfl
  | some peer =>
    dsimp only
    rw [if_neg (by simp)]
    split
    · rfl
    obtain ⟨hs, hb⟩ := hd.sound.get hp
    have hbu := hd.idle id peer (peerFor_eq_some.mp hp)
    have hle := d.tx.queue.length_le_slots
    have hw : weight d.dataFragments { peer with dataEnabled := true } =
        d.dataFragments * (d.pendingOf id).length := by
      unfold weight
      rw [if_pos rfl, hbu, begun_nil, Nat.zero_add, pendingOf_eq hp]
      rfl
    have hsp : Shim.Spared d.dataFragments d.innerMTU id 0
        ({ peer with dataEnabled := true }, d.tx)
        (flushPending ({ peer with dataEnabled := true }, d.tx)) := by
      refine flushPending_spared ⟨hs.gate true, hb, rfl, ?_⟩
      dsimp only
      rw [hw]
      omega
    have ho := hsp.overflows
    generalize flushPending ({ peer with dataEnabled := true }, d.tx) = out at ho
    obtain ⟨res, _, _⟩ := out
    cases res with
    | ok => exact ho
    | error =>
      dsimp only
      split <;> exact ho

theorem gate_accounts (id : PeerID) (enabled : Bool) (hd : d.Clean)
    (hr : d.Regular (.setDataEnabled id enabled)) :
    (setDataEnabled id enabled d).2.Clean ∧ ∃ ledger sent,
      Accounts d (setDataEnabled id enabled d).2 (fun _ => []) []
        ((setDataEnabled id enabled d).2.tx.txPacketDrops - d.tx.txPacketDrops) [] ledger sent := by
  have hs := setDataEnabled_gateSet id enabled hd.sound.tidy
  have hsn := hs.sound hd.sound
  have hfi := hs.fitting hd.sound hd.fitting
  have hro := hd.roomy.kept (hs.kept hd.sound)
  have hst : ∃ ledger sent, Accounts d d (fun _ => []) []
      (d.tx.txPacketDrops - d.tx.txPacketDrops) [] ledger sent := by
    rw [Nat.sub_self]
    exact ⟨[], [], .refl d⟩
  generalize hrun : setDataEnabled id enabled d = out at hs hsn hfi hro
  cases hs with
  | unknown | already => exact ⟨hd, hst⟩
  | @closed peer hp =>
    have hat := peerFor_eq_some.mp hp
    have hn : peer.pending = [] := by
      rw [← pendingOf_eq hp]
      exact hr
    refine ⟨⟨hsn, hfi, hro, hd.reading, Each.set hd.idle (hd.idle id peer hat),
      Each.set hd.empty fun ho => by cases ho⟩, [], [], ?_⟩
    have hal := alike_gate { peer with dataEnabled := false, pendingRing := peer.pendingRing.clear }
      hp (hd.sound.get hp).1.peerID rfl ((PendingQueue.clear_packets _).trans hn.symm)
    have ha := (Accounts.refl _).alike hal
    rw [← Nat.sub_self d.tx.txPacketDrops] at ha
    exact ha
  | @opened _ _ _ hp _ hch hl hpe hb =>
    exact ⟨⟨hsn, hfi, hro, hd.reading, Each.set hd.idle hb,
      Each.set hd.empty fun _ => hpe⟩, _, _, opened_accounts hd.sound hp hch hl⟩
  | @full _ _ _ u _ hp _ hch hf =>
    have hov := (opening_full hd hp hch hf).2
    have heq := opening_spared id hd hr
    rw [hrun] at heq
    change u.2.carrierQueueOverflows = _ at heq
    omega
  | fatal hp _ hch hf hfu =>
    rw [(opening_full hd hp hch hf).1] at hfu
    cases hfu

/-! ### Runs -/

/-- The packets that a call newly retains for the peer. -/
def arrived (i : ℕ) (d : Device) : Call → List Bytes
  | .batch reads => d.entered.elim [] (retainedLoop i reads)
  | _ => []

/-- The packets of a batch that it does not retain. -/
def handed (d : Device) : Call → List Bytes
  | .batch reads => d.entered.elim [] (handedLoop reads)
  | _ => []

/-- The packets that are counted as dropped when a gate is set. -/
def refusals (d : Device) : Call → ℕ
  | .setDataEnabled id enabled =>
    (setDataEnabled id enabled d).2.tx.txPacketDrops - d.tx.txPacketDrops
  | _ => 0

/-- The carriers that leave the ring: the oldest one, all if a new data plane replaces it, or those
of removed peers. -/
def taken (d : Device) : Call → List (PeerID × Bytes)
  | .dequeue => d.tx.queue.dequeue.elim [] fun found => [found.1]
  | .install id config accepted =>
    match (installDataPlane id config accepted d).1 with
    | .ok () => d.tx.queue.contents
    | .error _ => []
  | .reconfigure added removed routes accepted =>
    match (reconfigure added removed routes accepted d).1 with
    | .ok () => d.tx.queue.contents.filter (·.1 ∈ removed)
    | .error _ => []
  | _ => []

theorem dequeue_accounts (hd : d.Clean) : (d.call .dequeue).Clean ∧
    Accounts d (d.call .dequeue) (fun _ => []) [] 0 (d.taken .dequeue) [] [] := by
  have hs := call_sound .dequeue hd.sound
  obtain ⟨hu, hr⟩ := call_roomy .dequeue hd.sound hd.fitting.1 hd.roomy trivial
  have hf := call_fitting .dequeue hd.sound hd.fitting hu
  unfold call taken at *
  cases hq : d.tx.queue.dequeue with
  | none => exact ⟨hd, .refl d⟩
  | some found =>
    rw [hq] at hs hf hr
    refine ⟨⟨hs, hf, hr, hd.reading, hd.idle, hd.empty⟩, ?_⟩
    refine Accounts.taking (fun _ => rfl) rfl fun i => ?_
    have hc : d.tx.queue.contents = [found.1] ++ found.2.contents := (DataQueue.dequeue_some hq).1
    show d.stream i = recordsFor i [found.1] ++ (d.setQueue found.2).stream i
    rw [stream_idle hd.idle, stream_idle (d := d.setQueue found.2) hd.idle, hc, recordsFor_append]
    rfl

theorem install_accounts (id : PeerID) (config : SenderConfig) (accepted : Bool) (hd : d.Clean) :
    (d.call (.install id config accepted)).Clean ∧
      Accounts d (d.call (.install id config accepted)) (fun _ => []) [] 0
        (d.taken (.install id config accepted)) [] [] := by
  have hsn := call_sound (.install id config accepted) hd.sound
  obtain ⟨hu, hr⟩ := call_roomy (.install id config accepted) hd.sound hd.fitting.1
    hd.roomy trivial
  have hf := call_fitting (.install id config accepted) hd.sound hd.fitting hu
  have he := installDataPlane_end id config accepted d
  unfold call taken Unbroken at *
  dsimp only at *
  generalize installDataPlane id config accepted d = out at hsn hf hr hu he ⊢
  cases he with
  | refused => exact ⟨hd, .refl d⟩
  | late =>
    have heq := hu.resolve_left fun hok => by cases hok
    rw [heq]
    exact ⟨hd, .refl d⟩
  | @done peer sender _ hp _ _ _ hs hc =>
    have hat := peerFor_eq_some.mp hp
    have hb : sender.packetizer.buffer = [] := by rw [(newPayloadSender_ok hs).2.2]
    have hid : Each (fun _ peer => peer.sender.packetizer.buffer = []) (d.peers.set id
        (some (replanned d.innerMTU peer (carried peer config) sender))) :=
      Each.set hd.idle hb
    refine ⟨⟨hsn, hf, hr, hd.reading, hid, Each.set hd.empty (hd.empty id peer hat)⟩, ?_⟩
    refine Accounts.taking (fun i => ?_) rfl fun i => ?_
    · by_cases hi : i = id
      · subst hi
        rw [pendingOf_eq hp]
        exact pendingOf_put_self (s := (replanned d.innerMTU peer (carried peer config) sender,
          d.tx)) hp
      · exact pendingOf_put_of_ne (s := (replanned d.innerMTU peer (carried peer config) sender,
          d.tx)) hi
    · rw [stream_idle hd.idle]
      refine (append_nil _).symm.trans (congrArg (_ ++ ·) ?_)
      rw [stream_idle hid]
      exact (congrArg (recordsFor i) hc).symm

/-! ### Reconfigurations -/

section Reconfigure
variable {peers peers' : Peers} {routes : Option Route.Snapshot}

/-- The packets retained for the peer at a place. -/
def retainedAt (peers : Peers) (i : ℕ) : List Bytes :=
  (peers.getD i none).elim [] PeerState.pending

private theorem retainedAt_set (found : Option PeerState) (hold : retainedAt peers index = [])
    (hnew : found.elim [] PeerState.pending = []) (i : ℕ) :
    retainedAt (peers.set index found) i = retainedAt peers i := by
  unfold retainedAt at hold ⊢
  rw [getD_eq_getElem?_getD] at hold
  rw [getD_eq_getElem?_getD, getD_eq_getElem?_getD, getElem?_set]
  split_ifs with heq hlt
  · subst heq
    exact hnew.trans hold.symm
  · subst heq
    exact hold.symm
  · rfl

private theorem removePeers_retained {ids : List PeerID}
    (hrun : removePeers ids peers = some peers')
    (h : ∀ id ∈ ids, retainedAt peers id = []) (i : ℕ) :
    retainedAt peers' i = retainedAt peers i := by
  induction ids generalizing peers with
  | nil =>
    obtain rfl := Option.some.inj hrun
    rfl
  | cons _ _ ih =>
    unfold removePeers at hrun
    split_ifs at hrun
    obtain ⟨hid, hids⟩ := forall_mem_cons.mp h
    have hset := retainedAt_set none hid rfl
    rw [ih hrun fun id hmem => (hset id).trans (hids id hmem), hset]

private theorem addPeers_retained {added : PeerConfigs}
    (hrun : addPeers d routes added peers = some peers') (i : ℕ) :
    retainedAt peers' i = retainedAt peers i := by
  induction added generalizing peers with
  | nil =>
    obtain rfl := Option.some.inj hrun
    rfl
  | cons _ _ ih =>
    unfold addPeers at hrun
    split at hrun
    · cases hrun
    rename_i hfree
    dsimp only at hrun
    split at hrun
    · cases hrun
    · next hpr =>
      rw [ih hrun]
      refine retainedAt_set (some _) ?_ (newPeerState_ok hpr).2.1 i
      unfold retainedAt
      rw [Option.not_isSome_iff_eq_none.mp hfree]
      rfl

/-- A reconfiguration that removes no peer with packets behind its gate leaves all of them. -/
theorem reconfigure_pending (added : PeerConfigs) {removed : List PeerID}
    (routes : Option Route.Snapshot) (accepted : Bool) (h : ∀ id ∈ removed, d.pendingOf id = [])
    (i : ℕ) : (reconfigure added removed routes accepted d).2.pendingOf i = d.pendingOf i := by
  unfold reconfigure
  split
  · rfl
  dsimp only
  split
  · rfl
  rename_i hrun
  split
  · rfl
  obtain ⟨_, hr, ha⟩ := Option.bind_eq_some_iff.mp hrun
  have hholes : ∀ n i, retainedAt (d.peers ++ List.replicate n none) i = d.pendingOf i := by
    intro n i
    unfold retainedAt
    rw [getD_eq_getElem?_getD, getElem?_append]
    split_ifs with hlt
    · rfl
    · have hnone : d.pendingOf i = [] := by
        unfold pendingOf peerFor
        rw [getD_eq_getElem?_getD, getElem?_eq_none (Nat.le_of_not_lt hlt)]
        rfl
      rw [hnone, getElem?_replicate]
      split_ifs <;> rfl
  have hkeep := removePeers_retained hr fun id hid => (hholes _ id).trans (h id hid)
  refine (pendingOf_mapped (d := { d with peers := _ }) rfl (fun peer => ?_) i).trans
    ((addPeers_retained ha i).trans ((hkeep i).trans (hholes _ i)))
  unfold rerouted
  split <;> rfl

end Reconfigure

private theorem recordsFor_filter (p : PeerID → Bool) (carriers : List (PeerID × Bytes)) (i : ℕ) :
    recordsFor i (carriers.filter (p ·.1)) = if p i then recordsFor i carriers else [] := by
  unfold recordsFor
  rw [filter_filter]
  split
  · next hi =>
    rw [filter_congr fun c _ => ?_]
    by_cases hc : c.1 = i <;> simp [hc, hi]
  · next hi =>
    rw [filter_eq_nil_iff.mpr fun c _ => ?_]
    · rfl
    · by_cases hc : c.1 = i <;> simp [hc, hi]

/-- The records of a peer leave the ring with it, or stay. -/
theorem recordsFor_purge (removed : List PeerID) (carriers : List (PeerID × Bytes)) (i : ℕ) :
    recordsFor i carriers = recordsFor i (carriers.filter (·.1 ∈ removed)) ++
      recordsFor i (carriers.filter (·.1 ∉ removed)) := by
  rw [recordsFor_filter (· ∈ removed), recordsFor_filter (· ∉ removed)]
  by_cases hi : i ∈ removed <;> simp [hi]

private theorem reconfigure_accounts (added : PeerConfigs) (removed : List PeerID)
    (routes : Option Route.Snapshot) (accepted : Bool) (hd : d.Clean)
    (hc : d.Regular (.reconfigure added removed routes accepted)) :
    (d.call (.reconfigure added removed routes accepted)).Clean ∧
      Accounts d (d.call (.reconfigure added removed routes accepted)) (fun _ => []) [] 0
        (d.taken (.reconfigure added removed routes accepted)) [] [] := by
  have hsn := call_sound (.reconfigure added removed routes accepted) hd.sound
  obtain ⟨hu, hr⟩ := call_roomy (.reconfigure added removed routes accepted) hd.sound
    hd.fitting.1 hd.roomy hc.1
  have hf := call_fitting (.reconfigure added removed routes accepted) hd.sound hd.fitting hu
  have he := reconfigure_end added removed routes accepted d
  have hpe := reconfigure_pending added routes accepted hc.2
  unfold call taken at *
  dsimp only at *
  generalize reconfigure added removed routes accepted d = out at hsn hf hr he hpe ⊢
  cases he with
  | refused => exact ⟨hd, .refl d⟩
  | @done peers _ queue hea _ hco =>
    have hid : Each (fun _ peer => peer.sender.packetizer.buffer = []) peers :=
      hea _ hd.idle (fun _ _ _ _ _ hpr => (newPeerState_ok hpr).2.2.2.1) fun _ _ h => h
    have hem : Each (fun _ peer => peer.dataEnabled = true → peer.pending = []) peers :=
      hea _ hd.empty (fun _ _ _ _ _ hpr _ => (newPeerState_ok hpr).2.1) fun _ _ h => h
    refine ⟨⟨hsn, hf, hr, hd.reading, hid, hem⟩, Accounts.taking hpe rfl fun i => ?_⟩
    rw [stream_idle hd.idle, stream_idle hid, recordsFor_purge removed]
    exact congrArg (_ ++ recordsFor i ·) hco.symm

theorem call_accounts (c : Call) (hd : d.Clean) (hc : d.Regular c) :
    (d.call c).Clean ∧ ∃ ledger sent, Accounts d (d.call c) (fun i => d.arrived i c) (d.handed c)
      (d.refusals c) (d.taken c) ledger sent := by
  cases c with
  | batch =>
    have hb := batch_accounts hd hc
    unfold call arrived handed
    dsimp only
    rw [if_pos hd.reading, entered_clean hd]
    exact hb
  | setDataEnabled id enabled => exact gate_accounts id enabled hd hc
  | install id config accepted =>
    obtain ⟨hcl, ha⟩ := install_accounts id config accepted hd
    exact ⟨hcl, [], [], ha⟩
  | reconfigure added removed routes accepted =>
    obtain ⟨hcl, ha⟩ := reconfigure_accounts added removed routes accepted hd hc
    exact ⟨hcl, [], [], ha⟩
  | dequeue =>
    obtain ⟨hcl, ha⟩ := dequeue_accounts hd
    exact ⟨hcl, [], [], ha⟩
  | resetTransportErrors =>
    refine ⟨⟨hd.sound, ⟨hd.fitting.1, fun hs => by cases hs⟩, hd.roomy.kept ⟨rfl, fun h => h⟩,
      hd.reading, hd.idle, hd.empty⟩, [], [], ?_⟩
    exact Accounts.taking (fun _ => rfl) rfl fun _ => rfl

/-- What the calls of a run yield, one after the other. -/
def gather {α : Type} (f : Device → Call → List α) : Device → List Call → List α
  | _, [] => []
  | d, c :: calls => f d c ++ gather f (d.call c) calls

def tally (f : Device → Call → ℕ) : Device → List Call → ℕ
  | _, [] => 0
  | d, c :: calls => f d c + tally f (d.call c) calls

theorem runCalls_accounts {calls : List Call} (hd : d.Clean) (hc : Along Regular d calls) :
    (d.runCalls calls).Clean ∧ ∃ ledger sent, Accounts d (d.runCalls calls)
      (fun i => gather (arrived i) d calls) (gather handed d calls) (tally refusals d calls)
      (gather taken d calls) ledger sent := by
  induction calls generalizing d with
  | nil => exact ⟨hd, [], [], .refl d⟩
  | cons c _ ih =>
    obtain ⟨hcl, _, _, ha⟩ := call_accounts c hd hc.1
    obtain ⟨hc', _, _, ha'⟩ := ih hcl hc.2
    exact ⟨hc', _, _, ha.trans ha'⟩

theorem new_start {c : DeviceConfig} {accepted : Bool} (h : new c accepted = .ok d) :
    d.reading = true ∧ d.tx.preconfirmDrops = 0 := by
  unfold new at h
  dsimp only at h
  split at h
  · cases h
  split at h
  · cases h
  · obtain rfl := Except.ok.inj h
    exact ⟨rfl, rfl⟩

theorem new_clean {c : DeviceConfig} {accepted : Bool} (h : new c accepted = .ok d)
    (hr : c.Roomy) : d.Clean ∧ ∀ i, d.pendingOf i = [] := by
  obtain ⟨_, hpe, -⟩ := new_ok h
  have he := (newPeers_each (P := fun _ p => p.sender.packetizer.buffer = [] ∧ p.pending = [])
    (fun config hc peer hpr => ⟨(newPeerState_ok hpr).2.2.2.1, (newPeerState_ok hpr).2.1⟩)
    hpe).2
  refine ⟨⟨new_sound h, new_fitting h, new_roomy h hr, (new_start h).1,
    Each.imp he fun _ _ hp => hp.1, Each.imp he fun _ _ hp _ => hp.2⟩, fun i => ?_⟩
  unfold pendingOf
  cases hpr : d.peerFor i with
  | none => rfl
  | some peer => exact (he i peer (peerFor_eq_some.mp hpr)).2

/-- In a regular run every packet that was retained has one entry in the ledger, or is still
retained. The overwritten ones are those of `preconfirmDrops`, the refused ones are counted when
their gate opens, and the records of the published ones enter the ring, once and as a whole; all
other records in the ring are of packets that were never retained. -/
theorem retained_accounted {config : DeviceConfig} {accepted : Bool} {calls : List Call}
    (hnew : new config accepted = .ok d) (hroomy : config.Roomy) (hcalls : Along Regular d calls) :
    ∃ (ledger : List Settled) (sent : List Publication),
      (∀ i, gather (arrived i) d calls = (ledger.filter (·.index == i)).map Settled.packet ++
        (d.runCalls calls).pendingOf i) ∧
      (d.runCalls calls).tx.preconfirmDrops = ledger.countP Settled.overwritten ∧
      tally refusals d calls = ledger.countP Settled.refused ∧
      ledger.filterMap Settled.publication = sent.filter Publication.retained ∧
      ((sent.filter (!·.retained)).map Publication.packet).Sublist (gather handed d calls) ∧
      (∀ p ∈ sent, ∃ metadata, Cuts (InnerIP.trim p.packet) metadata p.records) ∧
      ∀ i, recordsFor i (gather taken d calls ++ (d.runCalls calls).tx.queue.contents) =
        (sent.filter (·.index == i)).flatMap Publication.records := by
  obtain ⟨hcln, hpen⟩ := new_clean hnew hroomy
  obtain ⟨_, -, -, hcon, -⟩ := new_ok hnew
  obtain ⟨hend, ledger, sent, hacc⟩ := runCalls_accounts hcln hcalls
  refine ⟨ledger, sent, fun i => ?_, ?_, hacc.refused, hacc.published, hacc.direct,
    hacc.whole, fun i => ?_⟩
  · rw [← hacc.balance i, hpen]
    rfl
  · rw [hacc.overwritten, (new_start hnew).2, Nat.zero_add]
  have hstr := hacc.stream i
  rw [stream_idle hcln.idle, stream_idle hend.idle, hcon] at hstr
  rw [recordsFor_append, ← hstr]
  rfl

def inner500 (mark : UInt8) : Bytes :=
  [0x45, 0, 1, 0xf4, 0, 0, 0, 0, 64, 17, 0, 0, 10, 0, 0, 1, 10, 0, 0, 2] ++ List.replicate 480 mark

def read500 (mark : UInt8) : NativeRead := ⟨500, inner500 mark⟩

private theorem gatedConfig_accepted : (new (gatedConfig 2) true).toOption.isSome = true := by
  decide +kernel

private theorem gatedConfig_accepted16 : (new (gatedConfig 16) true).toOption.isSome = true := by
  decide +kernel

def gatedDevice : Device := (new (gatedConfig 2) true).toOption.get gatedConfig_accepted

def gatedDevice16 : Device := (new (gatedConfig 16) true).toOption.get gatedConfig_accepted16

private theorem gatedDevice_new :
    new (gatedConfig 2) true = .ok gatedDevice := ok_get gatedConfig_accepted

private theorem gatedDevice16_new : new (gatedConfig 16) true = .ok gatedDevice16 :=
  ok_get gatedConfig_accepted16

/-- Two packets are retained, published when their gate opens, and leave. -/
theorem retained_accounted_sample : new (gatedConfig 16) true = .ok gatedDevice16 ∧
    (gatedConfig 16).Roomy ∧
    Along Regular gatedDevice16 [.batch [read500 1, read500 2], .setDataEnabled 0 true, .dequeue] ∧
    gather (arrived 0) gatedDevice16
      [.batch [read500 1, read500 2], .setDataEnabled 0 true, .dequeue] = [inner500 1, inner500 2] ∧
    ∃ (ledger : List Settled) (sent : List Publication),
      [inner500 1, inner500 2] = (ledger.filter (·.index == 0)).map Settled.packet ++
        (gatedDevice16.runCalls [.batch [read500 1, read500 2], .setDataEnabled 0 true,
          .dequeue]).pendingOf 0 ∧
      ledger.filterMap Settled.publication = sent.filter Publication.retained := by
  have hroo : (gatedConfig 16).Roomy := by
    unfold DeviceConfig.Roomy
    decide
  have hreg : Along Regular gatedDevice16
      [.batch [read500 1, read500 2], .setDataEnabled 0 true, .dequeue] := by
    refine ⟨?_, ?_, trivial, trivial⟩
    · intro read hread
      have hmtu : gatedDevice16.innerMTU = 1280 := by decide +kernel
      have hsize : read.size = 500 := by
        rcases mem_pair.mp hread with rfl | rfl <;> rfl
      rw [hmtu, hsize]
      decide
    · unfold Regular
      decide +kernel
  have harr : gather (arrived 0) gatedDevice16
      [.batch [read500 1, read500 2], .setDataEnabled 0 true, .dequeue] =
      [inner500 1, inner500 2] := by decide +kernel
  obtain ⟨ledger, sent, hbal, -, -, hpub, -⟩ := retained_accounted gatedDevice16_new hroo hreg
  refine ⟨gatedDevice16_new, hroo, hreg, harr, ledger, sent, ?_, hpub⟩
  rw [← hbal 0, harr]

/-- A gate that is closed again forgets the packet it retained, and nothing counts it. A gate that
opens into a full ring counts all five packets as dropped, but keeps the last one, which the next
batch publishes. -/
theorem gate_loses_and_keeps : new (gatedConfig 2) true = .ok gatedDevice ∧
    gather (arrived 0) gatedDevice [.batch [read500 1], .setDataEnabled 0 false] = [inner500 1] ∧
    (gatedDevice.runCalls [.batch [read500 1], .setDataEnabled 0 false]).pendingOf 0 = [] ∧
    (gatedDevice.runCalls [.batch [read500 1], .setDataEnabled 0 false]).tx.queue.contents = [] ∧
    (gatedDevice.runCalls [.batch [read500 1], .setDataEnabled 0 false]).tx.preconfirmDrops = 0 ∧
    (gatedDevice.runCalls [.batch [read500 1], .setDataEnabled 0 false]).tx.txPacketDrops = 0 ∧
    (gatedDevice.runCalls [.batch [read500 1, read500 2, read500 3, read500 4, read500 5],
      .setDataEnabled 0 true]).tx.preconfirmDrops = 5 ∧
    (gatedDevice.runCalls [.batch [read500 1, read500 2, read500 3, read500 4, read500 5],
      .setDataEnabled 0 true]).pendingOf 0 = [inner500 5] ∧
    (recordsFor 0 (gatedDevice.runCalls [.batch [read500 1, read500 2, read500 3, read500 4,
      read500 5], .setDataEnabled 0 true, .batch [read500 6]]).tx.queue.contents).flatMap
        Record.data = inner500 5 ++ inner500 6 := by
  -- One evaluation for all parts, since they share their runs.
  refine ⟨gatedDevice_new, ?_⟩
  decide +kernel

end Device
end WgFrag.Shim
