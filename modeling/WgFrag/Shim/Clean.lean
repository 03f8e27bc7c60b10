import WgFrag.Shim.Ledger

/-! Native batches on a device between calls: no carrier is in use and no packet waits behind an open
gate. Such a batch ends well, or the ring is full and it leaves the ring as it was. -/
namespace WgFrag.Shim
open WgFrag.Lib WgFrag.Data Limits List

variable {s t : PeerState × Tx}

namespace Device
variable {d d' : Device} {ev : Event} {log : List Event} {index i : ℕ} {peer : PeerState}
variable {e : TxError}

/-! ### Devices between calls -/

/-- No carrier is in use behind a closed gate. -/
def Shut (d : Device) : Prop :=
  Each (fun _ peer => peer.dataEnabled = false → peer.sender.packetizer.buffer = []) d.peers

/-- No packet is retained behind an open gate. -/
def Empty (d : Device) : Prop :=
  Each (fun _ peer => peer.dataEnabled = true → peer.pending = []) d.peers

/-- The native reader runs, no carrier is in use, and an open gate has no packet behind it. -/
structure Clean (d : Device) : Prop where
  sound : d.Sound
  fitting : d.Fitting
  roomy : d.Roomy
  reading : d.reading = true
  idle : Each (fun _ peer => peer.sender.packetizer.buffer = []) d.peers
  empty : d.Empty

private theorem flushPending_idle (hp : s.1.pending = [])
    (hb : s.1.sender.packetizer.buffer = []) : flushPending s = (.ok (), s) := by
  have hz : s.1.pendingRing.ring.count = 0 := by
    rw [← PendingQueue.packets_length]
    exact congrArg length hp
  unfold flushPending
  rw [hz]
  unfold flushLoop flushSender
  rw [Sender.flush_eq]
  unfold Sender.onPacketizer Packetizer.flush
  rw [if_pos hb]

theorem forEnabled_idle (hd : d.Clean) (indices : List ℕ) :
    forEnabled flushPending indices d = (.ok (), d) := by
  induction indices with
  | nil => rfl
  | cons index _ ih =>
    unfold forEnabled
    rw [Eff.get_bind]
    by_cases hg : (d.peerFor index).any PeerState.dataEnabled = true
    · obtain ⟨peer, hp, ho⟩ := (Option.any_eq_true _ _).mp hg
      have hat := peerFor_eq_some.mp hp
      have hid : flushPending (peer, d.tx) = (.ok (), (peer, d.tx)) :=
        flushPending_idle (hd.empty index peer hat ho) (hd.idle index peer hat)
      rw [if_pos hg, Eff.bind_apply, onPeer_eq hp, hid, put_self hp]
      exact ih
    · rw [if_neg hg]
      exact ih

theorem stream_idle (h : Each (fun _ peer => peer.sender.packetizer.buffer = []) d.peers) (i : ℕ) :
    d.stream i = recordsFor i d.tx.queue.contents := by
  unfold stream
  cases hp : d.peerFor i with
  | none => exact append_nil _
  | some peer =>
    have hb := h i peer (peerFor_eq_some.mp hp)
    dsimp only [Option.elim_some]
    rw [hb]
    exact append_nil _

/-! ### Batches -/

/-- The device when a batch gets to its reads. -/
def entered (d : Device) : Option Device :=
  if d.reading then
    match forEnabled flushPending (List.range d.peers.length) d with
    | (.ok (), d') => some d'
    | (.error _, _) => none
  else none

theorem entered_clean (hd : d.Clean) : d.entered = some d := by
  unfold entered
  rw [if_pos hd.reading, forEnabled_idle hd]

theorem Did.shut (h : Did d ev d') (hev : ev.Plain d.gate) (hd : d.Shut) : d'.Shut := by
  cases h with
  | dropped => exact hd
  | @retained index peer _ _ hp hcl =>
    refine Each.set hd fun _ => ?_
    have hb := hd index peer (peerFor_eq_some.mp hp) hcl
    unfold enqueuePending
    split <;> exact hb
  | @peer index _ _ _ hp hdi =>
    refine Each.set hd fun hcl => ?_
    have ho : d.gate index = true := hev.1
    rw [gate_eq hp, ← hdi.same.dataEnabled, hcl] at ho
    cases ho

theorem chain_shut (h : Chain Did d log d') (hl : ∀ ev ∈ log, ev.Plain d.gate)
    (hd : d.Shut) : d'.Shut := by
  induction h with
  | nil => exact hd
  | cons hdi _ ih =>
    obtain ⟨hev, hl⟩ := forall_mem_cons.mp hl
    rw [← funext hdi.gate] at hl
    exact ih hl (hdi.shut hev hd)

theorem chain_reading (h : Chain Did d log d') : d'.reading = d.reading :=
  h.invariant (I := fun d' => d'.reading = d.reading)
    (fun _ _ _ hd hc => (by cases hd <;> exact hc)) rfl

theorem Did.empty (h : Did d ev d') (hd : d.Empty) : d'.Empty := by
  cases h with
  | dropped => exact hd
  | @retained _ peer packet _ _ hcl =>
    refine Each.set hd fun ho => ?_
    rw [(enqueuePending_same packet peer d.tx).dataEnabled, hcl] at ho
    cases ho
  | @peer index peer _ _ hp hdi =>
    refine Each.set hd fun ho => ?_
    rw [hdi.same.dataEnabled] at ho
    have hn := hd index peer (peerFor_eq_some.mp hp) ho
    have hl := hdi.left
    rw [hn] at hl
    exact (append_eq_nil_iff.mp hl.symm).2

theorem chain_empty (h : Chain Did d log d') (hd : d.Empty) : d'.Empty :=
  h.invariant (I := Empty) (fun _ _ _ hdi => hdi.empty) hd

theorem pendingOf_mapped {f : PeerState → PeerState}
    (hp : d'.peers = d.peers.map (Option.map f)) (hf : ∀ peer, (f peer).pending = peer.pending)
    (i : ℕ) : d'.pendingOf i = d.pendingOf i := by
  unfold pendingOf peerFor
  rw [hp, getD_eq_getElem?_getD, getD_eq_getElem?_getD, getElem?_map]
  cases hg : d.peers[i]? with
  | none => rfl
  | some found =>
    cases found with
    | none => rfl
    | some peer => exact hf peer

/-- How a batch on a clean device ends, if its sizes are right: well, or with a step that fails. -/
theorem processNativeBatch_plain {reads : List NativeRead} (hd : d.Clean)
    (hs : ∀ read ∈ reads, 0 ≤ read.size ∧ read.size ≤ d.innerMTU) :
    (∃ log, Logs reads d log (processNativeBatch reads d).2 ∧
      handedLoop reads d = log.flatMap Event.handed) ∨
    ∃ log d1 d2 e, Logs reads d log d1 ∧ Fails d1 e d2 ∧
      (processNativeBatch reads d).2 = (d2.failBatch d.tx.queue.ring.count e).2 := by
  have he : ∀ {d1}, Enters d d1 → d1 = d := by
    rintro d1 ⟨-, hrun⟩
    rw [forEnabled_idle hd] at hrun
    exact (congrArg Prod.snd hrun).symm
  have hba := processNativeBatch_batched reads hd.sound.tidy
  generalize (processNativeBatch reads d).2 = d' at hba
  cases hba with
  | done h1 hl hh =>
    obtain rfl := he h1
    exact .inl ⟨_, hl, hh⟩
  | entering _ _ hrun =>
    rw [forEnabled_idle hd] at hrun
    cases hrun
  | failed h1 hl hf =>
    obtain rfl := he h1
    exact .inr ⟨_, _, _, _, hl, hf, rfl⟩
  | size _ hb =>
    obtain ⟨read, hmem, hb⟩ := hb
    have := hs read hmem
    omega

theorem Fails.full (h : Fails d e d') (hd : d.Sound) (hft : d.Fits) :
    isQueueFull e = true ∧ (∀ i, d'.pendingOf i = d.pendingOf i) ∧
      d'.tx.preconfirmDrops = d.tx.preconfirmDrops := by
  cases h with
  | @peer index peer _ _ hp hf =>
    have hs := (hd.get hp).1
    have hfi := hft index peer (peerFor_eq_some.mp hp)
    have hrm : peer.sender.packetizer.carrierPayload ≤ d.tx.queue.payloadStride := by
      rw [hs.payload]
      unfold DataQueue.payloadStride
      omega
    obtain ⟨hfu, hpe, -, hpr, -⟩ := hf.full hs hrm
    refine ⟨hfu, fun i => ?_, hpr⟩
    by_cases hi : i = index
    · subst hi
      rw [pendingOf_put_self hp, pendingOf_eq hp]
      exact hpe
    · exact pendingOf_put_of_ne hi

theorem Fails.empty (h : Fails d e d') (hd : d.Sound) (hft : d.Fits)
    (he : d.Empty) : d'.Empty := by
  have hpe := (h.full hd hft).2.1
  cases h with
  | @peer index peer _ _ hp hf =>
    refine Each.set he fun ho => ?_
    rw [hf.same.dataEnabled] at ho
    have heq := hpe index
    rw [pendingOf_put_self hp, pendingOf_eq hp] at heq
    rw [heq]
    exact he index peer (peerFor_eq_some.mp hp) ho

theorem Fails.reading (h : Fails d e d') : d'.reading = d.reading := by
  cases h with
  | peer => rfl

theorem Logs.quiet {reads : List NativeRead} (h : Logs reads d log d') : ∀ ev ∈ log, ev.Quiet := by
  rintro _ hev i packet rfl
  exact (h.plain _ hev).2 packet rfl

/-- A batch that meets a full ring leaves the ring and the records as they were. -/
theorem failBatch_clean {d1 d2 : Device} {reads : List NativeRead} (hd : d.Clean)
    (hpl : Logs reads d log d1) (hf : Fails d1 e d2) (handed : List Bytes) :
    (d2.failBatch d.tx.queue.ring.count e).2.Clean ∧
      Accounts d (d2.failBatch d.tx.queue.ring.count e).2 (fun i => log.flatMap (Event.arrived i))
        handed 0 [] (log.flatMap (Event.settled false)) [] := by
  have hs := chain_sound hpl.chain hd.sound
  have hfi := chain_fitting hpl.chain hd.fitting
  obtain ⟨hfu, hp, hpr⟩ := hf.full hs hfi.1
  have hs' := failBatch_sound (hf.sound hs) d.tx.queue.ring.count e
  have hf' := failBatch_fitting d.tx.queue.ring.count hf hs hfi
  have hr' := hd.roomy.kept ((chain_kept hpl.chain).trans
    (hf.kept.trans (failBatch_kept d.tx.queue.ring.count e)))
  have he' := hf.empty hs hfi.1 (chain_empty hpl.chain hd.empty)
  have hr : d2.reading = true := by
    rw [hf.reading, chain_reading hpl.chain, hd.reading]
  have hc := rollback_contents d.tx.queue
    ((chain_contents hpl.chain).trans hf.contents)
  unfold failBatch at hs' hf' hr' ⊢
  rw [if_pos hfu] at hs' hf' hr' ⊢
  have hid : Each (fun _ peer => peer.sender.packetizer.buffer = [])
      (d2.peers.map (Option.map PeerState.resetPending)) :=
    Each.map (P := fun _ _ => True) (fun _ _ _ => trivial) fun _ _ _ => rfl
  refine ⟨⟨hs', hf', hr', hr, hid, Each.map he' fun _ _ h => h⟩, ?_⟩
  refine dropped_accounts hpl.chain hd.sound hpl.quiet (fun i => ?_) ?_ (fun i => ?_) handed
  · rw [← hp i]
    exact pendingOf_mapped (f := PeerState.resetPending) rfl (fun _ => rfl) i
  · exact hpr
  · rw [stream_idle hid, stream_idle hd.idle]
    exact congrArg (recordsFor i) hc

theorem batch_accounts {reads : List NativeRead} (hd : d.Clean)
    (hs : ∀ read ∈ reads, 0 ≤ read.size ∧ read.size ≤ d.innerMTU) :
    (processNativeBatch reads d).2.Clean ∧ ∃ ledger sent,
      Accounts d (processNativeBatch reads d).2 (fun i => retainedLoop i reads d)
        (handedLoop reads d) 0 [] ledger sent := by
  have hdr := (processNativeBatch_batched reads hd.sound.tidy).drained
  rcases processNativeBatch_plain hd hs with ⟨log, hpl, hh⟩ | ⟨log, d1, d2, e, hpl, hf, hrun⟩
  · have hr := (chain_reading hpl.chain).trans hd.reading
    have hshut := chain_shut hpl.chain hpl.plain (Each.imp hd.idle fun _ _ h _ => h)
    have ha := chain_accounts hpl.chain hd.sound hpl.quiet
    rw [← hh, show (fun i => log.flatMap (Event.arrived i)) = fun i => retainedLoop i reads d
      from funext fun i => (hpl.arrived i).symm] at ha
    refine ⟨⟨chain_sound hpl.chain hd.sound, chain_fitting hpl.chain hd.fitting,
      hd.roomy.kept (chain_kept hpl.chain), hr, ?_, chain_empty hpl.chain hd.empty⟩,
      _, _, ha⟩
    intro i peer hp
    cases hg : peer.dataEnabled with
    | true => exact hdr hr i peer hp hg
    | false => exact hshut i peer hp hg
  · obtain ⟨hc, ha⟩ := failBatch_clean hd hpl hf (handedLoop reads d)
    rw [← hrun] at hc ha
    rw [show (fun i => log.flatMap (Event.arrived i)) = fun i => retainedLoop i reads d
      from funext fun i => (hpl.arrived i).symm] at ha
    exact ⟨hc, _, _, ha⟩

end Device
end WgFrag.Shim
