import WgFrag.Shim.Steps

/-! Native batches and openings of gates as logs of steps on the device. -/
namespace WgFrag.Shim
open WgFrag.Lib WgFrag.Data Limits List

namespace Device
variable {d d' : Device} {index : ℕ} {peer : PeerState} {s t : PeerState × Tx}
variable {reads : List NativeRead} {x : PeerM Unit} {read : NativeRead}

/-- The device after a call on one peer. -/
def put (d : Device) (index : ℕ) (s : PeerState × Tx) : Device :=
  { d.setPeer index s.1 with tx := s.2 }

theorem peerFor_eq_some : d.peerFor index = some peer ↔ d.peers[index]? = some (some peer) := by
  unfold peerFor
  rw [getD_eq_getElem?_getD]
  cases d.peers[index]? with
  | none | some => simp

theorem peerFor_lt (h : d.peerFor index = some peer) : index < d.peers.length :=
  lt_of_get (peerFor_eq_some.mp h)

theorem peerFor_mem (h : d.peerFor index = some peer) : some peer ∈ d.peers :=
  mem_of_getElem? (peerFor_eq_some.mp h)

theorem peerFor_put_self (h : index < d.peers.length) :
    (d.put index s).peerFor index = some s.1 := by
  apply peerFor_eq_some.mpr
  show (d.peers.set index (some s.1))[index]? = _
  rw [getElem?_set_self h]

theorem peerFor_put_of_ne {i : ℕ} (h : i ≠ index) : (d.put index s).peerFor i = d.peerFor i := by
  unfold peerFor put setPeer
  rw [getD_eq_getElem?_getD, getD_eq_getElem?_getD, getElem?_set_ne h.symm]

theorem put_put : (d.put index s).put index t = d.put index t := by
  unfold put setPeer
  rw [set_set]

theorem put_self (h : d.peerFor index = some peer) : d.put index (peer, d.tx) = d := by
  have hs : d.peers.set index (some peer) = d.peers := by
    rw [← h]
    exact set_getD_self (peerFor_lt h) none
  unfold put setPeer
  rw [hs]

theorem onPeer_eq (h : d.peerFor index = some peer) :
    onPeer index x d = ((x (peer, d.tx)).1, d.put index (x (peer, d.tx)).2) := by
  unfold onPeer
  rw [h]
  rfl

/-! ### Steps of the device -/

inductive Event where
  /-- a packet without a route -/
  | dropped (packet : Bytes) (e : TxError)
  /-- a packet for a closed gate; `lost` is the oldest one if it had to go -/
  | retained (index : ℕ) (packet : Bytes) (lost : Option Bytes)
  | peer (index : ℕ) (ev : PeerEvent)

variable {ev : Event} {log : List Event}

inductive Did (d : Device) : Event → Device → Prop
  | dropped (packet : Bytes) (e : TxError) : d.routePacket packet = .error e →
    Did d (.dropped packet e) { d with tx := dropTXPacket e d.tx }
  | retained {index : ℕ} {peer : PeerState} (packet : Bytes) :
    d.routePacket packet = .ok (index, peer) → d.peerFor index = some peer →
    peer.dataEnabled = false → packet.length ≤ d.innerMTU →
    Did d (.retained index packet peer.overwritten) (d.put index (enqueuePending packet peer d.tx))
  | peer {index : ℕ} {peer : PeerState} {ev : PeerEvent} {t : PeerState × Tx} :
    d.peerFor index = some peer → PeerDid (peer, d.tx) ev t → Did d (.peer index ev) (d.put index t)

inductive Fails (d : Device) : TxError → Device → Prop
  | peer {index : ℕ} {peer : PeerState} {e : TxError} {t : PeerState × Tx} :
    d.peerFor index = some peer → PeerFails (peer, d.tx) e t → Fails d e (d.put index t)

def Tidy (d : Device) : Prop := ∀ peer, some peer ∈ d.peers → peer.Tidy

theorem enqueuePending_tidy (packet : Bytes) (peer : PeerState) (tx : Tx) (h : peer.Tidy) :
    (enqueuePending packet peer tx).1.Tidy := by
  unfold enqueuePending
  split <;> exact ⟨h.holds, h.fits⟩

private theorem mem_put {x : PeerState} (h : some x ∈ (d.put index s).peers) :
    some x ∈ d.peers ∨ x = s.1 := by
  have hs : some x ∈ d.peers.set index (some s.1) := h
  rcases mem_or_eq_of_mem_set hs with hmem | heq
  · exact .inl hmem
  · exact .inr (Option.some.inj heq)

theorem Did.tidy (h : Did d ev d') (hd : d.Tidy) : d'.Tidy := by
  cases h with
  | dropped => exact hd
  | retained packet _ hp =>
    intro x hx
    rcases mem_put hx with hmem | rfl
    · exact hd x hmem
    · exact enqueuePending_tidy packet _ _ (hd _ (peerFor_mem hp))
  | peer hp hdi =>
    intro x hx
    rcases mem_put hx with hmem | rfl
    · exact hd x hmem
    · exact hdi.tidy (hd _ (peerFor_mem hp))

theorem chain_tidy (h : Chain Did d log d') (hd : d.Tidy) : d'.Tidy :=
  h.invariant (fun _ _ _ hdi => hdi.tidy) hd

def gate (d : Device) (index : ℕ) : Bool := (d.peerFor index).any PeerState.dataEnabled

theorem gate_eq (hp : d.peerFor index = some peer) : d.gate index = peer.dataEnabled := by
  unfold gate
  rw [hp]
  rfl

theorem gate_put (hp : d.peerFor index = some peer) (hsm : SamePeer peer t.1) (i : ℕ) :
    (d.put index t).gate i = d.gate i := by
  by_cases heq : i = index
  · subst heq
    rw [gate_eq (peerFor_put_self (peerFor_lt hp)), gate_eq hp]
    exact hsm.dataEnabled
  · unfold gate
    rw [peerFor_put_of_ne heq]

theorem Did.gate (h : Did d ev d') (i : ℕ) : d'.gate i = d.gate i := by
  cases h with
  | dropped => rfl
  | retained packet _ hp =>
    exact gate_put hp (enqueuePending_same packet _ _) i
  | peer hp hd => exact gate_put hp hd.same i

theorem chain_gate (h : Chain Did d log d') (i : ℕ) : d'.gate i = d.gate i :=
  h.invariant (I := fun d' => d'.gate i = d.gate i) (fun _ _ _ hd hc => (hd.gate i).trans hc) rfl

/-! ### Calls on every peer with an open gate -/

/-- A step of a peer whose gate is open. -/
inductive Acts (step : PeerState × Tx → PeerEvent → PeerState × Tx → Prop) (d : Device) :
    Event → Device → Prop
  | peer {index : ℕ} {peer : PeerState} {ev : PeerEvent} {t : PeerState × Tx} :
    d.peerFor index = some peer → peer.dataEnabled = true → step (peer, d.tx) ev t →
    Acts step d (.peer index ev) (d.put index t)

def Flushes (s : PeerState × Tx) (ev : PeerEvent) (t : PeerState × Tx) : Prop :=
  ev = .flushed ∧ t.1 = s.1.resetPending ∧ PeerDid s ev t

section Open
variable {step : PeerState × Tx → PeerEvent → PeerState × Tx → Prop}
  (hsub : ∀ {s ev t}, step s ev t → PeerDid s ev t)
include hsub

theorem chain_did (h : Chain (Acts step) d log d') : Chain Did d log d' :=
  h.mono fun _ _ _ ha => by
    cases ha with
    | peer hp _ hd => exact .peer hp (hsub hd)

/-- The steps of a peer are steps of the device. -/
theorem chain_peer {log : List PeerEvent} (hp : d.peerFor index = some s.1) (htx : d.tx = s.2)
    (ho : s.1.dataEnabled = true) (h : Chain step s log t) :
    Chain (Acts step) d (log.map (.peer index)) (d.put index t) := by
  induction h generalizing d with
  | nil =>
    have hs := put_self hp
    rw [htx] at hs
    rw [hs]
    exact .nil d
  | @cons s s' _ _ _ hd _ ih =>
    have hpair : (s.1, d.tx) = s := by rw [htx]
    have hr := ih (peerFor_put_self (peerFor_lt hp)) rfl
      ((hsub hd).same.dataEnabled.trans ho)
    rw [put_put] at hr
    exact .cons (.peer hp ho (hpair ▸ hd)) hr

private theorem onPeer_logged {post : List PeerEvent → Prop} (hp : d.peerFor index = some peer)
    (ho : peer.dataEnabled = true)
    (h : Eff.Logged step PeerFails (peer, d.tx) (fun log _ => post log) (x (peer, d.tx))) :
    Eff.Logged (Acts step) Fails d (fun log _ => ∃ plog, log = plog.map (.peer index) ∧ post plog)
      (onPeer index x d) := by
  rw [onPeer_eq hp]
  generalize x (peer, d.tx) = out at h
  cases h with
  | ok hch hpo => exact .ok (chain_peer hsub hp rfl ho hch) ⟨_, rfl, hpo⟩
  | @error _ t u e hch hf =>
    have hfa : Fails (d.put index t) e ((d.put index t).put index u) :=
      .peer (peerFor_put_self (peerFor_lt hp)) hf
    rw [put_put] at hfa
    exact .error (chain_peer hsub hp rfl ho hch) hfa

/-- Every peer of the list with an open gate has its part in the log. -/
theorem forEnabled_logged {indices : List ℕ} {post : List PeerEvent → Prop}
    (hx : ∀ s : PeerState × Tx, s.1.Tidy →
      Eff.Logged step PeerFails s (fun log _ => post log) (x s)) (hd : d.Tidy) :
    Eff.Logged (Acts step) Fails d (fun log _ => ∀ i ∈ indices, d.gate i = true →
      ∃ plog, post plog ∧ plog.map (.peer i) ⊆ log) (forEnabled x indices d) := by
  induction indices generalizing d with
  | nil => exact .stay fun _ hi => absurd hi not_mem_nil
  | cons index _ ih =>
    unfold forEnabled
    rw [Eff.get_bind]
    by_cases hgt : (d.peerFor index).any PeerState.dataEnabled = true
    · rw [if_pos hgt]
      obtain ⟨peer, hp, ho⟩ := (Option.any_eq_true _ _).mp hgt
      refine (onPeer_logged hsub hp ho (hx _ (hd _ (peerFor_mem hp)))).bind ?_
      rintro _ _ hch ⟨plog, rfl, hpo⟩
      have hdi := chain_did hsub hch
      refine (ih (chain_tidy hdi hd)).mono fun log _ ha => ?_
      refine forall_mem_cons.mpr ⟨fun _ => ⟨plog, hpo, subset_append_left _ _⟩, fun i hi hg => ?_⟩
      obtain ⟨plog', hp', hin⟩ := ha i hi ((chain_gate hdi i).trans hg)
      exact ⟨plog', hp', subset_append_of_subset_right _ hin⟩
    · rw [if_neg hgt]
      exact (ih hd).mono fun _ _ ha => forall_mem_cons.mpr ⟨fun hg => absurd hg hgt, ha⟩

end Open

/-- The step is not one that opens a gate: those of a peer have an open gate and take no packet out
of the retained ones. -/
def Event.Plain (gate : ℕ → Bool) : Event → Prop
  | .peer index ev => gate index = true ∧ ∀ packet, ev ≠ .popped packet
  | _ => True

/-! ### Native reads -/

theorem routePacket_ok {packet : Bytes} (h : d.routePacket packet = .ok (index, peer)) :
    d.peerFor index = some peer := by
  unfold routePacket at h
  split at h
  · cases h
  split at h
  · split at h
    · next found hf =>
      obtain rfl := Except.ok.inj h
      have hmem : (index, peer) ∈ d.peers.zipIdx.filterMap fun x => x.1.map (x.2, ·) := by
        rw [hf]
        exact mem_singleton_self _
      obtain ⟨⟨found, _⟩, hin, heq⟩ := mem_filterMap.mp hmem
      cases found with
      | none => cases heq
      | some =>
        obtain ⟨rfl, rfl⟩ := Prod.mk.inj (Option.some.inj heq)
        exact peerFor_eq_some.mpr (mem_zipIdx_iff_getElem?.mp hin)
    · cases h
  · split at h
    · cases h
    · split at h
      · cases h
      · next hp =>
        obtain ⟨rfl, rfl⟩ := Prod.mk.inj (Except.ok.inj h)
        exact hp

/-- The packet is retained for the peer. -/
def retainsFor (d : Device) (index : ℕ) (packet : Bytes) : Bool :=
  match d.routePacket packet with
  | .ok (i, peer) => i == index && !peer.dataEnabled
  | .error _ => false

/-- The packets that a step retains for the peer. -/
def Event.arrived (index : ℕ) : Event → List Bytes
  | .retained i packet _ => if i = index then [packet] else []
  | _ => []

/-- The packet is retained for some peer. -/
def retains (d : Device) (packet : Bytes) : Bool :=
  match d.routePacket packet with
  | .ok (_, peer) => !peer.dataEnabled
  | .error _ => false

/-- The packets that a step refuses or packs. -/
def Event.handed : Event → List Bytes
  | .dropped packet _ => [packet]
  | .peer _ (.refused packet _) => [packet]
  | .peer _ (.packed packet _ _ _) => [packet]
  | _ => []

theorem PeerEvent.Offers.plain {packet : Bytes} {ev : PeerEvent} (h : ev.Offers packet)
    (packet' : Bytes) : ev ≠ .popped packet' := by
  rintro rfl
  exact h

theorem Event.handed_offers {packet : Bytes} {ev : PeerEvent} (h : ev.Offers packet) (index : ℕ) :
    Event.handed (.peer index ev) = [packet] := by
  cases ev with
  | popped => exact h.elim
  | refused p => exact congrArg (fun p => [p]) h
  | packed p => exact congrArg (fun p => [p]) h
  | flushed => exact h.elim

inductive Taken (packet : Bytes) (d : Device) : Except TxError Unit × Device → Prop
  | did {ev : Event} {d' : Device} : Did d ev d' → ev.Plain d.gate →
    (∀ i, (if d.retainsFor i packet then [packet] else []) = ev.arrived i) →
    (if d.retains packet then [] else [packet]) = ev.handed → Taken packet d (.ok (), d')
  | failed {index : ℕ} {peer : PeerState} {e : TxError} {t : PeerState × Tx} :
    d.peerFor index = some peer → PeerFailsOn (peer, d.tx) (some packet) e t →
    Taken packet d (.error e, d.put index t)

theorem takePacket_taken (packet : Bytes) (hlen : packet.length ≤ d.innerMTU) (hd : d.Tidy) :
    Taken packet d (takePacket packet d) := by
  unfold takePacket
  cases hro : d.routePacket packet with
  | error e =>
    refine .did (.dropped packet e hro) trivial (fun i => ?_) ?_
    · unfold retainsFor
      rw [hro]
      rfl
    · unfold retains
      rw [hro]
      rfl
  | ok found =>
    obtain ⟨index, peer⟩ := found
    have hp := routePacket_ok hro
    have hr : ∀ i, d.retainsFor i packet = (index == i && !peer.dataEnabled) := by
      intro i
      unfold retainsFor
      rw [hro]
    have hs : d.retains packet = !peer.dataEnabled := by
      unfold retains
      rw [hro]
    dsimp only
    by_cases ho : peer.dataEnabled = true
    · rw [if_pos ho, onPeer_eq hp]
      have hoff := offer_offered packet (s := (peer, d.tx)) (hd _ (peerFor_mem hp))
      generalize offer packet (peer, d.tx) = out at hoff
      cases hoff with
      | failed hf => exact .failed hp hf
      | did hdi hof =>
        refine .did (.peer hp hdi) ⟨?_, PeerEvent.Offers.plain hof⟩ (fun i => ?_) ?_
        · rw [gate_eq hp]
          exact ho
        · rw [hr, ho]
          simp [Event.arrived]
        · rw [hs, ho, Event.handed_offers hof]
          rfl
    · rw [if_neg ho]
      have hcl : peer.dataEnabled = false := by simpa using ho
      refine .did (.retained packet hro hp hcl hlen) trivial (fun i => ?_) ?_
      · rw [hr, hcl]
        simp [Event.arrived]
      · rw [hs, hcl]
        rfl

def NativeRead.packet (read : NativeRead) : Bytes := read.buffer.take read.size.toNat

/-- The packets that the loop over the reads retains for the peer. -/
def retainedLoop (index : ℕ) : List NativeRead → Device → List Bytes
  | [], _ => []
  | read :: rest, d =>
    if read.size < 0 ∨ d.innerMTU < read.size then []
    else
      match takePacket (NativeRead.packet read) d with
      | (.ok (), d') =>
        (if d.retainsFor index (NativeRead.packet read) then [NativeRead.packet read] else []) ++
          retainedLoop index rest d'
      | (.error _, _) => []

private theorem retainedLoop_ok (hsz : ¬ (read.size < 0 ∨ d.innerMTU < read.size))
    (h : takePacket (NativeRead.packet read) d = (.ok (), d')) :
    retainedLoop index (read :: reads) d =
      (if d.retainsFor index (NativeRead.packet read) then [NativeRead.packet read] else []) ++
        retainedLoop index reads d' := by
  rw [retainedLoop, if_neg hsz, h]

private theorem retainedLoop_error {e : TxError} (hsz : ¬ (read.size < 0 ∨ d.innerMTU < read.size))
    (h : takePacket (NativeRead.packet read) d = (.error e, d')) :
    retainedLoop index (read :: reads) d = [] := by
  rw [retainedLoop, if_neg hsz, h]

/-- The packets that the loop over the reads does not retain. -/
def handedLoop : List NativeRead → Device → List Bytes
  | [], _ => []
  | read :: rest, d =>
    if read.size < 0 ∨ d.innerMTU < read.size then []
    else
      match takePacket (NativeRead.packet read) d with
      | (.ok (), d') =>
        (if d.retains (NativeRead.packet read) then [] else [NativeRead.packet read]) ++
          handedLoop rest d'
      | (.error _, _) => []

private theorem handedLoop_ok (hsz : ¬ (read.size < 0 ∨ d.innerMTU < read.size))
    (h : takePacket (NativeRead.packet read) d = (.ok (), d')) :
    handedLoop (read :: reads) d =
      (if d.retains (NativeRead.packet read) then [] else [NativeRead.packet read]) ++
        handedLoop reads d' := by
  rw [handedLoop, if_neg hsz, h]

inductive ReadEnd (reads : List NativeRead) (d : Device) : Except BatchError Unit × Device → Prop
  | ok {log : List Event} {d' : Device} : Chain Did d log d' → (∀ ev ∈ log, ev.Plain d.gate) →
    (∀ i, retainedLoop i reads d = log.flatMap (Event.arrived i)) →
    handedLoop reads d = log.flatMap Event.handed → ReadEnd reads d (.ok (), d')
  | send {log : List Event} {d' d'' : Device} {e : TxError} : Chain Did d log d' →
    (∀ ev ∈ log, ev.Plain d.gate) →
    (∀ i, retainedLoop i reads d = log.flatMap (Event.arrived i)) → Fails d' e d'' →
    ReadEnd reads d (.error (.send e), d'')
  | size {log : List Event} {d' : Device} : Chain Did d log d' →
    (∃ read ∈ reads, read.size < 0 ∨ d.innerMTU < read.size) →
    ReadEnd reads d (.error .size, d')

theorem Did.innerMTU (h : Did d ev d') : d'.innerMTU = d.innerMTU := by
  cases h <;> rfl

theorem readLoop_end (reads : List NativeRead) (hd : d.Tidy) :
    ReadEnd reads d (readLoop reads d) := by
  induction reads generalizing d with
  | nil => exact .ok (.nil d) (fun _ hev => absurd hev not_mem_nil) (fun _ => rfl) rfl
  | cons read reads ih =>
    by_cases hsz : read.size < 0 ∨ d.innerMTU < read.size
    · unfold readLoop
      rw [if_pos hsz]
      exact .size (.nil d) ⟨read, mem_cons_self .., hsz⟩
    · have hlen : (NativeRead.packet read).length ≤ d.innerMTU := by
        unfold NativeRead.packet
        rw [length_take]
        omega
      have ht := takePacket_taken (NativeRead.packet read) hlen hd
      unfold readLoop
      rw [if_neg hsz, show read.buffer.take read.size.toNat = NativeRead.packet read from rfl]
      generalize hrun : takePacket (NativeRead.packet read) d = out at ht
      cases ht with
      | failed hp hf =>
        exact .send (.nil d) (fun _ hev => absurd hev not_mem_nil)
          (fun i => retainedLoop_error hsz hrun) (.peer hp ⟨_, hf⟩)
      | @did ev d1 hdi htk har hh =>
        have hg : d1.gate = d.gate := funext hdi.gate
        have hr := ih (hdi.tidy hd)
        have ha : ∀ log, (∀ i, retainedLoop i reads d1 = log.flatMap (Event.arrived i)) →
            ∀ i, retainedLoop i (read :: reads) d = (ev :: log).flatMap (Event.arrived i) := by
          intro log hl i
          rw [retainedLoop_ok hsz hrun, flatMap_cons, ← har i, ← hl i]
        dsimp only
        generalize readLoop reads d1 = out at hr
        cases hr with
        | ok hch hal hl hh' =>
          rw [hg] at hal
          refine .ok (.cons hdi hch) (forall_mem_cons.mpr ⟨htk, hal⟩) (ha _ hl) ?_
          rw [handedLoop_ok hsz hrun, flatMap_cons, ← hh, ← hh']
        | send hch hal hl hf =>
          rw [hg] at hal
          exact .send (.cons hdi hch) (forall_mem_cons.mpr ⟨htk, hal⟩) (ha _ hl) hf
        | size hch hb =>
          obtain ⟨bad, hmem, hb⟩ := hb
          rw [hdi.innerMTU] at hb
          exact .size (.cons hdi hch) ⟨bad, mem_cons_of_mem _ hmem, hb⟩

/-! ### Batches -/

theorem chain_length (h : Chain Did d log d') : d'.peers.length = d.peers.length :=
  h.invariant (I := fun d' => d'.peers.length = d.peers.length) (fun _ _ _ hd hc => by
    cases hd with
    | dropped => exact hc
    | retained | peer => exact length_set.trans hc) rfl

/-- The retained packets of the open gates are flushed. -/
def Enters (d d' : Device) : Prop :=
  (∃ log, Chain Did d log d') ∧ forEnabled flushPending (List.range d.peers.length) d = (.ok (), d')

/-- Packets are taken, and then carriers in use are flushed. -/
structure Logs (reads : List NativeRead) (d : Device) (log : List Event) (d' : Device) : Prop where
  chain : Chain Did d log d'
  plain : ∀ ev ∈ log, ev.Plain d.gate
  arrived : ∀ i, retainedLoop i reads d = log.flatMap (Event.arrived i)

theorem flushes_plain (h : Chain (Acts Flushes) d log d') : ∀ ev ∈ log, ev.Plain d.gate ∧
    (∀ i, ev.arrived i = []) ∧ ev.handed = [] := by
  induction h with
  | nil => exact fun _ hev => absurd hev not_mem_nil
  | cons ha _ ih =>
    cases ha with
    | peer hp ho hfl =>
      obtain ⟨rfl, -, hd⟩ := hfl
      rw [← funext (Did.gate (.peer hp hd))]
      refine forall_mem_cons.mpr ⟨⟨⟨?_, nofun⟩, fun _ => rfl, rfl⟩, ih⟩
      rw [gate_put hp hd.same, gate_eq hp]
      exact ho

/-- How a batch ends. It flushes the retained packets of the open gates, takes the packets, and
flushes the carriers in use; a failure in any of these phases ends it. -/
inductive Batched (reads : List NativeRead) (d : Device) : Device → Prop
  | done {log : List Event} {d₁ d₂ : Device} : Enters d d₁ → Logs reads d₁ log d₂ →
    handedLoop reads d₁ = log.flatMap Event.handed →
    (∀ i peer, d₂.peerFor i = some peer → peer.dataEnabled = true →
      peer.sender.packetizer.buffer = []) → Batched reads d d₂
  | entering {log : List Event} {d₁ d' : Device} {e : TxError} : Chain Did d log d₁ →
    Fails d₁ e d' → (forEnabled flushPending (List.range d.peers.length) d).1 = .error e →
    Batched reads d (d'.failBatch d.tx.queue.ring.count e).2
  | failed {log : List Event} {d₁ d₂ d' : Device} {e : TxError} : Enters d d₁ →
    Logs reads d₁ log d₂ → Fails d₂ e d' → Batched reads d (d'.failBatch d.tx.queue.ring.count e).2
  | size {log : List Event} {d' : Device} : Chain Did d log d' →
    (∃ read ∈ reads, read.size < 0 ∨ d.innerMTU < read.size) →
    Batched reads d ((d'.rollback d.tx.queue.ring.count).stop .shortBuffer)

private theorem flushSender_flushes (h : s.1.Tidy) :
    Eff.Logged Flushes PeerFails s (fun log _ => log = [.flushed]) (flushSender s) := by
  have he := flushSender_end h
  generalize flushSender s = out at he
  cases he with
  | did hd => exact .one ⟨rfl, rfl, hd⟩ rfl
  | failed hf => exact .fail ⟨_, hf⟩

theorem Flushes.did {ev : PeerEvent} (h : Flushes s ev t) : PeerDid s ev t := h.2.2

/-- A peer whose carrier in use was flushed has none in use. -/
theorem flushes_buffer (h : Chain (Acts Flushes) d log d') {i : ℕ}
    (hi : .peer i .flushed ∈ log ∨
      ∀ peer, d.peerFor i = some peer → peer.sender.packetizer.buffer = []) :
    ∀ peer, d'.peerFor i = some peer → peer.sender.packetizer.buffer = [] := by
  induction h with
  | nil => exact hi.resolve_left not_mem_nil
  | cons ha _ ih =>
    cases ha with
    | @peer index _ _ t hpr _ hfl =>
      apply ih
      by_cases heq : i = index
      · subst heq
        right
        intro peer hp
        rw [peerFor_put_self (peerFor_lt hpr)] at hp
        obtain rfl := Option.some.inj hp
        rw [hfl.2.1]
        rfl
      · rw [peerFor_put_of_ne heq]
        refine hi.imp_left fun hmem => (mem_cons.mp hmem).resolve_left fun h => heq ?_
        cases h
        rfl

theorem Logs.flushed {d'' : Device} {log' : List Event} (h : Logs reads d log d')
    (ha : Chain (Acts Flushes) d' log' d'') : Logs reads d (log ++ log') d'' := by
  refine ⟨h.chain.append (chain_did Flushes.did ha), fun ev hev => ?_, fun i => ?_⟩
  · rcases mem_append.mp hev with hev | hev
    · exact h.plain ev hev
    · have hp := (flushes_plain ha ev hev).1
      rw [funext (chain_gate h.chain)] at hp
      exact hp
  · rw [h.arrived, flatMap_append, flatMap_eq_nil_iff.mpr fun ev hev =>
      (flushes_plain ha ev hev).2.1 i, append_nil]

theorem processNativeBatch_batched (reads : List NativeRead) (hd : d.Tidy) :
    Batched reads d (processNativeBatch reads d).2 := by
  unfold processNativeBatch
  have hfs : Eff.Logged (Acts PeerDid) Fails d _
      (forEnabled flushPending (List.range d.peers.length) d) :=
    forEnabled_logged id (fun s hs => (flushPending_logged hs).mono fun _ _ _ => trivial) hd
  generalize hrun : forEnabled flushPending (List.range d.peers.length) d = out at hfs
  cases hfs with
  | error hch hf => exact .entering (chain_did id hch) hf (congrArg Prod.fst hrun)
  | @ok _ d1 hch _ =>
    have hch1 := chain_did id hch
    have he : Enters d d1 := ⟨⟨_, hch1⟩, hrun⟩
    have hr := readLoop_end reads (chain_tidy hch1 hd)
    dsimp only
    generalize readLoop reads d1 = out at hr
    cases hr with
    | send hch hpl hlo hf => exact .failed he ⟨hch, hpl, hlo⟩ hf
    | size hch hb =>
      have hm : d1.innerMTU = d.innerMTU :=
        hch1.invariant (I := fun d' => d'.innerMTU = d.innerMTU)
          (fun _ _ _ hdi hc => hdi.innerMTU.trans hc) rfl
      rw [hm] at hb
      exact .size (hch1.append hch) hb
    | @ok _ d2 hch2 hpl hlo hh =>
      have hlogs : Logs reads d1 _ d2 := ⟨hch2, hpl, hlo⟩
      have hl : Eff.Logged (Acts Flushes) Fails d2 _
          (forEnabled flushSender (List.range d2.peers.length) d2) :=
        forEnabled_logged Flushes.did (fun s hs => flushSender_flushes hs)
          (chain_tidy (hch1.append hch2) hd)
      dsimp only
      generalize forEnabled flushSender (List.range d2.peers.length) d2 = out at hl
      cases hl with
      | error hch hf => exact .failed he (hlogs.flushed hch) hf
      | ok hch ha =>
        refine .done he (hlogs.flushed hch) ?_ fun i peer hp ho => ?_
        · rw [hh, flatMap_append, flatMap_eq_nil_iff.mpr fun ev hev =>
            (flushes_plain hch ev hev).2.2, append_nil]
        · have hdi := chain_did Flushes.did hch
          have hg := chain_gate hdi i
          rw [gate_eq hp, ho] at hg
          have hlt : i ∈ List.range d2.peers.length := by
            rw [mem_range, ← chain_length hdi]
            exact peerFor_lt hp
          obtain ⟨_, rfl, hin⟩ := ha i hlt hg.symm
          exact flushes_buffer hch (.inl (hin (mem_cons_self ..))) peer hp

/-- What the steps keep holds until a batch ends: well, with a step that fails, or with a read of
the wrong size. -/
theorem Batched.rule {I J : Device → Prop} (h : Batched reads d d') (hI : I d)
    (hdi : ∀ {d ev d'}, Did d ev d' → I d → I d') (hd : ∀ d', I d' → J d')
    (hfa : ∀ {d1 e d'}, Fails d1 e d' → I d1 → J (d'.failBatch d.tx.queue.ring.count e).2)
    (hsz : ∀ d', I d' → J ((d'.rollback d.tx.queue.ring.count).stop .shortBuffer)) : J d' := by
  have hl : ∀ {a b log}, Chain Did a log b → I a → I b := fun h => h.invariant fun _ _ _ => hdi
  have he : ∀ {a b}, Enters a b → I a → I b := fun ⟨⟨_, h⟩, _⟩ => hl h
  cases h with
  | done h1 h2 => exact hd _ (hl h2.chain (he h1 hI))
  | entering h1 hf => exact hfa hf (hl h1 hI)
  | failed h1 h2 hf => exact hfa hf (hl h2.chain (he h1 hI))
  | size h1 => exact hsz _ (hl h1 hI)

/-! ### Gates -/

inductive GateSet (id : PeerID) (d : Device) : Bool → Except DeviceError Unit × Device → Prop
  | unknown {enabled : Bool} : d.peerFor id = none →
    GateSet id d enabled (.error .peerNotFound, d)
  | closed {peer : PeerState} : d.peerFor id = some peer →
    GateSet id d false (.ok (), d.put id ({ peer with
      dataEnabled := false
      pendingRing := peer.pendingRing.clear }, d.tx))
  | already {peer : PeerState} : d.peerFor id = some peer → peer.dataEnabled = true →
    GateSet id d true (.ok (), d)
  | opened {peer : PeerState} {log : List PeerEvent} {t : PeerState × Tx} :
    d.peerFor id = some peer → peer.dataEnabled = false →
    Chain PeerDid ({ peer with dataEnabled := true }, d.tx) log t → FlushLog peer.pending log →
    t.1.pending = [] → t.1.sender.packetizer.buffer = [] →
    GateSet id d true (.ok (), d.put id t)
  | full {peer : PeerState} {log : List PeerEvent} {t u : PeerState × Tx} {e : TxError} :
    d.peerFor id = some peer → peer.dataEnabled = false →
    Chain PeerDid ({ peer with dataEnabled := true }, d.tx) log t → PeerFails t e u →
    isQueueFull e = true →
    GateSet id d true (.ok (), d.put id (u.1.resetPending, { u.2 with
      queue := u.2.queue.rollbackData d.tx.queue.ring.count
      preconfirmDrops := u.2.preconfirmDrops + peer.pendingRing.ring.count }))
  | fatal {peer : PeerState} {log : List PeerEvent} {t u : PeerState × Tx} {e : TxError} :
    d.peerFor id = some peer → peer.dataEnabled = false →
    Chain PeerDid ({ peer with dataEnabled := true }, d.tx) log t → PeerFails t e u →
    isQueueFull e = false →
    GateSet id d true (.error (.send e), { d.put id ({ u.1 with dataEnabled := false }, u.2) with
      txFatal := some (.send e) })

theorem setDataEnabled_gateSet (id : PeerID) (enabled : Bool) (hd : d.Tidy) :
    GateSet id d enabled (setDataEnabled id enabled d) := by
  unfold setDataEnabled
  cases hp : d.peerFor id with
  | none => exact .unknown hp
  | some peer =>
    dsimp only
    cases enabled with
    | false =>
      exact .closed hp
    | true =>
      by_cases ho : peer.dataEnabled = true
      · rw [if_pos ho]
        exact .already hp ho
      rw [if_neg ho]
      have hcl : peer.dataEnabled = false := by simpa using ho
      have htidy := hd peer (peerFor_mem hp)
      have hl := flushPending_logged (s := ({ peer with dataEnabled := true }, d.tx))
        ⟨htidy.holds, htidy.fits⟩
      generalize flushPending ({ peer with dataEnabled := true }, d.tx) = out at hl
      cases hl with
      | ok hch hpo => exact .opened hp hcl hch hpo.1 hpo.2.1 hpo.2.2
      | @error _ _ _ e hch hf =>
        dsimp only
        by_cases hfu : isQueueFull e = true
        · rw [if_pos hfu]
          exact .full hp hcl hch hf hfu
        · rw [if_neg hfu]
          exact .fatal hp hcl hch hf (by simpa using hfu)

end Device
end WgFrag.Shim
