import WgFrag.Shim.Admission
import WgFrag.Wire.Protobuf

/-! Runs of the CONTROL scheduler: while the other peers queue no exploratory frames beyond their
shares, the share of a peer is its own. -/
namespace WgFrag.Shim
open WgFrag.Wire WgFrag.Lib List

inductive SchedulerCall where
  | enqueue (peer : PeerID) (frame : Bytes)
  | choose (globalReady : Bool) (ready : PeerID → Bool)
  | pop (index : ℕ)

namespace ControlScheduler
variable (P : Proto) (codec : Codec) (own : PeerID) (s : ControlScheduler)

def call : SchedulerCall → ControlScheduler
  | .enqueue peer frame => (s.enqueue P codec peer frame).2
  | .choose globalReady ready => (s.choose globalReady ready).2
  | .pop index => (s.pop index).2

def runCalls (s : ControlScheduler) : List SchedulerCall → ControlScheduler
  | [] => s
  | c :: calls => (s.call P codec c).runCalls calls

/-- A frame comes from one of the peers, and the slot that is popped holds a descriptor. -/
def Proper : SchedulerCall → Prop
  | .enqueue peer _ => peer ∈ s.peerOrder
  | .choose _ _ => True
  | .pop index => ∃ offset, offset < s.queue.length ∧ index = s.descriptors.slot offset

/-- A peer other than `own` that has its whole share queued sends no exploratory frame for which
there is room. -/
def Modest : SchedulerCall → Prop
  | .enqueue peer frame => peer ≠ own → ∀ desc, describe P codec peer frame = .ok desc →
    desc.Exploratory = true → s.exploratory < controlExploratoryLimit →
    s.descriptors.count < s.capacity → share s.queue peer < s.peerAdmissionLimit
  | _ => True

def ProperRun (s : ControlScheduler) : List SchedulerCall → Prop
  | [] => True
  | c :: calls => s.Proper c ∧ (s.call P codec c).ProperRun calls

def ModestRun (own : PeerID) (s : ControlScheduler) : List SchedulerCall → Prop
  | [] => True
  | c :: calls => s.Modest P codec own c ∧ (s.call P codec c).ModestRun own calls

instance decidableProper : (c : SchedulerCall) → Decidable (s.Proper c)
  | .enqueue peer _ => inferInstanceAs (Decidable (peer ∈ s.peerOrder))
  | .choose _ _ => isTrue trivial
  | .pop index => inferInstanceAs
    (Decidable (∃ offset, offset < s.queue.length ∧ index = s.descriptors.slot offset))

instance decidableModest : (c : SchedulerCall) → Decidable (s.Modest P codec own c)
  | .enqueue peer frame =>
    match h : describe P codec peer frame with
    | .error err => isTrue fun _ desc hdesc => by rw [h] at hdesc; cases hdesc
    | .ok desc =>
      decidable_of_iff (peer ≠ own → desc.Exploratory = true →
          s.exploratory < controlExploratoryLimit → s.descriptors.count < s.capacity →
          share s.queue peer < s.peerAdmissionLimit)
        ⟨fun hsha hne desc' hdesc => by rw [h] at hdesc; cases hdesc; exact hsha hne,
          fun hsha hne => hsha hne desc h⟩
  | .choose _ _ => isTrue trivial
  | .pop _ => isTrue trivial

instance decidableProperRun (s : ControlScheduler) :
    (calls : List SchedulerCall) → Decidable (s.ProperRun P codec calls)
  | [] => isTrue trivial
  | c :: calls =>
    let := decidableProperRun (s.call P codec c) calls
    inferInstanceAs (Decidable (s.Proper c ∧ (s.call P codec c).ProperRun P codec calls))

instance decidableModestRun (own : PeerID) (s : ControlScheduler) :
    (calls : List SchedulerCall) → Decidable (s.ModestRun P codec own calls)
  | [] => isTrue trivial
  | c :: calls =>
    let := decidableModestRun own (s.call P codec c) calls
    inferInstanceAs
      (Decidable (s.Modest P codec own c ∧ (s.call P codec c).ModestRun P codec own calls))

/-- No peer other than `own` has more than its share queued. -/
structure Fair : Prop where
  wf : s.Wf
  peers : ∀ d ∈ s.queue, d.peer ∈ s.peerOrder
  share : ∀ p, p ≠ own → share s.queue p ≤ s.peerAdmissionLimit

end ControlScheduler

variable {P : Proto} {codec : Codec}

theorem describe_peer {peer : PeerID} {frame : Bytes} {desc : ControlDescriptor}
    (h : describe P codec peer frame = .ok desc) : desc.peer = peer := by
  unfold describe at h
  split at h
  · cases h
  split at h
  · cases h
  · dsimp only at h
    split at h <;> (cases h; rfl)

theorem share_append (q : List ControlDescriptor) (d : ControlDescriptor) (p : PeerID) :
    share (q ++ [d]) p = share q p + if d.peer = p then 1 else 0 := by
  unfold share
  rw [countP_append, countP_singleton]
  simp only [beq_iff_eq]

/-- An admission keeps the share of a peer that is modest. -/
theorem Admitted.shares {limit cap : ℕ} {d : ControlDescriptor} {q q' : List ControlDescriptor}
    {out : EnqueueOutcome} (h : Admitted limit cap d q out q') {p : PeerID} (hp : share q p ≤ limit)
    (hm : d.peer = p → d.Exploratory = true → out.dropped = false → share q p < limit) :
    share q' p ≤ limit := by
  cases h with
  | refusedExploratory | refusedShare | refusedFull => exact hp
  | coalesced _ he hpr =>
    refine Nat.le_trans (Nat.le_of_eq ?_) hp
    exact countP_replaced he (by rw [hpr])
  | explores hd hrm =>
    rw [share_append]
    split
    · next heq => exact hm heq hd rfl
    · exact hp
  | appended hd hb hrm =>
    rw [share_append]
    split
    · next heq =>
      rw [heq] at hb
      exact hb
    · exact hp
  | @swapped i e _ he hpr =>
    have hc : share q p = share (q.eraseIdx i) p + if e.peer == p then 1 else 0 :=
      countP_erased he _
    rw [share_append, ← hpr]
    simp only [beq_iff_eq] at hc
    omega
  | @displaced i e hd hb he hex =>
    have hc : share q p = share (q.eraseIdx i) p + if e.peer == p then 1 else 0 :=
      countP_erased he _
    rw [share_append]
    split
    · next heq =>
      rw [heq] at hb
      omega
    · omega

theorem Admitted.mem {limit cap : ℕ} {d e : ControlDescriptor} {q q' : List ControlDescriptor}
    {out : EnqueueOutcome} (h : Admitted limit cap d q out q') (he : e ∈ q') : e = d ∨ e ∈ q := by
  have ha : ∀ {q0 : List ControlDescriptor}, q0.Sublist q → e ∈ q0 ++ [d] → e = d ∨ e ∈ q := by
    intro q0 hs hmem
    rcases mem_append.mp hmem with hmem | hmem
    · exact .inr (hs.subset hmem)
    · exact .inl (mem_singleton.mp hmem)
  cases h with
  | refusedExploratory | refusedShare | refusedFull => exact .inr he
  | coalesced => exact (mem_or_eq_of_mem_set he).symm
  | explores | appended => exact ha (List.Sublist.refl _) he
  | swapped | displaced => exact ha (eraseIdx_sublist ..) he

namespace ControlScheduler
variable {s t : ControlScheduler} {own : PeerID}

theorem Shape.limit (h : Shape s t) : t.peerAdmissionLimit = s.peerAdmissionLimit := by
  unfold peerAdmissionLimit
  rw [h.capacity, h.peers]

theorem Fair.sublist (h : Fair own s) (hs : Shape s t) (hwf : t.Wf)
    (hsu : t.queue.Sublist s.queue) : Fair own t := by
  refine ⟨hwf, fun d hd => ?_, fun p hp => ?_⟩
  · rw [hs.peers]
    exact h.peers d (hsu.subset hd)
  · rw [hs.limit]
    exact Nat.le_trans (List.Sublist.countP_le hsu) (h.share p hp)

/-- An exploratory frame is dropped when there are enough of them, or when the ring is full. -/
theorem room_of_admitted (h : s.Wf) {desc : ControlDescriptor} (he : desc.Exploratory = true)
    (hk : (s.enterQueue desc).1.dropped = false) :
    s.exploratory < controlExploratoryLimit ∧ s.descriptors.count < s.capacity := by
  unfold enterQueue at hk
  rw [if_pos he] at hk
  split at hk
  · cases hk
  rename_i hfew
  unfold place at hk
  split at hk
  · cases hk
  · next hroom => exact ⟨Nat.lt_of_not_le hfew, Nat.lt_of_le_of_ne h.ring.count hroom⟩

theorem Fair.call (h : Fair own s) {c : SchedulerCall} (hpo : s.Proper c)
    (hm : s.Modest P codec own c) : Fair own (s.call P codec c) ∧ Shape s (s.call P codec c) := by
  cases c with
  | enqueue peer frame =>
    show Fair own (s.enqueue P codec peer frame).2 ∧ Shape s (s.enqueue P codec peer frame).2
    unfold enqueue
    cases hdesc : describe P codec peer frame with
    | error => exact ⟨h, rfl, rfl⟩
    | ok desc =>
      have hpr := describe_peer hdesc
      obtain ⟨ha, hwf, hs⟩ := enterQueue_admits h.wf desc
      refine ⟨⟨hwf, fun d hd => ?_, fun p hp => ?_⟩, hs⟩
      · rw [hs.peers]
        rcases ha.mem hd with rfl | hd
        · rw [hpr]
          exact hpo
        · exact h.peers d hd
      · rw [hs.limit]
        refine ha.shares (h.share p hp) fun heq he hk => ?_
        obtain rfl : peer = p := hpr.symm.trans heq
        obtain ⟨hfew, hroom⟩ := room_of_admitted h.wf he hk
        exact hm hp desc hdesc he hfew hroom
  | choose globalReady ready =>
    obtain ⟨hq, hwf, hs⟩ := choose_queue (s := s) globalReady ready
    refine ⟨h.sublist hs (hwf h.wf) ?_, hs⟩
    show (s.choose globalReady ready).2.queue.Sublist s.queue
    rw [hq]
  | pop =>
    obtain ⟨offset, hlt, rfl⟩ := hpo
    obtain ⟨-, hq, hwf, hs⟩ := pop_queue h.wf (getElem?_eq_getElem hlt)
    refine ⟨h.sublist hs hwf ?_, hs⟩
    show (s.pop (s.descriptors.slot offset)).2.queue.Sublist s.queue
    rw [hq]
    exact eraseIdx_sublist ..

theorem Fair.runCalls (h : Fair own s) {calls : List SchedulerCall}
    (hp : s.ProperRun P codec calls) (hm : s.ModestRun P codec own calls) :
    Fair own (s.runCalls P codec calls) ∧ Shape s (s.runCalls P codec calls) := by
  induction calls generalizing s with
  | nil => exact ⟨h, rfl, rfl⟩
  | cons _ _ ih =>
    obtain ⟨hfair, hs⟩ := h.call hp.1 hm.1
    obtain ⟨hfair', hs'⟩ := ih hfair hp.2 hm.2
    exact ⟨hfair', hs.trans hs'⟩

theorem new_fair (capacity : ℤ) (peers : List PeerID) : Fair own (new capacity peers) := by
  have hpos : 0 < (if capacity ≤ 0 ∨ controlDescriptorCapacity < capacity then
      controlDescriptorCapacity else capacity.toNat) := by
    split
    · decide
    · omega
  refine ⟨⟨RingQueue.ofSize_wf hpos, rfl⟩, fun d hd => (by cases hd), fun p _ => Nat.zero_le _⟩

/-- All queued descriptors of a peer without exploratory ones are critical. -/
theorem criticalShare_eq {q : List ControlDescriptor} {peer : PeerID}
    (h : ∀ e ∈ q, e.peer = peer → e.Exploratory = false) : criticalShare q peer = share q peer := by
  refine countP_congr fun e he => ?_
  rw [Bool.and_eq_true, beq_iff_eq]
  refine ⟨fun hboth => hboth.1, fun hp => ⟨hp, ?_⟩⟩
  rw [h e he hp]
  rfl

/-- A critical frame is dropped only when its own peer already has its share of critical
descriptors queued, whatever the other peers enqueued within their shares. -/
theorem critical_dropped {capacity : ℤ} {peers : List PeerID}
    (hpeers : peers.length ≤ (new capacity peers).capacity) {calls : List SchedulerCall}
    {peer : PeerID} (hproper : (new capacity peers).ProperRun P codec calls)
    (hmodest : (new capacity peers).ModestRun P codec peer calls) (hpeer : peer ∈ peers)
    {frame : Bytes} {desc : ControlDescriptor} (hdesc : describe P codec peer frame = .ok desc)
    (hcritical : desc.controlClass = .critical) {out : EnqueueOutcome}
    (hout : (((new capacity peers).runCalls P codec calls).enqueue P codec peer frame).1 = .ok out)
    (hdropped : out.dropped = true) :
    (new capacity peers).capacity / peers.length ≤
      criticalShare ((new capacity peers).runCalls P codec calls).queue peer := by
  obtain ⟨hfair, hsha⟩ := (new_fair capacity peers).runCalls hproper hmodest
  have hsame := describe_peer hdesc
  have hpos : 0 < peers.length := length_pos_of_mem hpeer
  have hlim : (new capacity peers).peerAdmissionLimit =
      (new capacity peers).capacity / peers.length := by
    have hone : 1 ≤ (new capacity peers).capacity / peers.length :=
      (Nat.one_le_div_iff hpos).mpr hpeers
    have hord : (new capacity peers).peerOrder = peers := rfl
    unfold peerAdmissionLimit
    rw [hord, if_neg (Nat.not_lt.mpr hpos), if_neg (Nat.not_lt.mpr hone)]
  have hadm := (enterQueue_admits hfair.wf desc).admitted
  have hexp : desc.Exploratory = false := by
    unfold ControlDescriptor.Exploratory
    rw [hcritical]
    rfl
  unfold enqueue at hout
  rw [hdesc] at hout
  obtain rfl := Except.ok.inj hout
  rw [hsha.limit, hsha.capacity, hlim] at hadm
  generalize (((new capacity peers).runCalls P codec calls).enterQueue desc).1 = out at hadm hdropped
  generalize (((new capacity peers).runCalls P codec calls).enterQueue desc).2.queue = q at hadm
  cases hadm with
  | refusedExploratory hd => exact absurd (hexp.symm.trans hd) (by decide)
  | refusedShare _ hfull hall =>
    rw [hsame] at hfull hall
    rw [criticalShare_eq hall]
    exact hfull
  | refusedFull _ hbel hlen =>
    rw [hsame] at hbel
    have hshr : ∀ p, share ((new capacity peers).runCalls P codec calls).queue p ≤
        (new capacity peers).capacity / peers.length := by
      intro p
      by_cases hp : p = peer
      · rw [hp]
        exact Nat.le_of_lt hbel
      · rw [← hlim, ← hsha.limit]
        exact hfair.share p hp
    have hque := hfair.peers
    rw [hsha.peers] at hque
    have hroom := not_full_of_shares hque hshr hpeer hbel (Nat.mul_div_le _ _)
    exact absurd hlen (Nat.ne_of_lt hroom)
  | coalesced | explores | appended | swapped | displaced => cases hdropped

def sampleCodec : Codec := ⟨1400⟩

def sampleFrame (id : ℕ) (body : Body) : Bytes :=
  encodeFrame (Protobuf.proto.marshal ⟨UInt64.ofNat id, 0, 1, none, some body⟩)

/-- Two of three peers keep to their shares, and the third uses its own up. -/
def politeCalls : List SchedulerCall :=
  [.enqueue 1 (sampleFrame 1 .mtuProbe), .enqueue 0 (sampleFrame 2 (.ping 1)),
    .choose true fun _ => true, .pop 1, .enqueue 1 (sampleFrame 3 (.ping 2)),
    .enqueue 0 (sampleFrame 4 (.ping 3))]

theorem critical_dropped_sample :
    (((new 3 [0, 1, 2]).runCalls Protobuf.proto sampleCodec politeCalls).enqueue Protobuf.proto
      sampleCodec 0 (sampleFrame 5 (.pong 3))).1 = .ok { dropped := true } ∧
    (new 3 [0, 1, 2]).capacity / [0, 1, 2].length ≤ criticalShare
      ((new 3 [0, 1, 2]).runCalls Protobuf.proto sampleCodec politeCalls).queue 0 := by
  have hdro : (((new 3 [0, 1, 2]).runCalls Protobuf.proto sampleCodec politeCalls).enqueue
      Protobuf.proto sampleCodec 0 (sampleFrame 5 (.pong 3))).1 = .ok { dropped := true } := by
    decide +kernel
  have hdesc : describe Protobuf.proto sampleCodec 0 (sampleFrame 5 (.pong 3)) =
      .ok ⟨0, .critical, .pong, 5, 0, 1, some ⟨5, 0, 1, none, some (.pong 3)⟩, 0⟩ := by
    decide +kernel
  exact ⟨hdro, critical_dropped (by decide) (by decide +kernel) (by decide +kernel)
    (by decide) hdesc rfl hdro rfl⟩

/-- A peer that fills the exploratory slots and then replaces its probes by pings. -/
def flood (peer : PeerID) : List SchedulerCall :=
  (List.range 8).map (fun i => .enqueue peer (sampleFrame i .mtuProbe)) ++
    (List.range 8).map fun i => .enqueue peer (sampleFrame i (.ping 1))

def sampleHello : Bytes := sampleFrame 1 (.capabilitiesHello ⟨1, 64, 1400, 0, 0, 5000⟩)

/-- Two peers that replace their own probes fill the ring with critical descriptors. A third peer
with nothing queued then gets its Hello dropped. -/
theorem flood_drops_hello :
    (new 16 [0, 1, 2]).ProperRun Protobuf.proto sampleCodec (flood 0 ++ flood 1) ∧
    (((new 16 [0, 1, 2]).runCalls Protobuf.proto sampleCodec (flood 0 ++ flood 1)).enqueue
      Protobuf.proto sampleCodec 2 sampleHello).1 = .ok { dropped := true } ∧
    (describe Protobuf.proto sampleCodec 2 sampleHello).map (fun desc => desc.controlClass) =
      .ok .critical ∧
    share ((new 16 [0, 1, 2]).runCalls Protobuf.proto sampleCodec (flood 0 ++ flood 1)).queue 2 = 0 ∧
    (new 16 [0, 1, 2]).capacity / [0, 1, 2].length = 5 := by
  refine ⟨?_, ?_, ?_, ?_, ?_⟩ <;> decide +kernel

end ControlScheduler
end WgFrag.Shim
