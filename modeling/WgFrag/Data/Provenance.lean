import WgFrag.Data.Cryptokey

/-! What the inbound DATA pipeline hands to its sinks has a source that the table of allowed
prefixes routes to the pipeline's own peer. -/
namespace WgFrag.Data
open WgFrag.Lib
open Reassembly (Reassembler Packet SlotHandle)
open Reorder (Reorderer)
open Route (Snapshot)

variable {routes : Snapshot} {peer : PeerID} {sink : Sink} {now : Time} {r : Receiver}

/-- Everything handed to the sink has a source that the table routes to the peer. -/
structure Sourced (routes : Snapshot) (peer : PeerID) (r : Receiver) : Prop where
  table : r.config.allowedIPs = routes
  owner : r.config.peerID = peer
  log : ∀ entry ∈ r.log, ∃ parsed, InnerIP.parseExact entry.2 = .ok parsed ∧
    routes.lookupPeer parsed.source = some peer

theorem Sourced.congr {r' : Receiver} (h : Sourced routes peer r) (hc : r'.config = r.config)
    (hl : r'.log = r.log) : Sourced routes peer r' := by
  refine ⟨by rw [hc]; exact h.table, by rw [hc]; exact h.owner, ?_⟩
  rw [hl]
  exact h.log

theorem Sourced.handOver (h : Sourced routes peer r) (sink : Sink) (packet : Packet)
    (firstErr : Option ReceiverError) :
    Sourced routes peer (r.handOver sink packet firstErr).2 := by
  unfold Receiver.handOver
  split
  · exact h.congr rfl rfl
  · exact h.congr rfl rfl
  rename_i parsed hp
  split
  · exact h.congr rfl rfl
  rename_i hs
  split
  · refine ⟨h.table, h.owner, fun entry he => ?_⟩
    rcases List.mem_append.mp he with he | he
    · exact h.log entry he
    obtain rfl := List.mem_singleton.mp he
    rw [not_not, h.table, h.owner] at hs
    refine ⟨parsed, ?_, ?_⟩
    · rw [InnerIP.parseExact_eq hp]
      exact hp
    · simpa [Route.Snapshot.validateSource] using hs
  · exact h

theorem Sourced.deliverLoop (h : Sourced routes peer r) (sink : Sink) (packets : List Packet)
    (firstErr : Option ReceiverError) :
    Sourced routes peer (r.deliverLoop sink packets firstErr).2 := by
  induction packets generalizing r firstErr with
  | nil => exact h
  | cons packet _ ih =>
    have hst := h.handOver sink packet firstErr
    apply ih
    exact hst.congr rfl rfl

theorem Sourced.refresh (h : Sourced routes peer r) (recompute : Bool) (now : Time) :
    Sourced routes peer (r.refreshReorderDeadline recompute now) := by
  unfold Receiver.refreshReorderDeadline
  split
  · exact h.congr rfl rfl
  split
  · exact h.congr rfl rfl
  · split
    · exact h
    · exact h.congr rfl rfl

theorem Sourced.consider (h : Sourced routes peer r) (candidate : Time) :
    Sourced routes peer (r.considerReorderDeadline candidate) := by
  unfold Receiver.considerReorderDeadline
  split
  · exact h
  · split
    · exact h.congr rfl rfl
    · exact h

section Parts
open Eff (Within)
variable {α : Type}

theorem deliver_sourced (packets : List Packet) (sink : Sink) :
    Within (Sourced routes peer) (deliver packets sink) := by
  intro r h
  have hl := h.deliverLoop sink packets none
  unfold deliver
  generalize r.deliverLoop sink packets none = out at hl
  obtain ⟨err, _⟩ := out
  cases err with
  | none | some => exact hl

private theorem release_sourced (handle : SlotHandle) :
    Within (Sourced routes peer) (release handle) := by
  intro r h
  unfold release
  split
  · exact h.congr rfl rfl
  · exact h.congr rfl rfl

theorem orRelease_sourced {x : ReceiverM α} (packet : Packet)
    (hx : Within (Sourced routes peer) x) : Within (Sourced routes peer) (orRelease packet x) := by
  intro r h
  have hst := hx r h
  unfold orRelease
  generalize x r = out at hst
  obtain ⟨res, _⟩ := out
  cases res with
  | ok => exact hst
  | error => exact hst.congr rfl rfl

theorem onLane_sourced (lane : UInt8) (x : Eff Reorderer Reorder.Error α) :
    Within (Sourced routes peer) (onLane lane x) := by
  intro r h
  unfold onLane
  split
  · exact h.congr rfl rfl
  · exact h.congr rfl rfl

private theorem onReassembly_sourced (x : Eff Reassembler Reassembly.Error α) :
    Within (Sourced routes peer) (onReassembly x) := by
  intro r h
  unfold onReassembly
  split
  · exact h.congr rfl rfl
  · exact h.congr rfl rfl

theorem held_sourced (f : Receiver → ℤ) : Within (Sourced routes peer)
    (modify fun r => { r with reorderHeld := f r } : ReceiverM PUnit) :=
  Within.modify fun _ h => h.congr rfl rfl

theorem refresh_sourced (recompute : Bool) (now : Time) : Within (Sourced routes peer)
    (modify fun r => r.refreshReorderDeadline recompute now : ReceiverM PUnit) :=
  Within.modify fun _ h => h.refresh recompute now

variable (now : Time) (sink : Sink)

private theorem flushOldestReorder_sourced :
    Within (Sourced routes peer) (flushOldestReorder now sink) := by
  refine Within.get.bind fun r => ?_
  split
  · exact Within.throw _
  rename_i oldest _
  refine (onLane_sourced oldest _).bind fun flushed => ?_
  refine (held_sourced _).bind fun _ => ?_
  exact (refresh_sourced true now).bind fun _ => deliver_sourced flushed sink

private theorem acceptOrdered_sourced (packet : Packet) (beforeHeld : ℤ) :
    Within (Sourced routes peer) (acceptOrdered now sink packet beforeHeld) := by
  refine Within.get.bind fun r => ?_
  refine (orRelease_sourced packet (onLane_sourced packet.key.laneID _)).bind fun ordered => ?_
  refine Within.ite (release_sourced packet.handle) ?_
  have hr : ∀ flushing : Prop, [Decidable flushing] → Within (Sourced routes peer) (do
      let r ← get
      if r.reorderHeld = 0 ∨ beforeHeld = 0 then
        modify fun r => r.refreshReorderDeadline false now
      else if flushing then modify fun r => r.refreshReorderDeadline true now
      deliver ordered.delivered sink) := by
    intro flushing _
    refine Within.get.bind fun r => ?_
    refine Within.ite ?_ (Within.ite ?_ ?_)
    · exact (refresh_sourced false now).bind fun _ => deliver_sourced _ sink
    · exact (refresh_sourced true now).bind fun _ => deliver_sourced _ sink
    · exact deliver_sourced _ sink
  refine Within.ite ?_ ((held_sourced _).bind fun _ => hr _)
  refine (held_sourced _).bind fun _ => ?_
  exact (Within.modify fun _ h => h.consider _).bind fun _ => hr _

private theorem flushLane_sourced (packet : Packet) :
    Within (Sourced routes peer) (flushLane now sink packet) := by
  refine Within.get.bind fun r => ?_
  refine (orRelease_sourced packet (onLane_sourced packet.key.laneID _)).bind fun flushed => ?_
  refine (held_sourced _).bind fun _ => ?_
  exact (refresh_sourced true now).bind fun _ => deliver_sourced flushed sink

private theorem acceptCompleted_sourced (packet : Packet) :
    Within (Sourced routes peer) (acceptCompleted now sink packet) := by
  refine Within.get.bind fun r => ?_
  refine Within.ite ?_ (acceptOrdered_sourced now sink packet _)
  split
  · exact orRelease_sourced packet (Within.throw _)
  · refine Within.ite (flushLane_sourced now sink packet) ?_
    refine (orRelease_sourced packet (flushOldestReorder_sourced now sink)).bind fun _ => ?_
    exact acceptOrdered_sourced now sink packet _

private theorem acceptRecord_sourced (record : Record) :
    Within (Sourced routes peer) (acceptRecord now sink record) := by
  intro r h
  rw [acceptRecord, Eff.get_bind]
  split
  · exact h.congr rfl rfl
  refine ((onReassembly_sourced _).bind fun result => ?_) r h
  split
  · exact acceptCompleted_sourced now sink _
  · exact Within.pure _

private theorem acceptPayload_sourced (payload : Bytes) (sink : Sink) :
    Within (Sourced routes peer) (acceptPayload now payload sink) := by
  intro r h
  have hv : ∀ record r, Sourced routes peer r →
      Sourced routes peer (acceptRecord now sink record r).2 ∧
        ∀ e, (acceptRecord now sink record r).1 = .error e → True := by
    intro record r h
    exact ⟨acceptRecord_sourced now sink record r h, fun _ _ => trivial⟩
  exact (parse_preserves _ _ hv (fun _ => trivial) payload h).1

private theorem tickLoop_sourced (ls : List UInt8) (flushed : Bool) :
    Within (Sourced routes peer) (tickLoop now sink ls flushed) := by
  induction ls generalizing flushed with
  | nil => exact Within.pure _
  | cons lane _ ih =>
    refine Within.get.bind fun r => ?_
    refine (onLane_sourced lane _).bind fun out => ?_
    refine (held_sourced _).bind fun _ => ?_
    refine Within.bind (fun r h => ?_) fun _ => ih _
    have hst := deliver_sourced out sink r h
    unfold orRefresh
    generalize deliver out sink r = res at hst
    obtain ⟨res, _⟩ := res
    cases res with
    | ok => exact hst
    | error =>
      dsimp only
      split
      · exact hst.refresh true now
      · exact hst

private theorem tickReorder_sourced : Within (Sourced routes peer) (tickReorder now sink) := by
  refine Within.get.bind fun r => ?_
  refine Within.ite (Within.pure _) ?_
  refine (tickLoop_sourced now sink lanes false).bind fun flushed => ?_
  refine Within.ite (refresh_sourced true now) ?_
  intro r h
  rw [Eff.get_bind]
  split
  · exact h.refresh false now
  · exact h

end Parts

theorem Sourced.call (h : Sourced routes peer r) (c : ReceiverCall) :
    Sourced routes peer (r.call c) := by
  cases c with
  | payload now payload sink => exact acceptPayload_sourced now payload sink r h
  | tickReorder now sink => exact tickReorder_sourced now sink r h
  | expireReassembly => exact h.congr rfl rfl

theorem Sourced.run (h : Sourced routes peer r) (calls : List ReceiverCall) :
    Sourced routes peer (r.run calls) := by
  induction calls generalizing r with
  | nil => exact h
  | cons c _ ih => exact ih (h.call c)

private theorem newConfiguredReceiver_sourced {c : ReceiverConfig} {payloadOnly : Bool}
    (hn : newConfiguredReceiver c payloadOnly = .ok r) : Sourced c.allowedIPs c.peerID r := by
  obtain ⟨-, -, _, _, -, -, rfl⟩ := newConfiguredReceiver_ok hn
  exact ⟨rfl, rfl, fun entry he => by cases he⟩

open Route in
/-- The table fails on a bad or repeated prefix only; otherwise it routes by the longest listed
prefix, in whatever order they are listed, and a receiver of a peer hands over only packets from
addresses that it routes to that peer. -/
theorem newSnapshot_routes {allowed : List AllowedIP}
    (hsize : ∀ four, trieNodes allowed four < 4294967296) :
    ((∃ e, newSnapshot allowed = .error e) ↔
      (∃ entry ∈ allowed, validAllowedPrefix entry.ipPrefix = false) ∨
        ¬ (allowed.map fun e => e.ipPrefix.masked).Nodup) ∧
    ∀ s, newSnapshot allowed = .ok s →
      (∀ address, validLookupAddress address = false → s.lookupPeer address = none) ∧
      (∀ address, validLookupAddress address = true → (∀ peer, s.lookupPeer address = some peer ↔
          ∃ entry, LongestMatch allowed address entry ∧ entry.peerID = peer) ∧
        (s.lookupPeer address = none ↔ ∀ entry ∈ allowed, ¬ entry.ipPrefix.contains address)) ∧
      (∀ allowed' : List AllowedIP, allowed'.Perm allowed → ∃ s', newSnapshot allowed' = .ok s' ∧
        ∀ address, s'.lookupPeer address = s.lookupPeer address) ∧
      ∀ (c : ReceiverConfig) (payloadOnly : Bool) (r : Receiver) (calls : List ReceiverCall),
        c.allowedIPs = s → newConfiguredReceiver c payloadOnly = .ok r →
        ∀ entry ∈ (r.run calls).log, ∃ parsed, InnerIP.parseExact entry.2 = .ok parsed ∧
          s.lookupPeer parsed.source = some c.peerID := by
  refine ⟨newSnapshot_error hsize, fun s hs => ?_⟩
  obtain ⟨_, _, hhol⟩ := newSnapshot_holds hsize hs
  refine ⟨fun address => lookupPeer_invalid s, fun address hval => ?_, ?_, ?_⟩
  · exact ⟨fun peer => hhol.lookupPeer_some hval, hhol.lookupPeer_none hval⟩
  · intro allowed' hperm
    exact newSnapshot_perm hsize hperm hs
  · rintro _ _ _ calls rfl hnew
    exact ((newConfiguredReceiver_sourced hnew).run calls).log

/-- A network of one peer and a host in it of another. -/
def sampleAllowed : List Route.AllowedIP :=
  [⟨⟨.v4 [10, 0, 0, 0], some 8, by decide⟩, 1⟩, ⟨⟨.v4 [10, 0, 0, 7], some 32, by decide⟩, 2⟩]

theorem newSnapshot_routes_sample : (∀ four, Route.trieNodes sampleAllowed four < 4294967296) ∧
    ¬ ∃ e, Route.newSnapshot sampleAllowed = .error e := by
  have hsize : ∀ four, Route.trieNodes sampleAllowed four < 4294967296 := by decide
  refine ⟨hsize, fun herr => ?_⟩
  have hwhy := (newSnapshot_routes hsize).1.mp herr
  revert hwhy
  decide

end WgFrag.Data
