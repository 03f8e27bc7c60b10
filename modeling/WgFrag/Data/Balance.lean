import WgFrag.Data.Custody
import WgFrag.Data.Receiver
import WgFrag.Data.Window

/-! Every completed slot of a receiver belongs to exactly one packet that waits in a queue, so
nothing but the sink can make a delivery fail. -/
namespace WgFrag.Data.Reassembly
open WgFrag.Lib Reassembler List

/-! ### The packets that own the completed slots -/

variable {r r' : Reassembler} {j : ℕ} {now : Time} {key : Key} {record : Record} {p : Packet}
  {out : Except Error Result × Reassembler}

theorem Outcome.was_completed (h : Outcome now key record r out)
    (hs : (out.2.slot j).state = .completed) : (r.slot j).state = .completed ∨
      ∃ p evicted, out.1 = .ok ⟨.completed p, evicted⟩ ∧ p.handle.index = j := by
  cases h with
  | refused _ _ _ hsl =>
    rcases hsl j with heq | ⟨hd, -⟩
    · rw [heq] at hs
      exact .inl hs
    · exact absurd (hd.after.symm.trans hs) (by simp)
  | @stored _ _ i _ _ _ hl hst hok =>
    by_cases hj : j = i
    · subst hj
      obtain ⟨_, hr⟩ := hok
      cases hst with
      | refused | dropped => cases hr
      | duplicate =>
        cases hl with
        | live => exact .inl hs
        | fresh _ _ _ _ _ hso =>
          rw [hso] at hs
          cases hs
      | accepted hf =>
        rw [slot_setSlot_self hf.lt] at hs
        exact absurd (hf.assembling.symm.trans hs) (by simp)
      | completed => exact .inr ⟨_, _, rfl, rfl⟩
    · rw [hst.others hj] at hs
      cases hl with
      | live => exact .inl hs
      | fresh _ _ _ _ _ _ _ _ ho =>
        rcases ho j hj with heq | ⟨-, -, hd⟩
        · rw [heq] at hs
          exact .inl hs
        · exact absurd (hd.after.symm.trans hs) (by simp)

theorem Outcome.was_open {evicted : Option Key} (h : Outcome now key record r out)
    (hd : out.1 = .ok ⟨.completed p, evicted⟩) : (r.slot p.handle.index).state ≠ .completed := by
  cases h with
  | refused => cases hd
  | stored _ _ _ _ hl hst =>
    cases hst with
    | refused | dropped | duplicate | accepted => cases hd
    | completed _ hf =>
      cases hd
      cases hl with
      | live => simp [hf.assembling]
      | fresh _ _ _ _ _ _ hb => exact hb

theorem Holding.self {data : Bytes} (h : Holding r p data) : Holding r p (r.data p) :=
  ⟨h.state, h.generation, h.key, h.length, rfl⟩

/-- The completed slots are those of the packets, one each. -/
structure Owned (packets : List Packet) (r : Reassembler) : Prop where
  wf : r.Wf
  held : ∀ p ∈ packets, Holding r p (r.data p)
  distinct : (packets.map fun p => p.handle.index).Nodup
  all : ∀ i, (r.slot i).state = .completed → ∃ p ∈ packets, p.handle.index = i

variable {packets : List Packet}

theorem Owned.length_eq (h : Owned packets r) :
    packets.length = r.slots.countP fun s => s.state = .completed := by
  have hsl : r.slots = (List.range r.slots.length).map r.slot := by
    apply ext_getElem
    · simp
    · intro i hi _
      rw [getElem_map, getElem_range, slot_eq_getElem hi]
  have hpm : (packets.map fun p => p.handle.index).Perm
      ((List.range r.slots.length).filter fun i => (r.slot i).state = .completed) := by
    rw [perm_ext_iff_of_nodup h.distinct (nodup_range.filter _)]
    intro i
    rw [mem_map, mem_filter, mem_range, decide_eq_true_iff]
    constructor
    · rintro ⟨p, hp, rfl⟩
      have hs := (h.held p hp).state
      exact ⟨lt_of_state (by simp [hs]), hs⟩
    · exact fun hi => h.all i hi.2
  have hlen := hpm.length_eq
  rw [length_map] at hlen
  rw [hlen, hsl, countP_map, countP_eq_length_filter]
  rw [← hsl]
  rfl

theorem Owned.perm {packets' : List Packet} (h : Owned packets r) (hp : packets.Perm packets') :
    Owned packets' r := by
  refine ⟨h.wf, fun p hmem => h.held p (hp.mem_iff.mpr hmem), ?_, ?_⟩
  · exact (hp.map _).nodup_iff.mp h.distinct
  · intro i hs
    obtain ⟨p, hmem, hi⟩ := h.all i hs
    exact ⟨p, hp.mem_iff.mp hmem, hi⟩

theorem Owned.release (h : Owned (p :: packets) r) :
    (r.release p.handle).1 = .ok () ∧ Owned packets (r.release p.handle).2 ∧
      ∀ q ∈ packets, (r.release p.handle).2.data q = r.data q := by
  have hp := h.held p (mem_cons_self ..)
  have hd := nodup_cons.mp h.distinct
  rcases release_cases h.wf p.handle with ⟨-, hno⟩ | ⟨hr, ⟨hs, -⟩, hc⟩
  · exact absurd ⟨hp.state, hp.generation⟩ hno
  have hi := lt_of_state (show (r.slot p.handle.index).state ≠ .free by simp [hs])
  have heq : ∀ q ∈ packets,
      (r.clearSlot p.handle.index).slot q.handle.index = r.slot q.handle.index := by
    intro q hq
    rw [hc.slot hi, if_neg]
    intro he
    exact hd.1 (mem_map.mpr ⟨q, hq, he.symm⟩)
  have hold : ∀ q ∈ packets, Holding (r.clearSlot p.handle.index) q (r.data q) :=
    fun q hq => (h.held q (mem_cons_of_mem _ hq)).of_slot (heq q hq)
  rw [hr]
  refine ⟨rfl, ⟨hc.wf, fun q hq => (hold q hq).self, hd.2, ?_⟩, fun q hq => (hold q hq).data⟩
  intro i hi'
  rw [hc.slot hi] at hi'
  split at hi'
  · cases hi'
  rename_i hne
  obtain ⟨q, hq, rfl⟩ := h.all i hi'
  rcases mem_cons.mp hq with rfl | hq
  · exact absurd rfl hne
  · exact ⟨q, hq, rfl⟩

/-- A record either leaves the completed slots as they are or completes one more. -/
theorem Owned.accept (h : Owned packets r) (now : Time) (key : Key) (record : Record) :
    (∃ p evicted, (accept now key record r).1 = .ok ⟨.completed p, evicted⟩ ∧
      Owned (p :: packets) (Reassembly.accept now key record r).2 ∧ p.key = key) ∨
    ((∀ p evicted, (Reassembly.accept now key record r).1 ≠ .ok ⟨.completed p, evicted⟩) ∧
      Owned packets (Reassembly.accept now key record r).2) := by
  have ho := accept_outcome h.wf now key record
  have hwf : (Reassembly.accept now key record r).2.Wf :=
    Steps.wf (call_steps h.wf (.accept now key record)) h.wf
  have hh : ∀ q ∈ packets, Holding (Reassembly.accept now key record r).2 q
      ((Reassembly.accept now key record r).2.data q) := by
    intro q hq
    exact ((h.held q hq).of_slot (ho.kept (h.held q hq).state)).self
  by_cases hdn : ∃ p evicted, (Reassembly.accept now key record r).1 = .ok ⟨.completed p, evicted⟩
  · obtain ⟨p, evicted, hdn⟩ := hdn
    refine .inl ⟨p, evicted, hdn, ⟨hwf, ?_, ?_, ?_⟩, (accept_completed h.wf hdn).1⟩
    · intro q hq
      rcases mem_cons.mp hq with rfl | hq
      · exact accept_holding h.wf hdn
      · exact hh q hq
    · rw [map_cons, nodup_cons]
      refine ⟨?_, h.distinct⟩
      intro hmem
      obtain ⟨q, hq, hi⟩ := mem_map.mp hmem
      apply ho.was_open hdn
      rw [← hi]
      exact (h.held q hq).state
    · intro i hi
      rcases ho.was_completed hi with hi | ⟨_, _, hd', rfl⟩
      · obtain ⟨q, hq, hqi⟩ := h.all i hi
        exact ⟨q, mem_cons_of_mem _ hq, hqi⟩
      · rw [hdn] at hd'
        cases hd'
        exact ⟨p, mem_cons_self .., rfl⟩
  · have hn : ∀ p evicted, (Reassembly.accept now key record r).1 ≠
        .ok ⟨.completed p, evicted⟩ := fun p evicted hd => hdn ⟨p, evicted, hd⟩
    refine .inr ⟨hn, hwf, hh, h.distinct, ?_⟩
    intro i hi
    rcases ho.was_completed hi with hi | ⟨p, evicted, hd, -⟩
    · exact h.all i hi
    · exact absurd hd (hn p evicted)

theorem Owned.expire (h : Owned packets r) (now : Time) : Owned packets (r.expire now).2 := by
  obtain ⟨hst, hsl⟩ := expire_spec h.wf now
  have hk : ∀ j, (r.slot j).state = .completed → (r.expire now).2.slot j = r.slot j := by
    intro j hs
    rcases hsl j with heq | ⟨ha, -⟩
    · exact heq
    · exact absurd (ha.symm.trans hs) (by simp)
  refine ⟨Steps.wf hst h.wf, ?_, h.distinct, ?_⟩
  · intro q hq
    exact ((h.held q hq).of_slot (hk _ (h.held q hq).state)).self
  intro i hi
  rcases hsl i with heq | ⟨-, -, _, hnx⟩
  · rw [heq] at hi
    exact h.all i hi
  · rw [hnx] at hi
    cases hi

end WgFrag.Data.Reassembly

namespace WgFrag.Data
open WgFrag.Lib Limits List
open Reassembly (Reassembler Packet SlotHandle Owned Holding)
open Reorder (Reorderer)

/-! ### Lanes -/

theorem mem_lanes (lane : UInt8) : lane ∈ lanes :=
  mem_map.mpr ⟨lane.toNat, mem_range.mpr lane.toNat_lt, UInt8.ofNat_toNat⟩

private theorem nodup_lanes : lanes.Nodup := by
  apply List.Nodup.map_on _ nodup_range
  intro a ha b hb h
  rw [mem_range] at ha hb
  have := congrArg UInt8.toNat h
  rw [UInt8.toNat_ofNat', UInt8.toNat_ofNat'] at this
  omega

private theorem flatMap_update {α β : Type} [DecidableEq α] {l : List α} {a : α} (hl : l.Nodup)
    (ha : a ∈ l) (f : α → List β) (x : List β) :
    (l.flatMap (Function.update f a x) ++ f a).Perm (l.flatMap f ++ x) := by
  induction l with
  | nil => cases ha
  | cons b l ih =>
    obtain ⟨hb, hl⟩ := nodup_cons.mp hl
    simp only [flatMap_cons, append_assoc]
    by_cases hab : a = b
    · subst hab
      have hr : l.flatMap (Function.update f a x) = l.flatMap f := by
        apply flatMap_congr
        intro c hc
        rw [Function.update_of_ne]
        rintro rfl
        exact hb hc
      rw [Function.update_self, hr]
      have hs : (x ++ (l.flatMap f ++ f a)).Perm ((l.flatMap f ++ f a) ++ x) :=
        perm_append_comm
      refine hs.trans ?_
      rw [← append_assoc]
      exact perm_append_comm.append_right x
    · rw [Function.update_of_ne (Ne.symm hab)]
      exact (ih hl ((mem_cons.mp ha).resolve_left hab)).append_left (f b)

variable {r r' : Receiver} {lane : UInt8} {q : Reorderer} {hand packets : List Packet}
  {packet p : Packet} {sink : Sink}

def Receiver.waiting (r : Receiver) : List Packet :=
  lanes.flatMap fun lane => (r.reorders lane).pending

theorem mem_waiting : p ∈ r.waiting ↔ ∃ lane, p ∈ (r.reorders lane).pending := by
  unfold Receiver.waiting
  rw [mem_flatMap]
  constructor
  · rintro ⟨lane, -, hp⟩
    exact ⟨lane, hp⟩
  · rintro ⟨lane, hp⟩
    exact ⟨lane, mem_lanes lane, hp⟩

theorem waiting_setLane (r : Receiver) (lane : UInt8) (q : Reorderer) :
    ((r.setLane lane q).waiting ++ (r.reorders lane).pending).Perm (r.waiting ++ q.pending) := by
  have hu : (fun l => ((r.setLane lane q).reorders l).pending) =
      Function.update (fun l => (r.reorders l).pending) lane q.pending := by
    funext l
    show (Function.update r.reorders lane q l).pending = _
    by_cases hl : l = lane
    · subst hl
      rw [Function.update_self, Function.update_self]
    · rw [Function.update_of_ne hl, Function.update_of_ne hl]
  unfold Receiver.waiting
  rw [hu]
  exact flatMap_update nodup_lanes (mem_lanes lane) _ _

/-- The completed slots belong to the packets in hand and to those that wait. -/
structure Custody (hand : List Packet) (r : Receiver) : Prop where
  enabled : r.config.reorderEnabled = true
  output : r.outputSize = r.config.reorderCapacity + 1
  store : r.reassembly.config = r.config.reassembly
  delay : 0 < r.config.reorderMaxDelay
  budget : 0 < r.reorderBudget
  queue : ∀ lane, (r.reorders lane).Ok
  lane : ∀ lane, (r.reorders lane).config = r.config.lane lane
  owned : Owned (hand ++ r.waiting) r.reassembly

/-- What delivery leaves as it is. -/
structure Kept (r r' : Receiver) : Prop where
  config : r'.config = r.config
  reorders : r'.reorders = r.reorders
  outputSize : r'.outputSize = r.outputSize
  reorderHeld : r'.reorderHeld = r.reorderHeld
  reorderBudget : r'.reorderBudget = r.reorderBudget
  reorderDeadline : r'.reorderDeadline = r.reorderDeadline
  store : r'.reassembly.config = r.reassembly.config

theorem Kept.refl (r : Receiver) : Kept r r := ⟨rfl, rfl, rfl, rfl, rfl, rfl, rfl⟩

theorem Kept.trans {r'' : Receiver} (h : Kept r r') (h' : Kept r' r'') : Kept r r'' :=
  ⟨h'.config.trans h.config, h'.reorders.trans h.reorders, h'.outputSize.trans h.outputSize,
    h'.reorderHeld.trans h.reorderHeld, h'.reorderBudget.trans h.reorderBudget,
    h'.reorderDeadline.trans h.reorderDeadline, h'.store.trans h.store⟩

theorem Kept.waiting (h : Kept r r') : r'.waiting = r.waiting := by
  unfold Receiver.waiting
  rw [h.reorders]

theorem Custody.kept {hand' : List Packet} (h : Custody hand r) (hk : Kept r r')
    (ho : Owned (hand' ++ r.waiting) r'.reassembly) : Custody hand' r' := by
  refine ⟨?_, ?_, ?_, ?_, ?_, ?_, ?_, ?_⟩
  · rw [hk.config]
    exact h.enabled
  · rw [hk.outputSize, hk.config]
    exact h.output
  · rw [hk.store, hk.config]
    exact h.store
  · rw [hk.config]
    exact h.delay
  · rw [hk.reorderBudget]
    exact h.budget
  · rw [hk.reorders]
    exact h.queue
  · rw [hk.reorders, hk.config]
    exact h.lane
  · rw [hk.waiting]
    exact ho

/-- A queue that takes packets from hand and gives others back loses none. -/
theorem moved_setLane {taken given : List Packet}
    (hpm : (given ++ q.pending).Perm (taken ++ (r.reorders lane).pending)) :
    (taken ++ hand ++ r.waiting).Perm (given ++ hand ++ (r.setLane lane q).waiting) := by
  have hw := perm_iff_count.mp (waiting_setLane r lane q)
  have hpm := perm_iff_count.mp hpm
  rw [perm_iff_count]
  intro p
  have := hw p
  have := hpm p
  simp only [count_append] at *
  omega

theorem Custody.setLane {taken given : List Packet} (h : Custody (taken ++ hand) r)
    (hq : q.Ok) (hc : q.config = (r.reorders lane).config)
    (hpm : (given ++ q.pending).Perm (taken ++ (r.reorders lane).pending)) :
    Custody (given ++ hand) (r.setLane lane q) := by
  refine ⟨h.enabled, h.output, h.store, h.delay, h.budget, ?_, ?_, ?_⟩
  · intro l
    show (Function.update r.reorders lane q l).Ok
    by_cases hl : l = lane
    · subst hl
      rw [Function.update_self]
      exact hq
    · rw [Function.update_of_ne hl]
      exact h.queue l
  · intro l
    show (Function.update r.reorders lane q l).config = _
    by_cases hl : l = lane
    · subst hl
      rw [Function.update_self, hc]
      exact h.lane l
    · rw [Function.update_of_ne hl]
      exact h.lane l
  · exact h.owned.perm (moved_setLane hpm)

theorem length_waiting_setLane (r : Receiver) (lane : UInt8) (q : Reorderer) :
    (r.setLane lane q).waiting.length + (r.reorders lane).pending.length =
      r.waiting.length + q.pending.length := by
  have := (waiting_setLane r lane q).length_eq
  rw [length_append, length_append] at this
  exact this

/-! ### Delivery -/

def Sink.Takes (sink : Sink) : Prop :=
  ∀ answer, sink = some answer → ∀ log data, answer log data = true

/-- The inner packet passes the checks of the receiver. -/
def Receiver.passes (r : Receiver) (data : Bytes) : Bool :=
  match InnerIP.parseExact data with
  | .ok parsed => r.config.allowedIPs.validateSource r.config.peerID parsed.source
  | .error _ => false

/-- Whether a packet goes to the sink, and what the sink answers. -/
inductive HandsOver (sink : Sink) (r : Receiver) (packet : Packet)
    (firstErr : Option ReceiverError) : Option ReceiverError × List (Key × Bytes) → Prop
  | kept : (firstErr = none → sink.isSome → r.passes (r.reassembly.data packet) = false) →
    HandsOver sink r packet firstErr (firstErr, r.log)
  | handed (answer : List (Key × Bytes) → Bytes → Bool) : firstErr = none → sink = some answer →
    r.passes (r.reassembly.data packet) = true →
    HandsOver sink r packet firstErr
      (if answer r.log (r.reassembly.data packet) then none else some .sink,
        r.log ++ [(packet.key, r.reassembly.data packet)])

theorem handOver_spec (sink : Sink) (r : Receiver) (packet : Packet)
    (firstErr : Option ReceiverError) :
    Kept r (r.handOver sink packet firstErr).2 ∧
      (r.handOver sink packet firstErr).2.reassembly = r.reassembly ∧
      HandsOver sink r packet firstErr
        ((r.handOver sink packet firstErr).1, (r.handOver sink packet firstErr).2.log) := by
  unfold Receiver.handOver
  cases hp : InnerIP.parseExact (r.reassembly.data packet) with
  | error e =>
    have hf : r.passes (r.reassembly.data packet) = false := by simp [Receiver.passes, hp]
    cases e with
    | nativeFragment => exact ⟨⟨rfl, rfl, rfl, rfl, rfl, rfl, rfl⟩, rfl, .kept fun _ _ => hf⟩
    | _ => exact ⟨⟨rfl, rfl, rfl, rfl, rfl, rfl, rfl⟩, rfl, .kept fun _ _ => hf⟩
  | ok parsed =>
    have hd := InnerIP.parseExact_eq hp
    dsimp only
    split
    · next hs =>
      refine ⟨⟨rfl, rfl, rfl, rfl, rfl, rfl, rfl⟩, rfl, .kept fun _ _ => ?_⟩
      simpa [Receiver.passes, hp] using hs
    · next hsr =>
      have hpa : r.passes (r.reassembly.data packet) = true := by
        simpa [Receiver.passes, hp] using hsr
      cases firstErr with
      | some => exact ⟨.refl r, rfl, .kept fun h => by cases h⟩
      | none =>
        cases sink with
        | none => exact ⟨.refl r, rfl, .kept fun _ h => by cases h⟩
        | some answer =>
          rw [hd]
          exact ⟨⟨rfl, rfl, rfl, rfl, rfl, rfl, rfl⟩, rfl, .handed answer rfl rfl hpa⟩

/-- What the packets bring to the log if nothing stops them. -/
def Receiver.entries (r : Receiver) (packets : List Packet) : List (Key × Bytes) :=
  (packets.map fun p => (p.key, r.reassembly.data p)).filter fun entry => r.passes entry.2

structure Delivered (sink : Sink) (packets : List Packet) (firstErr : Option ReceiverError)
    (r : Receiver) (err : Option ReceiverError) (r' : Receiver) : Prop where
  kept : Kept r r'
  error : err = firstErr ∨ err = some .sink
  taken : firstErr = none → sink.Takes → err = none
  released : r'.reassembly = r.reassembly.run (packets.map fun p => .release p.handle)
  log : ∃ l, r'.log = r.log ++ l ∧ l.Sublist (r.entries packets) ∧
    (err = none → sink.isSome → l = r.entries packets)

theorem entries_cons (r : Receiver) (packet : Packet) (packets : List Packet) :
    r.entries (packet :: packets) = if r.passes (r.reassembly.data packet)
      then (packet.key, r.reassembly.data packet) :: r.entries packets
      else r.entries packets := by
  unfold Receiver.entries
  rw [map_cons, filter_cons]

theorem Delivered.cons {err err' : Option ReceiverError} {r1 : Receiver}
    {firstErr : Option ReceiverError} {log : List (Key × Bytes)}
    (hands : HandsOver sink r packet firstErr (err, log)) (hlo : r1.log = log)
    (hk : Kept r r1) (heq : r1.entries packets = r.entries packets)
    (hst : r1.reassembly = (r.reassembly.release packet.handle).2)
    (h : Delivered sink packets err r1 err' r') :
    Delivered sink (packet :: packets) firstErr r err' r' := by
  obtain ⟨l, hl, hsu, ha⟩ := h.log
  rw [heq] at hsu ha
  have hn : err' = none → err = none := by
    rintro rfl
    rcases h.error with he | he
    · exact he.symm
    · cases he
  have hr : r'.reassembly =
      r.reassembly.run ((packet :: packets).map fun p => .release p.handle) := by
    rw [h.released, hst]
    rfl
  cases hands with
  | kept hf =>
    refine ⟨hk.trans h.kept, h.error, h.taken, hr, l, ?_, ?_, ?_⟩
    · rw [hl, hlo]
    · rw [entries_cons]
      split
      · exact hsu.cons _
      · exact hsu
    · intro he hsink
      rw [entries_cons, hf (hn he) hsink]
      exact ha he hsink
  | handed answer hfs hsink hp =>
    subst hfs
    have her : (if answer r.log (r.reassembly.data packet) then none
        else some ReceiverError.sink) = none ∨
        (if answer r.log (r.reassembly.data packet) then none else some .sink) =
          some ReceiverError.sink := by
      split
      · exact .inl rfl
      · exact .inr rfl
    refine ⟨hk.trans h.kept, ?_, ?_, hr, (packet.key, r.reassembly.data packet) :: l,
      ?_, ?_, ?_⟩
    · rcases h.error with he | he
      · rw [he]
        exact her
      · exact .inr he
    · intro _ htk
      apply h.taken _ htk
      rw [htk answer hsink]
      rfl
    · rw [hl, hlo, append_assoc]
      rfl
    · rw [entries_cons, if_pos hp]
      exact hsu.cons_cons _
    · intro he hs
      rw [entries_cons, if_pos hp, ha he hs]

theorem deliverLoop_spec (sink : Sink) {packets : List Packet} (firstErr : Option ReceiverError)
    (h : Custody (packets ++ hand) r) :
    Delivered sink packets firstErr r (r.deliverLoop sink packets firstErr).1
      (r.deliverLoop sink packets firstErr).2 ∧
      Custody hand (r.deliverLoop sink packets firstErr).2 := by
  induction packets generalizing r firstErr with
  | nil =>
    refine ⟨⟨.refl r, .inl rfl, fun h _ => h, rfl, [], ?_, .slnil, fun _ _ => rfl⟩, h⟩
    exact (append_nil _).symm
  | cons packet packets ih =>
    obtain ⟨hk, hs, hands⟩ := handOver_spec sink r packet firstErr
    unfold Receiver.deliverLoop
    generalize r.handOver sink packet firstErr = out at hk hs hands
    obtain ⟨err, r1⟩ := out
    dsimp only at hk hs hands ⊢
    have ho : Owned (packet :: (packets ++ hand ++ r.waiting)) r1.reassembly := by
      rw [hs]
      exact h.owned
    obtain ⟨hre, hl, hd⟩ := ho.release
    have hc : (r1.reassembly.release packet.handle).2.config = r1.reassembly.config :=
      (Reassembly.Steps.config (Reassembly.call_steps ho.wf (.release packet.handle))).1
    have hk2 : Kept r { r1 with reassembly := (r1.reassembly.release packet.handle).2 } :=
      ⟨hk.config, hk.reorders, hk.outputSize, hk.reorderHeld, hk.reorderBudget,
        hk.reorderDeadline, hc.trans hk.store⟩
    have heq : ({ r1 with reassembly := (r1.reassembly.release packet.handle).2 } :
        Receiver).entries packets = r.entries packets := by
      have hm : (packets.map fun p => (p.key, (r1.reassembly.release packet.handle).2.data p)) =
          packets.map fun p => (p.key, r.reassembly.data p) := by
        apply map_congr_left
        intro p hp
        rw [hd p (by simp [hp]), hs]
      unfold Receiver.entries Receiver.passes
      rw [hm]
      show List.filter _ _ = _
      rw [hk.config]
    have hcu : Custody (packets ++ hand)
        { r1 with reassembly := (r1.reassembly.release packet.handle).2 } :=
      h.kept hk2 hl
    obtain ⟨hr, he⟩ := ih err hcu
    rw [hre]
    rw [show Receiver.releaseError (.ok ()) = none from rfl, Option.or_none]
    refine ⟨Delivered.cons hands ?_ hk2 heq ?_ hr, he⟩
    · rfl
    · rw [← hs]

end WgFrag.Data
