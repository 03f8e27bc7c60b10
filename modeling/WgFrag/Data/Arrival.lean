import WgFrag.Data.Inbound

/-! Records, payloads and ticks: what every run of a receiver upholds. -/
namespace WgFrag.Data
open WgFrag.Lib Limits List
open Reassembly (Reassembler Packet Owned)
open Reorder (Reorderer)

variable {r r' : Receiver} {hand : List Packet} {packet : Packet} {sink : Sink} {now : Time}
variable {record : Record} {flushed : Bool}

/-! ### Records -/

abbrev Receiver.storing (r : Receiver) (now : Time) (record : Record) :=
  Reassembly.accept now record.key record r.reassembly

def Receiver.stored (r : Receiver) (now : Time) (record : Record) : Receiver :=
  { r with reassembly := (r.storing now record).2 }

/-- What a record does: it is of another session, the reassembler keeps or refuses it, or it
completes a packet. -/
inductive Arrives (sink : Sink) (now : Time) (record : Record) (r : Receiver) : Receiver → Prop
  | foreign : record.header.dataSessionID ≠ r.config.dataSessionID →
    Arrives sink now record r { r with unknownSession := record.header.dataSessionID }
  | stored : record.header.dataSessionID = r.config.dataSessionID →
    (∀ p evicted, (r.storing now record).1 ≠ .ok ⟨.completed p, evicted⟩) →
    Arrives sink now record r (r.stored now record)
  | completed {r' : Receiver} (p : Packet) (evicted : Option Key) :
    record.header.dataSessionID = r.config.dataSessionID →
    (r.storing now record).1 = .ok ⟨.completed p, evicted⟩ →
    Relation.ReflTransGen (Event sink) ([p], r.stored now record) ([], r') →
    Arrives sink now record r r'

theorem Arrives.fixed (h : Arrives sink now record r r') : Fixed r r' := by
  cases h with
  | foreign | stored => exact ⟨rfl, rfl⟩
  | completed _ _ _ _ he => exact events_fixed he

def Forgivable (sink : Sink) (e : ReceiverError) : Prop :=
  e.isCarrierDrop = true ∨ e = .sink ∧ ¬ sink.Takes

theorem accept_error {now : Time} {e : Reassembly.Error} (hc : Custody hand r)
    (h : (r.storing now record).1 = .error e) : e.isCarrierDrop = true := by
  have ho := Reassembly.accept_outcome hc.owned.wf now record.key record
  unfold Receiver.storing at h
  generalize Reassembly.accept now record.key record r.reassembly = out at ho h
  cases ho with
  | refused _ hr =>
    cases h
    rcases hr with hd | ⟨-, hp⟩
    · exact hd
    · rw [hc.store] at hp
      exact absurd hp (by simp [ReceiverConfig.reassembly, Record.key])
  | stored _ _ _ _ _ _ hok =>
    obtain ⟨_, hre⟩ := hok
    rw [hre] at h
    cases h

inductive Failure (sink : Sink) (now : Time) (record : Record) (r : Receiver) :
    ReceiverError → Prop
  | session : Failure sink now record r .dataSession
  | store {e : Reassembly.Error} : (r.storing now record).1 = .error e →
    Failure sink now record r (.reassembly e)
  | sink : ¬ sink.Takes → Failure sink now record r .sink

theorem Failure.forgivable {e : ReceiverError} (hc : Custody hand r)
    (h : Failure sink now record r e) : Forgivable sink e := by
  cases h with
  | session => exact .inl rfl
  | store h => exact .inl (accept_error hc h)
  | sink h => exact .inr ⟨rfl, h⟩

private theorem onReassembly_eq {α : Type} (x : Eff Reassembler Reassembly.Error α) :
    onReassembly x r = ((x r.reassembly).1.mapError .reassembly,
      { r with reassembly := (x r.reassembly).2 }) := by
  unfold onReassembly
  obtain ⟨_ | _, _⟩ := x r.reassembly <;> rfl

section Arrival
variable {record : Record} (hsession : record.header.dataSessionID = r.config.dataSessionID)
include hsession

private theorem acceptRecord_unfold : acceptRecord now sink record r =
    ((onReassembly (Reassembly.accept now record.key record) >>= fun result =>
      match result.status with
      | .completed packet => acceptCompleted now sink packet
      | _ => pure ()) : ReceiverM Unit) r := by
  unfold acceptRecord
  rw [Eff.get_bind, if_neg (not_not.mpr hsession)]
  rfl

theorem acceptRecord_completed {evicted : Option Key}
    (hd : (r.storing now record).1 = .ok ⟨.completed packet, evicted⟩) :
    acceptRecord now sink record r = acceptCompleted now sink packet (r.stored now record) := by
  rw [acceptRecord_unfold hsession, Eff.bind_apply, onReassembly_eq, hd]
  rfl

theorem acceptRecord_open {result : Reassembly.Result} (hd : (r.storing now record).1 = .ok result)
    (ho : ∀ p, result.status ≠ .completed p) :
    acceptRecord now sink record r = (.ok (), r.stored now record) := by
  rw [acceptRecord_unfold hsession, Eff.bind_apply, onReassembly_eq, hd]
  obtain ⟨status, _⟩ := result
  cases status with
  | completed p => exact absurd rfl (ho p)
  | accepted | duplicate => rfl

private theorem acceptRecord_refused {e : Reassembly.Error}
    (hd : (r.storing now record).1 = .error e) :
    acceptRecord now sink record r = (.error (.reassembly e), r.stored now record) := by
  rw [acceptRecord_unfold hsession, Eff.bind_apply, onReassembly_eq, hd]
  rfl

end Arrival

section Stored
variable (now : Time) (record : Record) (hb : Balanced [] r)

theorem OnTime.stored (h : OnTime r) : OnTime (r.stored now record) :=
  h.congr rfl rfl fun _ => ⟨Iff.rfl, fun _ => rfl⟩

include hb

theorem Balanced.stored (ho : Owned (hand ++ r.waiting) (r.storing now record).2) :
    Balanced hand (r.stored now record) := by
  have hc : (r.storing now record).2.config = r.reassembly.config := (Reassembly.Steps.config
    (Reassembly.call_steps hb.custody.owned.wf (.accept now record.key record))).1
  exact ⟨hb.custody.kept ⟨rfl, rfl, rfl, rfl, rfl, rfl, hc⟩ ho, hb.counted, hb.within⟩

theorem acceptRecord_spec (sink : Sink) :
    Balanced [] (acceptRecord now sink record r).2 ∧
      (∀ e, (acceptRecord now sink record r).1 = .error e → Failure sink now record r e) ∧
      (0 < now → OnTime r → OnTime (acceptRecord now sink record r).2) ∧
      Arrives sink now record r (acceptRecord now sink record r).2 := by
  by_cases hsession : record.header.dataSessionID = r.config.dataSessionID
  · rcases hb.custody.owned.accept now record.key record with ⟨p, evicted, hd, how, hkey⟩ |
      ⟨ho, how⟩
    · rw [acceptRecord_completed hsession hd]
      have hk : (r.stored now record).Keyed p := by
        unfold Receiver.Keyed
        rw [hkey]
        exact ⟨rfl, hsession⟩
      have hends := acceptCompleted_spec sink now (hb.stored now record how) hk
      refine ⟨hends.balanced, ?_, fun hno ht => hends.onTime hno (ht.stored now record),
        .completed p evicted hsession hd hends.events⟩
      intro e he
      rcases hends.fine with hok | ⟨hsink, htk⟩
      · rw [hok] at he
        cases he
      · rw [hsink] at he
        cases he
        exact .sink htk
    · have ha : Arrives sink now record r (r.stored now record) := .stored hsession ho
      cases hd : (r.storing now record).1 with
      | error =>
        rw [acceptRecord_refused hsession hd]
        refine ⟨hb.stored now record how, ?_, fun _ ht => ht.stored now record, ha⟩
        intro e' he
        cases he
        exact .store hd
      | ok result =>
        have hn : ∀ p, result.status ≠ .completed p := by
          intro p hp
          apply ho p result.evicted
          rw [hd, ← hp]
        rw [acceptRecord_open hsession hd hn]
        refine ⟨hb.stored now record how, ?_, fun _ ht => ht.stored now record, ha⟩
        intro e he
        cases he
  · have hf : acceptRecord now sink record r =
        (.error .dataSession, { r with unknownSession := record.header.dataSessionID }) := by
      unfold acceptRecord
      rw [Eff.get_bind, if_pos hsession]
      rfl
    rw [hf]
    refine ⟨⟨?_, hb.counted, hb.within⟩, ?_, ?_, .foreign hsession⟩
    · exact hb.custody.kept ⟨rfl, rfl, rfl, rfl, rfl, rfl, rfl⟩ hb.custody.owned
    · intro e he
      cases he
      exact .session
    · intro _ ht
      exact ht.congr rfl rfl fun _ => ⟨Iff.rfl, fun _ => rfl⟩

end Stored

/-! ### Ticks -/

/-- The deadline is right unless it is about to be computed anew. -/
def Timed (flushed : Bool) (r : Receiver) : Prop :=
  r.Started ∧ (flushed = false → OnTime r)

theorem Kept.timed (h : Kept r r') (ht : Timed flushed r) : Timed flushed r' := by
  refine ⟨?_, fun hf => h.onTime (ht.2 hf)⟩
  unfold Receiver.Started
  rw [h.reorders]
  exact ht.1

theorem refresh_timed (hb : Balanced [] r) (ht : Timed flushed r) :
    OnTime (if flushed then r.refreshReorderDeadline true now else r) := by
  cases flushed with
  | true => exact refresh_onTime hb.custody hb.counted ht.1
  | false => exact ht.2 rfl

theorem refresh_balanced (recompute : Bool) (hb : Balanced [] r) :
    Balanced [] (r.refreshReorderDeadline recompute now) := by
  obtain ⟨t, ht⟩ := refresh_booked r recompute now
  rw [ht]
  exact ⟨Booked.custody ⟨_, t, rfl⟩ hb.custody, hb.counted, hb.within⟩

theorem refresh_event (recompute : Bool) :
    Event sink ([], r) ([], r.refreshReorderDeadline recompute now) := by
  obtain ⟨t, ht⟩ := refresh_booked r recompute now
  exact .book ⟨_, t, ht⟩

structure Ticks (sink : Sink) (flushed : Bool) (r : Receiver)
    (out : Except ReceiverError Bool × Receiver) : Prop where
  balanced : Balanced [] out.2
  events : Relation.ReflTransGen (Event sink) ([], r) ([], out.2)
  ok : ∀ b, out.1 = .ok b → Timed flushed r → Timed b out.2
  error : ∀ e, out.1 = .error e → (e = .sink ∧ ¬ sink.Takes) ∧ (Timed flushed r → OnTime out.2)

theorem tick_moves (now : Time) (lane : UInt8) (hb : Balanced [] r) :
    ∃ given q, Reorder.tick now r.outputSize (r.reorders lane) = (.ok given, q) ∧ q.Ok ∧
      q.config = (r.reorders lane).config ∧ (given ++ q.pending).Perm (r.reorders lane).pending ∧
      Reorder.Advances (r.reorders lane).next given q.next ∧
      (q.pending ≠ [] → q.gapStartedAt = (r.reorders lane).gapStartedAt) := by
  have hok := hb.custody.queue lane
  have ho := capacity_lt_output hb.custody lane
  rcases Reorder.tick_spec now hok
    (show (r.reorders lane).config.capacity ≤ r.outputSize by omega) with ⟨hrun, -⟩ |
    ⟨given, q, hrun, hfl, hq⟩
  · exact ⟨[], _, hrun, hok, rfl, .refl _, rfl, fun _ => rfl⟩
  refine ⟨given, q, hrun, hq, hfl.config, ?_, hfl.advances, fun h => absurd hfl.empty h⟩
  rw [hfl.empty, append_nil]
  exact hfl.perm

private theorem tickLoop_cons {given : List Packet} {q : Reorderer} {lane : UInt8}
    {rest : List UInt8}
    (hrun : Reorder.tick now r.outputSize (r.reorders lane) = (.ok given, q)) :
    tickLoop now sink (lane :: rest) flushed r =
      (orRefresh (flushed || given.length != 0) now (deliver given sink) >>= fun _ =>
        tickLoop now sink rest (flushed || given.length != 0))
        { r.setLane lane q with reorderHeld := r.reorderHeld - given.length } := by
  rw [tickLoop]
  simp only [Eff.bind_apply, Eff.get_apply, onLane_ok hrun, Eff.modify_apply]
  rfl

private theorem orRefresh_ok {x : ReceiverM Unit}
    (h : (x r).1 = .ok ()) : orRefresh flushed now x r = (.ok (), (x r).2) := by
  unfold orRefresh
  generalize x r = out at h
  obtain ⟨_, _⟩ := out
  subst h
  rfl

private theorem orRefresh_error {x : ReceiverM Unit} {e : ReceiverError}
    (h : (x r).1 = .error e) : orRefresh flushed now x r =
      (.error e, if flushed then (x r).2.refreshReorderDeadline true now else (x r).2) := by
  unfold orRefresh
  generalize x r = out at h
  obtain ⟨_, _⟩ := out
  subst h
  rfl

/-- A tick of one lane leaves the other gaps, and its own unless packets were given. -/
theorem tick_timed {given : List Packet} {q : Reorderer} {lane : UInt8} {held : ℤ}
    (hpm : (given ++ q.pending).Perm (r.reorders lane).pending)
    (hg : q.pending ≠ [] → q.gapStartedAt = (r.reorders lane).gapStartedAt)
    (ht : Timed flushed r) : Timed (flushed || given.length != 0)
      { r.setLane lane q with reorderHeld := held } := by
  have hlen := hpm.length_eq
  rw [length_append] at hlen
  constructor
  · refine started_setLane ht.1 fun hq => ?_
    rw [hg hq]
    apply ht.1
    intro hp
    have := length_pos_iff.mpr hq
    rw [hp, length_nil] at hlen
    omega
  · intro hb
    have hf : flushed = false := by
      cases flushed
      · rfl
      · cases hb
    have hgi : given.length = 0 := by
      rw [hf] at hb
      simpa using hb
    refine (ht.2 hf).congr rfl rfl fun l => ?_
    by_cases hl : l = lane
    · subst hl
      have heq : q.pending = [] ↔ (r.reorders l).pending = [] := by
        rw [← length_eq_zero_iff, ← length_eq_zero_iff]
        omega
      simp only [Receiver.setLane, Function.update_self]
      exact ⟨heq, fun h => hg (mt heq.mp h)⟩
    · rw [show ({ r.setLane lane q with reorderHeld := held } : Receiver).reorders l =
        r.reorders l from Function.update_of_ne hl ..]
      exact ⟨Iff.rfl, fun _ => rfl⟩

theorem tickLoop_spec (now : Time) (sink : Sink) (ls : List UInt8) (flushed : Bool)
    (hb : Balanced [] r) : Ticks sink flushed r (tickLoop now sink ls flushed r) := by
  induction ls generalizing r flushed with
  | nil => exact ⟨hb, .refl, fun b h ht => by cases h; exact ht, fun e h => by cases h⟩
  | cons lane _ ih =>
    obtain ⟨given, q, hrun, hq, hc, hpm, ha, hg⟩ := tick_moves now lane hb
    have hm : (given ++ q.pending).Perm ([] ++ (r.reorders lane).pending) := hpm
    have hbo : Booked (r.setLane lane q)
        { r.setLane lane q with reorderHeld := r.reorderHeld - given.length } := ⟨_, _, rfl⟩
    obtain ⟨hba, -, -, hk, hfine, hev⟩ := pass_balanced sink
      (show Balanced ([] ++ []) r from hb) (by simp) hq hc hm ha hbo
      (by simp) (by have := hb.within; dsimp only; omega)
    have hti := fun ht : Timed flushed r => hk.timed (tick_timed hpm hg ht)
    rw [tickLoop_cons hrun, Eff.bind_apply]
    rcases hfine with hok | ⟨hsink, htk⟩
    · rw [orRefresh_ok hok]
      have hr := ih (flushed || given.length != 0) hba
      exact ⟨hr.balanced, .head hev hr.events, fun b hb ht => hr.ok b hb (hti ht),
        fun e he => ⟨(hr.error e he).1, fun ht => (hr.error e he).2 (hti ht)⟩⟩
    · rw [orRefresh_error hsink]
      refine ⟨?_, ?_, fun b h => (by cases h), ?_⟩
      · dsimp only
        split
        · exact refresh_balanced true hba
        · exact hba
      · dsimp only
        split
        · exact .head hev (.single (refresh_event true))
        · exact .single hev
      · intro e he
        cases he
        exact ⟨⟨rfl, htk⟩, fun ht => refresh_timed hba (hti ht)⟩

theorem tickReorder_spec (now : Time) (sink : Sink) (hb : Balanced [] r) :
    Balanced [] (tickReorder now sink r).2 ∧
      (∀ e, (tickReorder now sink r).1 = .error e → e = .sink ∧ ¬ sink.Takes) ∧
      (OnTime r → OnTime (tickReorder now sink r).2) ∧
      Relation.ReflTransGen (Event sink) ([], r) ([], (tickReorder now sink r).2) := by
  unfold tickReorder
  rw [Eff.get_bind]
  split
  · exact ⟨hb, fun e he => (by cases he), id, .refl⟩
  have hl := tickLoop_spec now sink lanes false hb
  rw [Eff.bind_apply]
  generalize tickLoop now sink lanes false r = out at hl
  obtain ⟨res, r1⟩ := out
  cases res with
  | error e =>
    refine ⟨hl.balanced, ?_, ?_, hl.events⟩
    · intro e' he
      cases he
      exact (hl.error e rfl).1
    · intro ht
      exact (hl.error e rfl).2 ⟨ht.started, fun _ => ht⟩
  | ok flushed =>
    have hti := fun ht : OnTime r => hl.ok flushed rfl ⟨ht.started, fun _ => ht⟩
    have hb1 := hl.balanced
    cases flushed with
    | true =>
      exact ⟨refresh_balanced true hb1, fun e he => (by cases he),
        fun ht => refresh_onTime hb1.custody hb1.counted (hti ht).1,
        hl.events.tail (refresh_event true)⟩
    | false =>
      have hon := fun ht : OnTime r => (hti ht).2 rfl
      simp only [Bool.false_eq_true, if_false, Eff.bind_apply, Eff.get_apply]
      split
      · next hz =>
        have hw : r1.waiting = [] := by
          apply eq_nil_of_length_eq_zero
          have := hb1.counted
          dsimp only at this
          omega
        exact ⟨refresh_balanced false hb1, fun e he => (by cases he),
          fun _ => refresh_idle hw hb1.counted false, hl.events.tail (refresh_event false)⟩
      · exact ⟨hb1, fun e he => (by cases he), hon, hl.events⟩

/-! ### Runs -/

/-- Every call brings its own sink. -/
inductive ReceiverCall where
  | payload (now : Time) (payload : Bytes) (sink : Sink)
  | tickReorder (now : Time) (sink : Sink)
  | expireReassembly (now : Time)

def ReceiverCall.time : ReceiverCall → Time
  | .payload now _ _ => now
  | .tickReorder now _ => now
  | .expireReassembly now => now

def Receiver.call (r : Receiver) : ReceiverCall → Receiver
  | .payload now payload sink => (acceptPayload now payload sink r).2
  | .tickReorder now sink => (tickReorder now sink r).2
  | .expireReassembly now => (expireReassembly now r).2

def Receiver.run (r : Receiver) (calls : List ReceiverCall) : Receiver :=
  calls.foldl Receiver.call r

theorem acceptPayload_balanced (now : Time) (payload : Bytes) (sink : Sink)
    (hb : Balanced [] r) : (Balanced [] (acceptPayload now payload sink r).2 ∧
      Fixed r (acceptPayload now payload sink r).2) ∧
      ∀ e, (acceptPayload now payload sink r).1 = .error e → Forgivable sink e := by
  refine parse_preserves (I := fun s => Balanced [] s ∧ Fixed r s) (acceptRecord now sink) .record
    ?_ (fun e => .inl rfl) payload ⟨hb, rfl, rfl⟩
  intro record s hs
  obtain ⟨hba, her, -, ha⟩ := acceptRecord_spec now record hs.1 sink
  exact ⟨⟨hba, hs.2.trans ha.fixed⟩, fun e he => (her e he).forgivable hs.1.custody⟩

private theorem acceptPayload_onTime {now : Time} (hn : 0 < now) (payload : Bytes) (sink : Sink)
    (hb : Balanced [] r) (ht : OnTime r) : OnTime (acceptPayload now payload sink r).2 := by
  refine (parse_preserves (I := fun r => Balanced [] r ∧ OnTime r) (E := fun _ => True)
    (acceptRecord now sink) .record ?_ (fun _ => trivial) payload ⟨hb, ht⟩).1.2
  intro record s hs
  obtain ⟨hba, -, hti, -⟩ := acceptRecord_spec now record hs.1 sink
  exact ⟨⟨hba, hti hn hs.2⟩, fun _ _ => trivial⟩

theorem Receiver.call_balanced (hb : Balanced [] r) (c : ReceiverCall) :
    Balanced [] (r.call c) ∧ Fixed r (r.call c) := by
  cases c with
  | payload now payload sink => exact (acceptPayload_balanced now payload sink hb).1
  | tickReorder now sink =>
    obtain ⟨hba, -, -, he⟩ := tickReorder_spec now sink hb
    exact ⟨hba, events_fixed he⟩
  | expireReassembly now =>
    have hc : (r.reassembly.expire now).2.config = r.reassembly.config :=
      (Reassembly.Steps.config (Reassembly.call_steps hb.custody.owned.wf (.expire now))).1
    exact ⟨⟨hb.custody.kept ⟨rfl, rfl, rfl, rfl, rfl, rfl, hc⟩ (hb.custody.owned.expire now),
      hb.counted, hb.within⟩, rfl, rfl⟩

theorem Receiver.call_onTime {c : ReceiverCall} (hb : Balanced [] r) (ht : OnTime r)
    (hn : 0 < c.time) : OnTime (r.call c) := by
  cases c with
  | payload _ payload sink => exact acceptPayload_onTime hn payload sink hb ht
  | tickReorder now sink => exact (tickReorder_spec now sink hb).2.2.1 ht
  | expireReassembly => exact ht.congr rfl rfl fun _ => ⟨Iff.rfl, fun _ => rfl⟩

theorem Receiver.run_balanced (hb : Balanced [] r) (calls : List ReceiverCall) :
    Balanced [] (r.run calls) ∧ Fixed r (r.run calls) := by
  induction calls generalizing r with
  | nil => exact ⟨hb, rfl, rfl⟩
  | cons c _ ih =>
    obtain ⟨hba, hf⟩ := r.call_balanced hb c
    obtain ⟨hrun, hr⟩ := ih hba
    exact ⟨hrun, hf.trans hr⟩

theorem Receiver.run_onTime {calls : List ReceiverCall} (hb : Balanced [] r) (ht : OnTime r)
    (hn : ∀ c ∈ calls, 0 < c.time) : OnTime (r.run calls) := by
  induction calls generalizing r with
  | nil => exact ht
  | cons c _ ih =>
    refine ih (r.call_balanced hb c).1 (r.call_onTime hb ht (hn c (mem_cons_self ..))) ?_
    exact fun c' hc' => hn c' (mem_cons_of_mem _ hc')

def Receiver.totalPending (r : Receiver) : ℕ :=
  lanes.foldl (fun n lane => n + (r.reorders lane).count) 0

private theorem totalPending_eq (hc : Custody hand r) : r.totalPending = r.waiting.length := by
  have hs : ∀ (ls : List UInt8) (n : ℕ), ls.foldl (fun n lane => n + (r.reorders lane).count) n =
        n + (ls.flatMap fun lane => (r.reorders lane).pending).length := by
    intro ls
    induction ls with
    | nil => simp
    | cons lane _ ih =>
      intro n
      rw [foldl_cons, ih, flatMap_cons, length_append, (hc.queue lane).tallied.count]
      omega
  exact (hs lanes 0).trans (Nat.zero_add _)

/-- In a balanced receiver whose deadline is right, the books say what its parts hold. -/
theorem Balanced.books (hb : Balanced [] r) (ht : OnTime r) :
    r.reorderHeld = r.totalPending ∧
      r.reorderHeld = (r.reassembly.slots.countP fun s => s.state = .completed) ∧
      (∀ lane, (r.reorders lane).count ≠ 0 → r.nextReorderDeadline ≤ r.gapDeadline lane) ∧
      ((∃ lane, (r.reorders lane).count ≠ 0) →
        ∃ lane, (r.reorders lane).count ≠ 0 ∧ r.nextReorderDeadline = r.gapDeadline lane) ∧
      (r.nextReorderDeadline = 0 ↔ ∀ lane, (r.reorders lane).count = 0) := by
  have hc : ∀ lane, (r.reorders lane).count = (r.reorders lane).pending.length :=
    fun lane => (hb.custody.queue lane).tallied.count
  have hpe : ∀ lane, (r.reorders lane).count ≠ 0 ↔ (r.reorders lane).pending ≠ [] := by
    intro lane
    rw [hc, ne_eq, length_eq_zero_iff]
  have he : (∀ lane, (r.reorders lane).count = 0) ↔ r.waiting = [] := by
    rw [waiting_eq_nil]
    exact forall_congr' fun lane => not_iff_not.mp (hpe lane)
  have hd : r.nextReorderDeadline = r.reorderDeadline := by
    unfold Receiver.nextReorderDeadline
    split
    · next h =>
      have hz : r.reorderHeld = 0 := by simpa [hb.custody.enabled] using h
      refine (ht.earliest.idle (eq_nil_of_length_eq_zero ?_)).symm
      have := hb.counted
      omega
    · rfl
  rw [hd, he]
  refine ⟨?_, ?_, fun lane h => ht.earliest.le lane ((hpe lane).mp h), ?_,
    fun hz => ?_, ht.earliest.idle⟩
  · rw [hb.counted, totalPending_eq hb.custody]
  · rw [hb.counted]
    exact congrArg _ hb.custody.owned.length_eq
  · rintro ⟨lane, h⟩
    obtain ⟨lane, hp, heq⟩ := ht.earliest.attained
      fun hw => (hpe lane).mp h (waiting_eq_nil.mp hw lane)
    exact ⟨lane, (hpe lane).mpr hp, heq⟩
  · by_contra hw
    obtain ⟨lane, hp, heq⟩ := ht.earliest.attained hw
    have hpos : 0 < r.gapDeadline lane := add_pos (ht.started lane hp) hb.custody.delay
    rw [← heq, hz] at hpos
    exact lt_irrefl _ hpos

section New
variable {c : ReceiverConfig} {payloadOnly : Bool}
  (hnew : newConfiguredReceiver c payloadOnly = .ok r)
include hnew

theorem newConfiguredReceiver_ok : c.Valid payloadOnly ∧
    (c.reorderEnabled = true → 0 < c.budget ∧ c.budget < c.slots) ∧
    ∃ reassembly reorder, Reassembly.new c.reassembly = .ok reassembly ∧
      Reorder.new (c.lane 0) = .ok reorder ∧ r = c.receiver payloadOnly reassembly reorder := by
  unfold newConfiguredReceiver at hnew
  split at hnew
  · cases hnew
  rename_i hv
  split at hnew
  · cases hnew
  rename_i hbu
  refine ⟨not_not.mp hv, fun he => ?_, ?_⟩
  · by_contra hno
    exact hbu ⟨he, by omega⟩
  split at hnew
  · cases hnew
  · cases hnew
  · next reassembly reorder h h' =>
    exact ⟨reassembly, reorder, h, h', (Except.ok.inj hnew).symm⟩

theorem newConfiguredReceiver_fresh (he : c.reorderEnabled = true) :
    Balanced [] r ∧ OnTime r := by
  obtain ⟨hv, hbu, reassembly, reorder, hre, hro, rfl⟩ := newConfiguredReceiver_ok hnew
  obtain ⟨hok, hcf, hp, _⟩ := Reorder.new_ok hro he
  obtain ⟨hwf, hfr⟩ := Reassembly.new_wf hre
  have hs : reassembly.config = c.reassembly := Reassembly.new_config hre
  have hpend : ∀ lane, ((c.receiver payloadOnly reassembly reorder).reorders lane).pending = [] :=
    fun _ => hp
  have hw := waiting_eq_nil.mpr hpend
  refine ⟨⟨⟨he, if_pos he, hs, ?_, (hbu he).1, ?_, fun _ => rfl, ?_⟩,
    ?_, ?_⟩, fun lane h => absurd (hpend lane) h, fun _ => rfl, fun lane h => absurd (hpend lane) h,
    fun h => absurd hw h⟩
  · exact (hv.2.2.2.2.2.2.2 he).2
  · intro lane
    have hc : (c.lane lane).capacity = reorder.config.capacity := by
      rw [hcf]
      rfl
    refine ⟨he, ⟨hok.tallied.capacity.trans hc.symm, hok.tallied.count⟩, ?_, ?_, ?_,
      fun h => hok.gap h⟩
    · rw [hpend]
      simp
    · rw [hpend]
      simp
    · rw [hpend]
      exact nodup_nil
  · rw [hw]
    exact ⟨hwf, by simp, nodup_nil, fun i hi => absurd ((hfr i).symm.trans hi) (by simp)⟩
  · rw [hw]
    rfl
  · exact Int.natCast_nonneg _

/-- Whatever happened before, a payload of any bytes is taken or rejected as a carrier drop, and
a tick succeeds, unless the sink fails. -/
theorem run_drops_only (henabled : c.reorderEnabled = true) (calls : List ReceiverCall)
    (now : Time) (payload : Bytes) {sink : Sink} (htakes : sink.Takes) :
    ((acceptPayload now payload sink (r.run calls)).1 = .ok () ∨
      ∃ e, (acceptPayload now payload sink (r.run calls)).1 = .error e ∧ e.isCarrierDrop = true) ∧
    (tickReorder now sink (r.run calls)).1 = .ok () := by
  have hb := (Receiver.run_balanced (newConfiguredReceiver_fresh hnew henabled).1 calls).1
  constructor
  · cases hpay : (acceptPayload now payload sink (r.run calls)).1 with
    | ok => exact .inl rfl
    | error e =>
      rcases (acceptPayload_balanced now payload sink hb).2 e hpay with hdrop | ⟨-, hf⟩
      · exact .inr ⟨e, rfl, hdrop⟩
      · exact absurd htakes hf
  · cases htick : (tickReorder now sink (r.run calls)).1 with
    | ok => rfl
    | error e => exact absurd htakes ((tickReorder_spec now sink hb).2.1 e htick).2

/-- After every call: the count is the number of packets in the queues and of completed slots,
and within the budget; the deadline is that of the oldest gap, and zero without a gap. -/
theorem run_books (henabled : c.reorderEnabled = true) {calls : List ReceiverCall}
    (htimes : ∀ call ∈ calls, 0 < call.time) :
    (r.run calls).reorderHeld = (r.run calls).totalPending ∧ (r.run calls).reorderHeld =
        ((r.run calls).reassembly.slots.countP fun s => s.state = .completed) ∧
      (r.run calls).reorderHeld ≤ c.budget ∧
      (∀ lane, ((r.run calls).reorders lane).count ≠ 0 → (r.run calls).nextReorderDeadline ≤
        ((r.run calls).reorders lane).gapStartedAt + c.reorderMaxDelay) ∧
      ((∃ lane, ((r.run calls).reorders lane).count ≠ 0) →
        ∃ lane, ((r.run calls).reorders lane).count ≠ 0 ∧ (r.run calls).nextReorderDeadline =
          ((r.run calls).reorders lane).gapStartedAt + c.reorderMaxDelay) ∧
      ((r.run calls).nextReorderDeadline = 0 ↔
        ∀ lane, ((r.run calls).reorders lane).count = 0) := by
  obtain ⟨hfre, hsta⟩ := newConfiguredReceiver_fresh hnew henabled
  obtain ⟨hb, hcfg, hbud⟩ := Receiver.run_balanced hfre calls
  obtain ⟨hheld, hsl, hle, hatt, hzero⟩ := hb.books (Receiver.run_onTime hfre hsta htimes)
  obtain ⟨-, -, _, _, -, -, hr⟩ := newConfiguredReceiver_ok hnew
  have hdel : (r.run calls).config.reorderMaxDelay = c.reorderMaxDelay := by
    rw [hcfg, hr]
    rfl
  have hlim : (r.run calls).reorderBudget = c.budget := by
    rw [hbud, hr]
    rfl
  have hwit := hb.within
  rw [hlim] at hwit
  unfold Receiver.gapDeadline at hle hatt
  rw [hdel] at hle hatt
  exact ⟨hheld, hsl, hwit, hle, hatt, hzero⟩

end New

def sampleReceiver : ReceiverConfig where
  peerID := 0
  dataSessionID := 1
  carrierSource := .invalid
  carrierDest := .invalid
  allowedIPs := ⟨⟨[]⟩, ⟨[]⟩⟩
  slots := 2
  perPeerSlots := 2
  maxPacketSize := 1280
  lifetime := 10
  reorderEnabled := true
  reorderCapacity := 1
  reorderBudget := 0
  reorderMaxDelay := 5

def takeAll : Sink := some fun _ _ => true

/-- A packet ahead of its lane, twice, and a tick before its deadline. -/
def sampleReceiverCalls : List ReceiverCall :=
  [.payload 3 (encodeRecord ⟨⟨0, 1, 0, 1, 1, 0⟩, [69]⟩) takeAll,
    .payload 4 (encodeRecord ⟨⟨0, 1, 0, 1, 1, 0⟩, [69]⟩) takeAll,
    .tickReorder 5 takeAll, .expireReassembly 6]

/-- A receiver whose peer owns every IPv4 address. -/
def openReceiver : ReceiverConfig :=
  { sampleReceiver with allowedIPs := ⟨⟨[{ peer := some 0 }]⟩, ⟨[]⟩⟩ }

def sampleRecord (sequence : UInt32) : Bytes :=
  encodeRecord ⟨⟨0, 1, 0, 1, sequence, 0⟩,
    [0x45, 0, 0, 20, 0, 0, 0, 0, 64, 17, 0, 0, 10, 0, 0, 1, 10, 0, 0, 2]⟩

def oneAhead : List ReceiverCall := [.payload 3 (sampleRecord 1) takeAll]

/-- The packet that the lane waits for goes out with the one ahead of it, and bytes that are no
record are a drop. -/
theorem run_drops_only_sample : ∃ r, newConfiguredReceiver openReceiver true = .ok r ∧
    openReceiver.reorderEnabled = true ∧ takeAll.Takes ∧
    (acceptPayload 7 (sampleRecord 0) takeAll (r.run oneAhead)).2.log.length = 2 ∧
    ((acceptPayload 7 (sampleRecord 0) takeAll (r.run oneAhead)).1 = .ok () ∨
      ∃ e, (acceptPayload 7 (sampleRecord 0) takeAll (r.run oneAhead)).1 = .error e ∧
        e.isCarrierDrop = true) ∧
    (∃ e, (acceptPayload 8 [1, 2, 3] takeAll (r.run oneAhead)).1 = .error e ∧
      e.isCarrierDrop = true) ∧
    (tickReorder 9 takeAll (r.run oneAhead)).1 = .ok () := by
  have htk : takeAll.Takes := by
    rintro _ h _ _
    cases h
    rfl
  have hdrops := fun {r : Receiver} (hr : newConfiguredReceiver openReceiver true = .ok r)
      now payload => run_drops_only hr rfl oneAhead now payload htk
  refine ⟨_, rfl, rfl, htk, ?_, (hdrops rfl 7 (sampleRecord 0)).1,
    (hdrops rfl 8 [1, 2, 3]).1.resolve_left ?_, (hdrops rfl 9 []).2⟩
  · decide +kernel
  · decide +kernel

theorem run_books_sample : ∃ r, newConfiguredReceiver sampleReceiver true = .ok r ∧
    sampleReceiver.reorderEnabled = true ∧ (∀ call ∈ sampleReceiverCalls, 0 < call.time) ∧
    (r.run sampleReceiverCalls).reorderHeld ≤ sampleReceiver.budget := by
  obtain ⟨r, hr⟩ : ∃ r, newConfiguredReceiver sampleReceiver true = .ok r := ⟨_, rfl⟩
  have htim : ∀ call ∈ sampleReceiverCalls, 0 < call.time := by decide
  exact ⟨r, hr, rfl, htim, (run_books hr rfl htim).2.2.1⟩

end WgFrag.Data
