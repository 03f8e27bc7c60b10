import WgFrag.Data.Window
import WgFrag.Lib.Run

/-! Runs of calls on a reorder queue: where every packet went, and in which order. -/
namespace WgFrag.Data.Reorder
open WgFrag.Lib List
open Reassembly (Packet)

variable {r r' : Reorderer}
variable {config : Config} {c : Call}

inductive Call where
  | accept (now : Time) (packet : Packet) (out : ℕ)
  | tick (now : Time) (out : ℕ)
  | flush (out : ℕ)
  | flushIncluding (packet : Packet) (out : ℕ)
  | reset (nextSequence : UInt32) (dropped : ℕ)

/-- An error, or the packets written to the output; a rejected packet was late or a duplicate. -/
inductive Reply where
  | failed (e : Error)
  | done (rejected : Bool) (output : List Packet)

def reply (out : Except Error (List Packet) × Reorderer) : Reply × Reorderer :=
  match out.1 with
  | .ok packets => (.done false packets, out.2)
  | .error e => (.failed e, out.2)

def acceptReply (out : Except Error Result × Reorderer) : Reply × Reorderer :=
  match out.1 with
  | .ok res => (.done (res.status = .late ∨ res.status = .duplicate) res.delivered, out.2)
  | .error e => (.failed e, out.2)

def Reorderer.call (r : Reorderer) : Call → Reply × Reorderer
  | .accept now packet out => acceptReply (accept now packet out r)
  | .tick now out => reply (tick now out r)
  | .flush out => reply (flush out r)
  | .flushIncluding packet out => reply (flushIncluding packet out r)
  | .reset nextSequence dropped => reply (reset nextSequence dropped r)

def Call.given : Call → List Packet
  | .accept _ packet _ => [packet]
  | .flushIncluding packet _ => [packet]
  | _ => []

def Call.isReset : Call → Bool
  | .reset _ _ => true
  | _ => false

/-- The output has the length that the call asks for. -/
def Call.Roomy (capacity : ℕ) : Call → Prop
  | .accept _ _ out => capacity + 1 ≤ out
  | .tick _ out => capacity ≤ out
  | .flush out => capacity ≤ out
  | .flushIncluding _ out => capacity + 1 ≤ out
  | .reset _ dropped => capacity ≤ dropped

/-- Packets are of the queue's lane, and one is flushed with the queue only if it would wait. -/
def Call.Legal (r : Reorderer) : Call → Prop
  | .accept _ packet _ => r.matchesLane packet = true
  | .flushIncluding packet _ => r.matchesLane packet = true ∧
    r.wouldQueue packet.key.laneSequence = true
  | _ => True

/-- Where the packets of a run went. -/
structure Ledger where
  /-- passed in by the calls -/
  passed : List Packet := []
  /-- passed in by calls that failed -/
  refused : List Packet := []
  /-- reported late or duplicate -/
  rejected : List Packet := []
  /-- written to an output, in this order -/
  returned : List Packet := []
  /-- returned by a reset -/
  dropped : List Packet := []
  /-- written to an output since the last reset, in this order -/
  recent : List Packet := []

def Ledger.enter (l : Ledger) (c : Call) : Reply → Ledger
  | .failed _ => { l with passed := l.passed ++ c.given, refused := l.refused ++ c.given }
  | .done rejected output =>
    if c.isReset then { l with dropped := l.dropped ++ output, recent := [] }
    else { l with
      passed := l.passed ++ c.given
      rejected := l.rejected ++ if rejected then c.given else []
      returned := l.returned ++ output
      recent := l.recent ++ output }

/-- A queue with its ledger, under calls listed newest first. -/
def journal (r : Reorderer) : Machine (Reorderer × Ledger) Call :=
  ⟨(r, {}), fun s c => ((s.1.call c).2, s.2.enter c (s.1.call c).1)⟩

/-- What a call may do: it fails for want of room and changes nothing, or it moves packets. -/
inductive Moves (r : Reorderer) (c : Call) : Reply × Reorderer → Prop
  | failed (e : Error) : ¬ c.Roomy r.config.capacity → Moves r c (.failed e, r)
  | done (rejected : Bool) {out : List Packet} {r' : Reorderer} : r'.Ok → r'.config = r.config →
    (c.given ++ r.pending).Perm
      ((if rejected then c.given else []) ++ (out ++ r'.pending)) →
    (c.isReset = false → Advances r.next out r'.next) → Moves r c (.done rejected out, r')

theorem Flushes.moves {virtual : Option Packet} {out : List Packet}
    (h : Flushes r virtual out r') (hok : r'.Ok) (hg : c.given = virtual.toList) :
    Moves r c (.done false out, r') := by
  refine .done false hok h.config ?_ fun _ => h.advances
  rw [hg, h.empty, append_nil]
  exact h.perm.symm

private theorem moves_nothing (hok : r.Ok) (hg : c.given = []) : Moves r c (.done false [], r) := by
  refine .done false hok rfl ?_ fun _ => rfl
  rw [hg]
  exact .refl _

private theorem accept_moves (hok : r.Ok) (now : Time) {packet : Packet} (out : ℕ)
    (hl : r.matchesLane packet = true) :
    Moves r (.accept now packet out) (acceptReply (accept now packet out r)) := by
  by_cases hrm : r.config.capacity + 1 ≤ out
  · obtain ⟨_, _, hrun, hspec, hok'⟩ := accept_spec now hok hl hrm
    rw [hrun]
    cases hspec with
    | delivered hs hpm ha hc =>
      refine .done _ hok' hc ?_ fun _ => ⟨?_, ?_⟩
      · exact hpm.symm.cons packet
      · rw [distance_eq_zero.mpr hs]
        decide
      · rw [hs]
        exact ha
    | late | duplicate => exact .done _ hok' rfl (.refl _) fun _ => rfl
    | flushed _ _ _ hfl => exact hfl.moves hok' rfl
    | queued _ _ _ hpm hnx hc =>
      exact .done _ hok' hc hpm.symm fun _ => hnx
  · have hf : accept now packet out r = (.error .outputTooSmall, r) := by
      unfold accept
      simp only [Eff.bind_apply, Eff.get_apply]
      rw [if_neg (by simp [hl]), if_neg (by simp [hok.enabled]),
        if_pos (by rw [hok.tallied.capacity]; omega)]
      rfl
    rw [hf]
    exact .failed _ hrm

private theorem flush_moves (hok : r.Ok) (out : ℕ) (hg : c.given = [])
    (hr : c.Roomy r.config.capacity ↔ r.config.capacity ≤ out) :
    Moves r c (reply (flush out r)) := by
  by_cases hrm : r.config.capacity ≤ out
  · obtain ⟨_, _, hrun, hfl, hok'⟩ := flush_spec hok hrm
    rw [hrun]
    exact hfl.moves hok' hg
  · unfold flush
    simp only [Eff.bind_apply, Eff.get_apply]
    split
    · exact moves_nothing hok hg
    · rw [if_pos (by rw [hok.tallied.capacity]; omega)]
      exact .failed _ fun h => hrm (hr.mp h)

theorem call_moves (hok : r.Ok) (hle : c.Legal r) : Moves r c (r.call c) := by
  cases c with
  | accept now _ out => exact accept_moves hok now out hle
  | tick now out =>
    show Moves r _ (reply (tick now out r))
    by_cases hw : now < r.gapStartedAt + r.config.maxDelay
    · rw [tick_early hw]
      exact moves_nothing hok rfl
    · rw [tick_due hw]
      exact flush_moves hok out rfl Iff.rfl
  | flush out => exact flush_moves hok out rfl Iff.rfl
  | flushIncluding packet out =>
    obtain ⟨hl, hwo⟩ : r.matchesLane packet = true ∧
      r.wouldQueue packet.key.laneSequence = true := hle
    show Moves r _ (reply (flushIncluding packet out r))
    by_cases hrm : r.config.capacity + 1 ≤ out
    · obtain ⟨_, _, hrun, hfl, hok'⟩ := flushIncluding_spec hok hl hrm hwo
      rw [hrun]
      exact hfl.moves hok' rfl
    · unfold flushIncluding
      simp only [Eff.bind_apply, Eff.get_apply]
      rw [if_neg (by simp [hok.enabled]), if_neg (by simp [hl]),
        if_pos (by rw [hok.tallied.capacity]; omega)]
      exact .failed _ hrm
  | reset next dropped =>
    show Moves r _ (reply (reset next dropped r))
    by_cases hrm : r.pending.length ≤ dropped
    · obtain ⟨_, hrun, hok', he, -, hc⟩ := reset_spec hok next hrm
      rw [hrun]
      refine .done false hok' hc ?_ fun h => by cases h
      rw [he, append_nil]
      exact .refl _
    · unfold reset
      simp only [Eff.bind_apply, Eff.get_apply]
      rw [if_pos (by rw [hok.tallied.count]; omega)]
      refine .failed _ fun h => hrm (Nat.le_trans ?_ h)
      rw [← hok.tallied.capacity]
      exact length_pending_le

theorem Advances.append {a b c : UInt32} {l l' : List Packet} (h : Advances a l b)
    (h' : Advances b l' c) : Advances a (l ++ l') c := by
  induction l generalizing a with
  | nil =>
    obtain rfl : b = a := h
    exact h'
  | cons _ _ ih => exact ⟨h.1, ih h.2⟩

/-- A packet comes at least one and at most half the sequence space after the one before it. -/
def Follows (p q : Packet) : Prop :=
  1 ≤ (q.key.laneSequence - p.key.laneSequence).toNat ∧
    (q.key.laneSequence - p.key.laneSequence).toNat ≤ 2147483648

theorem Advances.follows {a b : UInt32} {l : List Packet} (h : Advances a l b) :
    l.IsChain Follows := by
  induction l generalizing a with
  | nil => exact .nil
  | cons p l ih =>
    cases l with
    | nil => exact .singleton p
    | cons q =>
      refine .cons_cons ?_ (ih h.2)
      have hn : distance (p.key.laneSequence + 1) q < 2147483648 := h.2.1
      have hp := p.key.laneSequence.toNat_lt
      unfold distance at hn
      unfold Follows
      simp only [UInt32.toNat_sub, UInt32.toNat_add] at hn ⊢
      have : (1 : UInt32).toNat = 1 := rfl
      omega

structure Accounted (config : Config) (s : Reorderer × Ledger) : Prop where
  ok : s.1.Ok
  config : s.1.config = config
  perm : s.2.passed.Perm
    (s.2.refused ++ (s.2.rejected ++ (s.2.returned ++ (s.2.dropped ++ s.1.pending))))
  recent : ∃ start, Advances start s.2.recent s.1.next

theorem Accounted.enter {s : Reorderer × Ledger} (h : Accounted config s)
    (hl : c.Legal s.1) : Accounted config ((s.1.call c).2, s.2.enter c (s.1.call c).1) := by
  obtain ⟨r, _⟩ := s
  have hmo := call_moves h.ok hl
  dsimp only at hmo ⊢
  generalize r.call c = out at hmo ⊢
  obtain ⟨start, hr⟩ := h.recent
  have hpm := perm_iff_count.mp h.perm
  cases hmo with
  | failed =>
    refine ⟨h.ok, h.config, ?_, start, hr⟩
    rw [perm_iff_count]
    intro p
    have := hpm p
    simp only [Ledger.enter, count_append] at this ⊢
    omega
  | @done rejected output r' hok hc hm ha =>
    have hm := perm_iff_count.mp hm
    cases hre : c.isReset with
    | true =>
      have hg : c.given = [] := by
        cases c with
        | reset => rfl
        | accept => cases hre
        | tick => cases hre
        | flush => cases hre
        | flushIncluding => cases hre
      simp only [Ledger.enter, hre, if_true]
      refine ⟨hok, hc.trans h.config, ?_, r'.next, rfl⟩
      rw [perm_iff_count]
      intro p
      have := hpm p
      have := hm p
      simp only [hg, ite_self, nil_append, count_append] at *
      omega
    | false =>
      simp only [Ledger.enter, hre]
      refine ⟨hok, hc.trans h.config, ?_, start, hr.append (ha hre)⟩
      rw [perm_iff_count]
      intro p
      have := hpm p
      have := hm p
      simp only [Bool.false_eq_true, if_false, count_append] at *
      omega

private theorem accounted_new (hn : new config = .ok r)
    (hen : config.enabled = true) : Accounted config (journal r).init := by
  obtain ⟨hok, hc, he, -⟩ := new_ok hn hen
  refine ⟨hok, hc, ?_, r.next, rfl⟩
  show ([] : List Packet).Perm r.pending
  rw [he]

/-- A run whose outputs have room refuses no packet. -/
theorem refused_nil (hn : new config = .ok r) (he : config.enabled = true) {calls : List Call}
    (hle : (journal r).Always (fun s c => c.Legal s.1) calls)
    (hr : ∀ c ∈ calls, c.Roomy config.capacity) : ((journal r).after calls).2.refused = [] := by
  induction calls with
  | nil => rfl
  | cons c calls ih =>
    have hac := Machine.always_invariant (journal r) (accounted_new hn he)
      (fun s c hl ha => Accounted.enter ha hl) hle.2
    have ih := ih hle.2 fun c hc => hr c (mem_cons_of_mem _ hc)
    have hm := call_moves hac.ok hle.1
    show (((journal r).after calls).2.enter c (((journal r).after calls).1.call c).1).refused = []
    generalize ((journal r).after calls).1.call c = out at hm
    cases hm with
    | failed _ hrm =>
      rw [hac.config] at hrm
      exact absurd (hr c (mem_cons_self ..)) hrm
    | done =>
      unfold Ledger.enter
      dsimp only
      split
      · exact ih
      · exact ih

/-- Conservation and order of one queue. Of the packets passed in, each is refused by a call
that failed for want of room in its output, reported late or duplicate, written once to an
output, returned once by a reset, or still pending. Pending packets are distinct and ahead of
the expected sequence. Between resets every packet written follows the one before it by at
least one and at most half the sequence space. -/
theorem run_conserves {config : Config} (hnew : new config = .ok r)
    (henabled : config.enabled = true) {calls : List Call}
    (hlegal : (journal r).Always (fun s c => c.Legal s.1) calls) :
    let queue := ((journal r).after calls).1
    let ledger := ((journal r).after calls).2
    ledger.passed.Perm (ledger.refused ++ (ledger.rejected ++ (ledger.returned ++
      (ledger.dropped ++ queue.pending)))) ∧
    ((∀ c ∈ calls, c.Roomy config.capacity) → ledger.refused = []) ∧
    (queue.pending.map fun p => p.key.laneSequence).Nodup ∧
    (∀ p ∈ queue.pending, aheadOf p.key.laneSequence queue.next = true) ∧
    ledger.recent.IsChain Follows := by
  have hacc := Machine.always_invariant (journal r) (accounted_new hnew henabled)
    (fun s c hl ha => Accounted.enter ha hl) hlegal
  obtain ⟨_, hrec⟩ := hacc.recent
  exact ⟨hacc.perm, refused_nil hnew henabled hlegal, hacc.ok.distinct, hacc.ok.ahead, hrec.follows⟩

/-- The queue of lane 0 in session 1, with two entries. -/
def sampleConfig : Config :=
  { enabled := true, capacity := 2, maxDelay := 10, lane := ⟨0, 1, 0⟩, nextSequence := 0 }

def samplePacket (sequence : UInt32) : Packet := ⟨⟨0, 1⟩, ⟨0, 1, 0, sequence⟩, 1⟩

/-- The last sequence that may wait is half the sequence space after the one before `next`. -/
def sampleCalls : List Call :=
  [.flush 3, .accept 1 (samplePacket 2147483648) 3, .accept 0 (samplePacket 0) 3]

theorem run_conserves_sample : ∃ r, new sampleConfig = .ok r ∧ sampleConfig.enabled = true ∧
    (journal r).Always (fun s c => c.Legal s.1) sampleCalls ∧
    ((journal r).after sampleCalls).2.recent.IsChain Follows := by
  have hnew : new sampleConfig = .ok ⟨sampleConfig, 0, [none, none], 0, 0⟩ := rfl
  have hleg : (journal ⟨sampleConfig, 0, [none, none], 0, 0⟩).Always
      (fun s c => c.Legal s.1) sampleCalls := ⟨trivial, rfl, rfl, trivial⟩
  exact ⟨_, hnew, rfl, hleg, (run_conserves hnew rfl hleg).2.2.2.2⟩

/-- A packet written is not always ahead of the one written before it. -/
theorem recent_not_ahead : ∃ r, new sampleConfig = .ok r ∧
    (journal r).Always (fun s c => c.Legal s.1) sampleCalls ∧
    ((journal r).after sampleCalls).2.recent = [samplePacket 0, samplePacket 2147483648] ∧
    aheadOf (samplePacket 2147483648).key.laneSequence (samplePacket 0).key.laneSequence =
      false := by
  refine ⟨_, rfl, ⟨trivial, rfl, rfl, trivial⟩, ?_, ?_⟩
  · decide
  · decide

end WgFrag.Data.Reorder
