import WgFrag.Data.Arrival

/-! A receiver that may use all of its slots always finds one for a new key: the packets that wait
for a gap are fewer than the slots, and an assembling slot can be taken over. -/
namespace WgFrag.Data.Reassembly
open WgFrag.Lib Reassembler List

variable {r r' : Reassembler} {key : Key} {now : Time} {record : Record}
variable {e : Error} {i : ℕ}

/-- Some slot holds no completed packet. -/
def Vacant (r : Reassembler) : Prop := ∃ i < r.slots.length, (r.slot i).state ≠ .completed

private theorem vacant_of_count
    (h : (r.slots.countP fun s => s.state = .completed) < r.slots.length) :
    Vacant r := by
  by_contra hfu
  have ha : ∀ s ∈ r.slots, decide (s.state = .completed) = true := by
    intro s hs
    obtain ⟨i, hi, rfl⟩ := getElem_of_mem hs
    by_contra hst
    refine hfu ⟨i, hi, ?_⟩
    rw [slot_eq_getElem hi]
    simpa using hst
  rw [countP_eq_length.mpr ha] at h
  exact Nat.lt_irrefl _ h

/-- A peer that has used up a quota of all the slots has every slot. -/
theorem all_of_quota (hwf : r.Wf) (hq : r.config.perPeerSlots = r.config.slots) {peer : ℕ}
    (hu : r.config.perPeerSlots ≤ (r.peerCount peer).toNat) (hi : i < r.slots.length) :
    (r.slot i).Active ∧ (r.slot i).key.peerID = peer := by
  have hl : r.slots.length ≤ r.load peer := by
    rw [hwf.length, ← hq]
    exact Nat.le_trans hu (hwf.load peer)
  have hc : r.slots.countP (fun s => s.Active ∧ s.key.peerID = peer) = r.slots.length :=
    Nat.le_antisymm countP_le_length hl
  have hsl := countP_eq_length.mp hc r.slots[i] (getElem_mem hi)
  rw [slot_eq_getElem hi]
  simpa using hsl

theorem Vacant.hasSlot (h : Vacant r) (hwf : r.Wf)
    (hq : r.config.perPeerSlots = r.config.slots) (key : Key) : HasSlot r key := by
  obtain ⟨i, hi, hs⟩ := h
  unfold HasSlot
  split
  · next hu =>
    obtain ⟨⟨hfr, -⟩, hp⟩ := all_of_quota hwf hq hu hi
    exact ⟨i, assembling_of hfr hs, hp⟩
  · exact ⟨i, hi, hs⟩

/-- Whatever the record, the reassembler does not report a missing slot. -/
theorem Vacant.accept_error (h : Vacant r) (hwf : r.Wf)
    (hq : r.config.perPeerSlots = r.config.slots)
    (he : (accept now key record r).1 = .error e) : e.wantsSlot = false := by
  have ho := accept_outcome hwf now key record
  generalize accept now key record r = out at ho he
  cases ho with
  | @refused r' _ _ hst hsl hwant =>
    obtain rfl := Except.error.inj he
    have hc := (Steps.config hst).1
    have hwf' := Steps.wf hst hwf
    have hv : Vacant r' := by
      obtain ⟨i, hi, hs⟩ := h
      refine ⟨i, ?_, ?_⟩
      · rw [hwf'.length, hc, ← hwf.length]
        exact hi
      rcases hsl i with heq | ⟨hd, -⟩
      · rw [heq]
        exact hs
      · simp [hd.after]
    by_contra hw
    exact hwant (Bool.of_not_eq_false hw) (hv.hasSlot hwf' (by rw [hc]; exact hq) key)
  | stored _ _ _ _ _ _ hok =>
    obtain ⟨_, hok⟩ := hok
    cases hok.symm.trans he

end WgFrag.Data.Reassembly

namespace WgFrag.Data
open WgFrag.Lib
open Reassembly (Vacant HasSlot)

variable {r r' : Receiver} {sink : Sink}

theorem Balanced.vacant (hb : Balanced [] r) (hbu : r.reorderBudget < r.config.slots) :
    Vacant r.reassembly := by
  apply Reassembly.vacant_of_count
  have hlen := hb.custody.owned.length_eq
  have hsl : r.reassembly.slots.length = r.config.slots := by
    rw [hb.custody.owned.wf.length, hb.custody.store]
    rfl
  have hh := hb.counted
  have hw := hb.within
  rw [List.nil_append] at hlen
  omega

/-- A receiver that may use all of its slots, and keeps one of them clear of waiting packets. -/
structure Ample (r : Receiver) : Prop where
  balanced : Balanced [] r
  quota : r.config.perPeerSlots = r.config.slots
  spare : r.reorderBudget < r.config.slots

namespace Ample

theorem fixed (h : Ample r) (hb : Balanced [] r') (hf : Fixed r r') : Ample r' :=
  ⟨hb, by rw [hf.1]; exact h.quota, by rw [hf.1, hf.2]; exact h.spare⟩

private theorem store_quota (h : Ample r) :
    r.reassembly.config.perPeerSlots = r.reassembly.config.slots := by
  rw [h.balanced.custody.store]
  exact h.quota

theorem hasSlot (h : Ample r) (key : Key) : HasSlot r.reassembly key :=
  (h.balanced.vacant h.spare).hasSlot h.balanced.custody.owned.wf h.store_quota key

theorem run (h : Ample r) (calls : List ReceiverCall) : Ample (r.run calls) := by
  obtain ⟨hb, hf⟩ := Receiver.run_balanced h.balanced calls
  exact h.fixed hb hf

end Ample

/-- The receiver reports that it has no slot for a record. -/
def ReceiverError.wantsSlot : ReceiverError → Bool
  | .reassembly e => e.wantsSlot
  | _ => false

theorem Failure.finds {now : Time} {record : Record} {e : ReceiverError} (h : Ample r)
    (hf : Failure sink now record r e) : e.wantsSlot = false := by
  cases hf with
  | session => rfl
  | store he =>
    exact (h.balanced.vacant h.spare).accept_error h.balanced.custody.owned.wf h.store_quota he
  | sink => rfl

private theorem acceptPayload_finds (h : Ample r) (now : Time) (payload : Bytes) (sink : Sink)
    {e : ReceiverError} (he : (acceptPayload now payload sink r).1 = .error e) :
    e.wantsSlot = false := by
  refine (parse_preserves (I := Ample) (E := fun e => e.wantsSlot = false)
    (acceptRecord now sink) .record ?_ (fun _ => rfl) payload h).2 e he
  intro record s hs
  obtain ⟨hb, hf, -, ha⟩ := acceptRecord_spec now record hs.balanced sink
  exact ⟨hs.fixed hb ha.fixed, fun e he => (hf e he).finds hs⟩

private theorem newConfiguredReceiver_ample {c : ReceiverConfig} {payloadOnly : Bool}
    (hn : newConfiguredReceiver c payloadOnly = .ok r) (he : c.reorderEnabled = true)
    (hq : c.perPeerSlots = c.slots) : Ample r := by
  refine ⟨(newConfiguredReceiver_fresh hn he).1, ?_, ?_⟩
  all_goals obtain ⟨-, hb, _, _, -, -, rfl⟩ := newConfiguredReceiver_ok hn
  · exact hq
  · exact (hb he).2

/-- However many packets wait behind gaps, after every run each key finds a slot, and no payload
is refused for want of one. -/
theorem run_finds_slot {c : ReceiverConfig} {payloadOnly : Bool}
    (hnew : newConfiguredReceiver c payloadOnly = .ok r) (henabled : c.reorderEnabled = true)
    (hquota : c.perPeerSlots = c.slots) (calls : List ReceiverCall) (now : Time)
    (payload : Bytes) (sink : Sink) :
    (acceptPayload now payload sink (r.run calls)).1 ≠ .error (.reassembly .noSlot) ∧
      (acceptPayload now payload sink (r.run calls)).1 ≠ .error (.reassembly .peerQuota) ∧
      ∀ key, HasSlot (r.run calls).reassembly key := by
  have hamp := (newConfiguredReceiver_ample hnew henabled hquota).run calls
  refine ⟨fun he => ?_, fun he => ?_, hamp.hasSlot⟩
  · have hfin := acceptPayload_finds hamp now payload sink he
    cases hfin
  · have hfin := acceptPayload_finds hamp now payload sink he
    cases hfin

theorem run_finds_slot_sample : ∃ r, newConfiguredReceiver sampleReceiver true = .ok r ∧
    sampleReceiver.reorderEnabled = true ∧ sampleReceiver.perPeerSlots = sampleReceiver.slots ∧
    (r.run (sampleReceiverCalls.take 1)).waiting.length = 1 ∧
    ∀ key, HasSlot (r.run (sampleReceiverCalls.take 1)).reassembly key := by
  obtain ⟨r, hr⟩ : ∃ r, newConfiguredReceiver sampleReceiver true = .ok r := ⟨_, rfl⟩
  refine ⟨r, hr, rfl, rfl, ?_, (run_finds_slot hr rfl rfl _ 4 [] takeAll).2.2⟩
  obtain rfl := Except.ok.inj hr
  decide +kernel

end WgFrag.Data
