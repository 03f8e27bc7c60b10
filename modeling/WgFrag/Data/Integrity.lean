import WgFrag.Data.Custody
import WgFrag.Lib.Run

/-! A completed packet is made of exactly the records accepted for its key since its slot was
started. -/
namespace WgFrag.Data.Reassembly
open WgFrag.Lib Reassembler List

variable {r : Reassembler} {i : ℕ}
variable {buf : Bytes} {record : Record} {s : Slot} {start : ℕ}

/-! ### What one call puts into a slot -/

/-- The slots hold the same packet; their marks may differ. -/
structure Alike (s s' : Slot) : Prop where
  generation : s'.generation = s.generation
  key : s'.key = s.key
  firstSeen : s'.firstSeen = s.firstSeen
  count : s'.count = s.count
  frags : s'.frags = s.frags
  buf : s'.buf = s.buf

theorem Alike.refl (s : Slot) : Alike s s := ⟨rfl, rfl, rfl, rfl, rfl, rfl⟩

/-- The slot that a record is put into: the live slot of its key, or a new one. -/
def Base (r : Reassembler) (s : Slot) (now : Time) (key : Key) (count : UInt8) (base : Slot) :
    Prop :=
  (base = s ∧ s.key = key ∧ r.expired s now = false) ∨ ∃ born, base = s.started now key count born

/-- How a slot in use came to hold what it holds after a call. -/
inductive Fills (r : Reassembler) (s : Slot) : Call → Reply → Slot → Prop
  | keep {c : Call} {reply : Reply} {s' : Slot} : s.state ≠ .free → Alike s s' →
    Fills r s c reply s'
  | put {s' : Slot} (now : Time) (key : Key) (record : Record) (result : Result) (base : Slot) :
    result.status ≠ .duplicate → Base r s now key record.header.fragmentCount base →
    Fits r.config base record → Alike (base.store record) s' →
    Fills r s (.accept now key record) (.accept (.ok result)) s'

private theorem accept_fills {now : Time} {key : Key}
    {out : Except Error Result × Reassembler} (h : Outcome now key record r out)
    (hs : (out.2.slot i).state ≠ .free) :
    Fills r (r.slot i) (.accept now key record) (.accept out.1) (out.2.slot i) := by
  cases h with
  | refused _ _ _ hsl =>
    rcases hsl i with heq | ⟨hd, -⟩
    · rw [heq] at hs ⊢
      exact .keep hs (.refl _)
    · exact absurd hd.after hs
  | @stored r1 out k _ _ _ hlo hst hok =>
    obtain ⟨_, hr⟩ := hok
    have hc : r1.config = r.config := (Steps.config hlo.steps).1
    by_cases hik : i = k
    · subst hik
      have hb : (r1.slot i).state = .assembling →
          Base r (r.slot i) now key record.header.fragmentCount (r1.slot i) := by
        intro has
        cases hlo with
        | live _ _ hkey hl => exact .inl ⟨rfl, hkey, hl has⟩
        | fresh _ _ born _ _ hso => exact .inr ⟨born, hso⟩
      cases hst with
      | refused | dropped => cases hr
      | duplicate hfg =>
        cases hlo with
        | live _ ha => exact .keep ha.1 (.refl _)
        | fresh _ _ _ _ _ hso =>
          rw [hso, frags_started] at hfg
          cases hfg
      | accepted hf =>
        rw [slot_setSlot_self hf.lt]
        exact .put now key record _ (r1.slot i) (by simp) (hb hf.assembling)
          (hc ▸ hf) (.refl _)
      | completed _ hf =>
        rw [slot_setSlot_self hf.lt]
        exact .put now key record _ (r1.slot i) (by simp) (hb hf.assembling)
          (hc ▸ hf) ⟨rfl, rfl, rfl, rfl, rfl, rfl⟩
    · have heq : out.2.slot i = r.slot i := by
        rw [hst.others hik] at hs ⊢
        cases hlo with
        | live => rfl
        | fresh _ _ _ _ _ _ _ _ ho =>
          rcases ho i hik with heq | ⟨-, -, hd⟩
          · exact heq
          · exact absurd hd.after hs
      rw [heq] at hs ⊢
      exact .keep hs (.refl _)

theorem call_fills (hwf : r.Wf) (c : Call) (hs : ((r.call c).2.slot i).state ≠ .free) :
    Fills r (r.slot i) c (r.call c).1 ((r.call c).2.slot i) := by
  cases c with
  | accept now key record => exact accept_fills (accept_outcome hwf now key record) hs
  | expire now =>
    have h := (expire_spec hwf now).2 i
    have hs : ((r.expire now).2.slot i).state ≠ .free := hs
    show Fills r _ _ _ ((r.expire now).2.slot i)
    rcases h with heq | ⟨-, -, next, hnx⟩
    · rw [heq] at hs ⊢
      exact .keep hs (.refl _)
    · rw [hnx] at hs
      exact absurd rfl hs
  | purgePeer peer =>
    have h := (purgePeer_spec hwf peer).2 i
    have hs : ((r.purgePeer peer).2.slot i).state ≠ .free := hs
    show Fills r _ _ _ ((r.purgePeer peer).2.slot i)
    generalize (r.purgePeer peer).2.slot i = s' at h hs ⊢
    cases h with
    | same => exact .keep hs (.refl _)
    | detached => exact .keep hs ⟨rfl, rfl, rfl, rfl, rfl, rfl⟩
    | cleared => exact absurd rfl hs
  | release handle =>
    have hs : ((r.release handle).2.slot i).state ≠ .free := hs
    show Fills r _ _ _ ((r.release handle).2.slot i)
    rcases release_cases hwf handle with ⟨h, -⟩ | ⟨h, ⟨hc, -⟩, hcl⟩
    · rw [h] at hs ⊢
      exact .keep hs (.refl _)
    rw [h, hcl.slot (lt_of_state (by simp [hc]))] at hs ⊢
    split at hs
    · exact absurd rfl hs
    · next hne =>
      rw [if_neg hne]
      exact .keep hs (.refl _)

/-! ### The bytes of the fragments -/

private theorem splice_outside {data : Bytes} {offset len : ℕ}
    (hb : start + data.length ≤ buf.length)
    (ha : offset + len ≤ start ∨ start + data.length ≤ offset) :
    ((splice buf start data).drop offset).take len = (buf.drop offset).take len := by
  unfold splice
  apply ext_getElem?
  intro k
  rw [getElem?_take, getElem?_take]
  split
  · next hk =>
    rw [getElem?_drop, getElem?_drop]
    rcases ha with _ | _
    · rw [append_assoc, getElem?_append_left (by simp; omega), getElem?_take,
        if_pos (by omega)]
    rw [getElem?_append_right (by simp; omega), getElem?_drop]
    congr 1
    simp
    omega
  · rfl

private theorem splice_inside {data : Bytes} (hb : start + data.length ≤ buf.length) :
    ((splice buf start data).drop start).take data.length = data := by
  unfold splice
  rw [append_assoc, drop_append_of_le_length (by simp; omega)]
  have he : (buf.take start).drop start = [] := by
    rw [drop_eq_nil_iff]
    simp
  rw [he, nil_append, take_append_of_le_length (Nat.le_refl _), take_length]

private theorem apart_of_overlaps {frags : List (Option Extent)} {x y : Extent} {k : ℕ}
    (h : overlaps frags x = false) (hy : frags[k]?.join = some y) :
    x.offset + x.length ≤ y.offset ∨ y.offset + y.length ≤ x.offset := by
  have hmem : some y ∈ frags := by
    cases hk : frags[k]? with
    | none => simp [hk] at hy
    | some c =>
      rw [hk] at hy
      have hc : c = some y := hy
      exact mem_of_getElem? (hc ▸ hk)
  unfold overlaps at h
  rw [any_eq_false] at h
  have hno : ¬ (x.offset < y.stop ∧ y.offset < x.stop) := by
    rintro ⟨hx, hy⟩
    exact h (some y) hmem (by simp [hx, hy])
  unfold Extent.stop at hno
  omega

theorem store_frag (hok : s.frags.length = s.count.toNat)
    {c : Config} (hf : Fits c s record) (k : ℕ) : (s.store record).frags[k]?.join =
      if record.header.fragmentIndex.toNat = k then some (extent record)
      else s.frags[k]?.join := by
  have hi : record.header.fragmentIndex.toNat < s.frags.length := by
    rw [hok, hf.count]
    exact UInt8.lt_iff_toNat_lt.mp hf.index
  unfold Slot.store
  rw [getElem?_set]
  split
  · next hk =>
    simp
  · rfl

/-- Storing a record gives it its bytes and leaves those of the other fragments. -/
theorem store_bytes {c : Config} (hbu : s.buf.length = c.maxPacketSize) (hf : Fits c s record) :
    (s.store record).bytes (extent record) = record.data ∧
      ∀ (k : ℕ) (y : Extent), s.frags[k]?.join = some y → (s.store record).bytes y = s.bytes y := by
  have hb : record.header.offset.toNat + record.data.length ≤ s.buf.length := by
    rw [hbu]
    exact hf.bound
  constructor
  · exact splice_inside hb
  intro k y hy
  apply splice_outside hb
  have ha : record.header.offset.toNat + record.data.length ≤ y.offset ∨
      y.offset + y.length ≤ record.header.offset.toNat := apart_of_overlaps hf.apart hy
  omega

/-! ### The history of a slot -/

/-- A reassembler under calls, listed newest first. -/
def machine (r : Reassembler) : Machine Reassembler Call := ⟨r, fun r c => (r.call c).2⟩

theorem machine_wf (hwf : r.Wf) (calls : List Call) : ((machine r).after calls).Wf :=
  Machine.invariant _ hwf (fun _ c h => Steps.wf (call_steps h c) h) calls

theorem machine_config (hwf : r.Wf) (calls : List Call) :
    ((machine r).after calls).config = r.config := by
  induction calls with
  | nil => rfl
  | cons c calls ih => exact (Steps.config (call_steps (machine_wf hwf calls) c)).1.trans ih

def Call.time : Call → Option Time
  | .accept now _ _ => some now
  | .expire now => some now
  | .purgePeer _ => none
  | .release _ => none

/-- The times of the calls, newest first, do not decrease from call to call. -/
def Ordered (calls : List Call) : Prop :=
  calls.Pairwise fun later earlier => ∀ t ∈ earlier.time, ∀ t' ∈ later.time, t ≤ t'

/-- The slot `i` is in use, for the same packet as in `s`. -/
def SameSlot (i : ℕ) (s : Slot) (r : Reassembler) : Prop :=
  (r.slot i).generation = s.generation ∧ (r.slot i).key = s.key ∧ (r.slot i).state ≠ .free

/-- The call accepted the record for the key, less than `lifetime` after `first`. -/
def Took (r : Reassembler) (key : Key) (record : Record) (first : Time) (lifetime : Duration)
    (older : List Call) (c : Call) : Prop :=
  ∃ now result, c = .accept now key record ∧ first ≤ now ∧ now < first + lifetime ∧
    (((machine r).after older).call c).1 = .accept (.ok result) ∧ result.status ≠ .duplicate

/-- The call accepted the record for the key at `first`, into a slot started by this call. -/
def Began (r : Reassembler) (i : ℕ) (generation : UInt64) (key : Key) (record : Record)
    (first : Time) (older : List Call) (c : Call) : Prop :=
  c = .accept first key record ∧
    (∃ result, (((machine r).after older).call c).1 = .accept (.ok result) ∧
      result.status ≠ .duplicate) ∧
    generation = (((machine r).after older).slot i).generation + 1

/-- Every fragment of the slot `i` is a record in `recs` that was accepted since the slot was
started, and one of them started it. -/
structure Backed (r : Reassembler) (calls : List Call) (i : ℕ) (s : Slot) (recs : ℕ → Record) :
    Prop where
  piece : ∀ k x, s.frags[k]?.join = some x → (recs k).header.fragmentIndex.toNat = k ∧
    (recs k).header.fragmentCount = s.count ∧ extent (recs k) = x ∧ s.bytes x = (recs k).data ∧
    (machine r).Since (SameSlot i s) (Took r s.key (recs k) s.firstSeen r.config.lifetime) calls
  start : ∃ k x, s.frags[k]?.join = some x ∧
    (machine r).Since (SameSlot i s) (Began r i s.generation s.key (recs k) s.firstSeen) calls

theorem SameSlot.alike {s' : Slot} (h : Alike s s') : SameSlot i s' = SameSlot i s := by
  unfold SameSlot
  rw [h.generation, h.key]

section Step
variable {calls : List Call} {c : Call} {s : Slot} {recs : ℕ → Record}

theorem Backed.alike {s' : Slot} (h : Backed r calls i s recs) (ha : Alike s s') :
    Backed r calls i s' recs := by
  have hb : ∀ x, s'.bytes x = s.bytes x := by
    intro x
    unfold Slot.bytes
    rw [ha.buf]
  constructor
  · intro k x hx
    rw [ha.frags] at hx
    rw [ha.count, hb, SameSlot.alike ha, ha.key, ha.firstSeen]
    exact h.piece k x hx
  · rw [ha.frags, SameSlot.alike ha, ha.key, ha.firstSeen, ha.generation]
    exact h.start

/-- The history of a slot that still holds the same packet goes on. -/
theorem Backed.keep (h : Backed r calls i s recs)
    (hn : SameSlot i s ((machine r).after (c :: calls))) : Backed r (c :: calls) i s recs := by
  constructor
  · intro k x hx
    obtain ⟨hk, hc, he, hd, hs⟩ := h.piece k x hx
    exact ⟨hk, hc, he, hd, hn, .inr hs⟩
  · obtain ⟨k, x, hx, hs⟩ := h.start
    exact ⟨k, x, hx, hn, .inr hs⟩

variable {now : Time} {record : Record} {result : Result}
  (hreply : (((machine r).after calls).call (.accept now s.key record)).1 = .accept (.ok result))
  (hstatus : result.status ≠ .duplicate)
include hreply hstatus

theorem Backed.put (h : Backed r calls i s recs) (hok : s.Ok r.config)
    (hf : Fits r.config s record) (hl : now < s.firstSeen + r.config.lifetime)
    (hla : s.firstSeen ≤ now)
    (hno : SameSlot i s ((machine r).after (.accept now s.key record :: calls))) :
    Backed r (.accept now s.key record :: calls) i (s.store record)
      (Function.update recs record.header.fragmentIndex.toNat record) := by
  have hlen : s.frags.length = s.count.toNat := hok.frags (by simp [hf.assembling])
  obtain ⟨hn, hold⟩ := store_bytes hok.buf hf
  constructor
  · intro k x hx
    rw [store_frag hlen hf] at hx
    by_cases hk : record.header.fragmentIndex.toNat = k
    · subst hk
      rw [if_pos rfl] at hx
      obtain rfl := Option.some.inj hx
      rw [Function.update_self]
      exact ⟨rfl, hf.count.symm, rfl, hn, hno, .inl ⟨now, result, rfl, hla, hl, hreply,
        hstatus⟩⟩
    · rw [if_neg hk] at hx
      rw [Function.update_of_ne (Ne.symm hk)]
      obtain ⟨hi, hc, he, hd, hs⟩ := h.piece k x hx
      exact ⟨hi, hc, he, (hold k x hx).trans hd, hno, .inr hs⟩
  · obtain ⟨k, x, hx, hs⟩ := h.start
    have hk : record.header.fragmentIndex.toNat ≠ k := by
      rintro rfl
      rw [hf.absent] at hx
      cases hx
    refine ⟨k, x, ?_, ?_⟩
    · rw [store_frag hlen hf, if_neg hk]
      exact hx
    · rw [Function.update_of_ne (Ne.symm hk)]
      exact ⟨hno, .inr hs⟩

end Step

private theorem backed_start {calls : List Call} {now : Time} {key : Key}
    {result : Result} {born : UInt64} (hlife : 0 < r.config.lifetime)
    (hreply : (((machine r).after calls).call (.accept now key record)).1 = .accept (.ok result))
    (hstatus : result.status ≠ .duplicate) (hb : s.buf.length = r.config.maxPacketSize)
    (hs : ((machine r).after calls).slot i = s)
    (hf : Fits r.config (s.started now key record.header.fragmentCount born) record)
    (hn : SameSlot i (s.started now key record.header.fragmentCount born)
      ((machine r).after (.accept now key record :: calls))) :
    Backed r (.accept now key record :: calls) i
      ((s.started now key record.header.fragmentCount born).store record) fun _ => record := by
  have hlen : (s.started now key record.header.fragmentCount born).frags.length =
      (s.started now key record.header.fragmentCount born).count.toNat := by
    simp [Slot.started]
  have hb : (s.started now key record.header.fragmentCount born).buf.length =
      r.config.maxPacketSize := hb
  have hby := (store_bytes hb hf).1
  constructor
  · intro k x hx
    rw [store_frag hlen hf] at hx
    by_cases hk : record.header.fragmentIndex.toNat = k
    · rw [if_pos hk] at hx
      obtain rfl := Option.some.inj hx
      exact ⟨hk, rfl, rfl, hby, hn, .inl ⟨now, result, rfl, Int.le_refl _,
        Int.lt_add_of_pos_right _ hlife, hreply, hstatus⟩⟩
    · rw [if_neg hk, frags_started] at hx
      cases hx
  · refine ⟨record.header.fragmentIndex.toNat, extent record, ?_, hn, .inl ⟨rfl, ⟨result, hreply,
      hstatus⟩, ?_⟩⟩
    · rw [store_frag hlen hf, if_pos rfl]
    · rw [hs]
      rfl

theorem backed_run (hwf : r.Wf) (hfr : ∀ i, (r.slot i).state = .free) {calls : List Call}
    (ho : Ordered calls) (hs : (((machine r).after calls).slot i).state ≠ .free) :
    ∃ recs, Backed r calls i (((machine r).after calls).slot i) recs := by
  induction calls with
  | nil => exact absurd (hfr i) hs
  | cons c calls ih =>
    have hwf' := machine_wf hwf calls
    have hc := machine_config hwf calls
    have ho' := pairwise_cons.mp ho
    have hi : i < ((machine r).after calls).slots.length := by
      have hlt := lt_of_state hs
      rw [(machine_wf hwf (c :: calls)).length, machine_config hwf] at hlt
      rw [hwf'.length, hc]
      exact hlt
    have hfi := call_fills hwf' c hs
    have hsl : ((machine r).after (c :: calls)).slot i =
        (((machine r).after calls).call c).2.slot i := rfl
    rw [hsl] at hs ⊢
    generalize (((machine r).after calls).call c).2.slot i = s' at hs hfi hsl ⊢
    generalize hreply : (((machine r).after calls).call c).1 = reply at hfi
    have heq : SameSlot i s' ((machine r).after (c :: calls)) := by
      unfold SameSlot
      rw [hsl]
      exact ⟨rfl, rfl, hs⟩
    cases hfi with
    | keep hu ha =>
      obtain ⟨recs, hb⟩ := ih ho'.2 hu
      rw [SameSlot.alike ha] at heq
      exact ⟨recs, (hb.keep heq).alike ha⟩
    | put now _ _ _ _ hstatus hba hf ha =>
      rw [hc] at hf
      rw [SameSlot.alike ha] at heq
      rcases hba with ⟨rfl, rfl, hl⟩ | ⟨_, rfl⟩
      · have hu : (((machine r).after calls).slot i).state ≠ .free := by simp [hf.assembling]
        obtain ⟨_, hb⟩ := ih ho'.2 hu
        have hl : now < (((machine r).after calls).slot i).firstSeen + r.config.lifetime := by
          rw [← hc]
          simpa [expired] using hl
        have hla : (((machine r).after calls).slot i).firstSeen ≤ now := by
          obtain ⟨_, _, -, hsi⟩ := hb.start
          obtain ⟨c', hc', _, hbe, -⟩ := hsi.mem
          exact ho'.1 c' hc' _ (by rw [hbe]; rfl) now rfl
        have hok := hwf'.each i hi
        rw [hc] at hok
        exact ⟨_, (hb.put hreply hstatus hok hf hl hla heq).alike ha⟩
      · have hbu := (hwf'.each i hi).buf
        rw [hc] at hbu
        exact ⟨_, (backed_start hwf.config.2.2.2.2.2.2.1 hreply hstatus hbu rfl hf
          heq).alike ha⟩

/-! ### The packet -/

/-- The order in which `contiguousLoop` chains the fragments. -/
theorem contiguousLoop_order {frags : List (Option Extent)} {n : ℕ} {used : List ℕ}
    {stop : ℕ} (h : contiguousLoop frags n used start = some stop) :
    ∃ order : List ℕ, order.length = n ∧ order.Nodup ∧ (∀ k ∈ order, k ∉ used) ∧
      ∀ recs : ℕ → Record, (∀ k x, frags[k]?.join = some x → extent (recs k) = x) →
        (∀ k ∈ order, (frags[k]?.join).isSome) ∧ Tiled (order.map recs) start stop := by
  induction n generalizing used start with
  | zero =>
    obtain rfl := Option.some.inj h
    exact ⟨[], rfl, nodup_nil, by simp, fun recs _ => ⟨by simp, rfl⟩⟩
  | succ n ih =>
    unfold contiguousLoop at h
    split at h
    · cases h
    rename_i k hf
    have hk := find?_some hf
    simp only [decide_eq_true_eq, Option.map_eq_some_iff] at hk
    obtain ⟨hu, x, hx, ho⟩ := hk
    obtain ⟨order, hlen, hnd, hfr, hch⟩ := ih h
    have hn : k ∉ order := fun hmem => hfr k hmem (by simp)
    refine ⟨k :: order, by simp [hlen], nodup_cons.mpr ⟨hn, hnd⟩, ?_, ?_⟩
    · intro j hj
      rcases mem_cons.mp hj with rfl | hj
      · exact hu
      · exact fun hmem => hfr j hj (by simp [hmem])
    · intro recs hrecs
      obtain ⟨hs, ht⟩ := hch recs hrecs
      have he := hrecs k x hx
      refine ⟨?_, ?_, ?_⟩
      · intro j hj
        rcases mem_cons.mp hj with rfl | hj
        · simp [hx]
        · exact hs j hj
      · rw [← ho, ← he]
        rfl
      · rw [hx] at ht
        rw [← he] at ht
        exact ht

/-- The bytes of a buffer that holds the records where they tile it. -/
theorem tiled_bytes {records : List Record} {stop : ℕ}
    (ht : Tiled records start stop) (hb : ∀ record ∈ records,
      (buf.drop record.header.offset.toNat).take record.data.length = record.data) :
    start ≤ stop ∧ (buf.drop start).take (stop - start) = records.flatMap Record.data := by
  induction records generalizing start with
  | nil =>
    obtain rfl : start = stop := ht
    simp
  | cons record _ ih =>
    obtain ⟨ho, ht⟩ := ht
    obtain ⟨_, hr⟩ := ih ht fun rec hre => hb rec (by simp [hre])
    have hh := hb record (by simp)
    rw [ho] at hh
    refine ⟨by omega, ?_⟩
    have hs : stop - start = record.data.length + (stop - (start + record.data.length)) := by
      omega
    rw [hs, take_add, hh, drop_drop, hr, flatMap_cons]

def InSlot (p : Packet) (r : Reassembler) : Prop :=
  (r.slot p.handle.index).generation = p.handle.generation ∧
    (r.slot p.handle.index).key = p.key ∧ (r.slot p.handle.index).state ≠ .free

theorem lt_of_frag {k : ℕ} {x : Extent} (h : s.frags[k]?.join = some x) :
    k < s.frags.length := by
  by_contra hk
  rw [getElem?_eq_none (by omega)] at h
  cases h

private theorem perm_range {order : List ℕ} {n : ℕ} (hlen : order.length = n) (hnd : order.Nodup)
    (hlt : ∀ k ∈ order, k < n) : order.Perm (List.range n) := by
  apply (List.Nodup.subperm hnd fun k hk => mem_range.mpr (hlt k hk)).perm_of_length_le
  rw [length_range, hlen]

section Pieces
variable {calls : List Call} {recs : ℕ → Record}

/-- The records of a complete slot, in the order in which they tile its packet. -/
theorem Backed.tiles {len : ℕ} (h : Backed r calls i s recs)
    (hfr : s.frags.length = s.count.toNat) (hlen : contiguousLength s = some len) :
    ∃ order : List ℕ, order.Perm (List.range s.count.toNat) ∧
      (∀ k ∈ order, ∃ x, s.frags[k]?.join = some x) ∧ Tiled (order.map recs) 0 len := by
  obtain ⟨order, hn, hnd, -, hch⟩ := contiguousLoop_order hlen
  obtain ⟨hso, htil⟩ := hch recs fun k x hx => (h.piece k x hx).2.2.1
  have hpie : ∀ k ∈ order, ∃ x, s.frags[k]?.join = some x :=
    fun k hk => Option.isSome_iff_exists.mp (hso k hk)
  refine ⟨order, perm_range hn hnd ?_, hpie, htil⟩
  intro k hk
  obtain ⟨x, hx⟩ := hpie k hk
  rw [← hfr]
  exact lt_of_frag hx

variable {order : List ℕ} (h : Backed r calls i s recs)
  (hpie : ∀ k ∈ order, ∃ x, s.frags[k]?.join = some x)
include h hpie

theorem Backed.indices :
    (order.map recs).map (fun piece => piece.header.fragmentIndex.toNat) = order := by
  rw [map_map]
  conv_rhs => rw [← map_id order]
  apply map_congr_left
  intro k hk
  obtain ⟨x, hx⟩ := hpie k hk
  exact (h.piece k x hx).1

theorem Backed.bytes {len : ℕ} (htil : Tiled (order.map recs) 0 len) :
    s.buf.take len = (order.map recs).flatMap Record.data := by
  have hbyt : ∀ piece ∈ order.map recs,
      (s.buf.drop piece.header.offset.toNat).take piece.data.length = piece.data := by
    intro piece hp
    obtain ⟨k, hk, rfl⟩ := mem_map.mp hp
    obtain ⟨x, hx⟩ := hpie k hk
    obtain ⟨-, -, hext, hb, -⟩ := h.piece k x hx
    rw [← hext] at hb
    exact hb
  obtain ⟨-, hflat⟩ := tiled_bytes htil hbyt
  rw [← hflat]
  simp

end Pieces

/-- The data of a completed packet is the concatenation, in the order of their offsets, of one
record for each fragment index. All of them were accepted for the key since a call started the
slot with the first of them, less than the lifetime after it. -/
theorem completed_integrity {config : Config} {hash : Key → UInt64} (hnew : new config hash = .ok r)
    {calls : List Call} {now : Time} {key : Key} {record : Record} {p : Packet}
    {evicted : Option Key} (hord : Ordered (.accept now key record :: calls))
    (hdone : (((machine r).after calls).call (.accept now key record)).1 =
      .accept (.ok ⟨.completed p, evicted⟩)) :
    ∃ (pieces : List Record) (first : Time),
      (pieces.map fun piece => piece.header.fragmentIndex.toNat).Perm
        (List.range record.header.fragmentCount.toNat) ∧
      (∀ piece ∈ pieces, piece.header.fragmentCount = record.header.fragmentCount) ∧
      Tiled pieces 0 p.length ∧ ((machine r).after (.accept now key record :: calls)).data p =
        pieces.flatMap Record.data ∧
      (∀ piece ∈ pieces, (machine r).Since (InSlot p)
        (Took r key piece first config.lifetime) (.accept now key record :: calls)) ∧
      ∃ piece ∈ pieces, (machine r).Since (InSlot p)
        (Began r p.handle.index p.handle.generation key piece first)
        (.accept now key record :: calls) := by
  obtain ⟨hwf, hfree⟩ := new_wf hnew
  have hcfg := new_config hnew
  have hwf₀ := machine_wf hwf calls
  have hwf' := machine_wf hwf (.accept now key record :: calls)
  have hdone : (accept now key record ((machine r).after calls)).1 =
      .ok ⟨.completed p, evicted⟩ := Reply.accept.inj hdone
  have hold : Holding ((machine r).after (.accept now key record :: calls)) p _ :=
    accept_holding hwf₀ hdone
  obtain ⟨hkey, hcnt⟩ := accept_completed hwf₀ hdone
  have hcnt : (((machine r).after (.accept now key record :: calls)).slot
      p.handle.index).count = record.header.fragmentCount := hcnt
  have hused : (((machine r).after (.accept now key record :: calls)).slot
      p.handle.index).state ≠ .free := by simp [hold.state]
  obtain ⟨recs, hback⟩ := backed_run hwf hfree hord hused
  have hdata : ((machine r).after (.accept now key record :: calls)).data p =
      (((machine r).after (.accept now key record :: calls)).slot
        p.handle.index).buf.take p.length := rfl
  have hok := hwf'.each _ (lt_of_state hused)
  have hgen := hold.generation
  have hslo := hold.key
  have hpkt := hok.packet hold.state
  have hfra := hok.frags hused
  rw [hold.length] at hpkt
  -- From here on only the slot itself matters.
  generalize ((machine r).after (.accept now key record :: calls)).slot p.handle.index = s
    at hback hcnt hdata hgen hslo hpkt hfra
  have hsame : SameSlot p.handle.index s = InSlot p := by
    unfold SameSlot InSlot
    rw [hgen, hslo]
  obtain ⟨order, hperm, hpie, htil⟩ := hback.tiles hfra hpkt
  refine ⟨order.map recs, s.firstSeen, ?_, ?_, htil, ?_, ?_, ?_⟩
  · rw [hback.indices hpie, ← hcnt]
    exact hperm
  · intro piece hp
    obtain ⟨k, hk, rfl⟩ := mem_map.mp hp
    obtain ⟨x, hx⟩ := hpie k hk
    rw [(hback.piece k x hx).2.1, hcnt]
  · rw [hdata]
    exact hback.bytes hpie htil
  · intro piece hp
    obtain ⟨k, hk, rfl⟩ := mem_map.mp hp
    obtain ⟨x, hx⟩ := hpie k hk
    have hsin := (hback.piece k x hx).2.2.2.2
    rw [hsame, hslo, hkey, hcfg] at hsin
    exact hsin
  · obtain ⟨k, x, hx, hsin⟩ := hback.start
    rw [hsame, hslo, hkey, hgen] at hsin
    refine ⟨recs k, mem_map.mpr ⟨k, ?_, rfl⟩, hsin⟩
    rw [hperm.mem_iff, mem_range, ← hfra]
    exact lt_of_frag hx

/-- The second of two fragments under the sequence `n`. -/
def secondHalf (n : UInt32) : Record := ⟨⟨1, 2, 0, 1, n, 1⟩, [8]⟩

theorem completed_integrity_sample : ∃ r, new sampleConfig hashKey = .ok r ∧
    Ordered [.accept 3 ⟨0, 1, 0, 5⟩ (secondHalf 5), .accept 0 ⟨0, 1, 0, 5⟩ (firstHalf 5)] ∧
    (((machine r).after [.accept 0 ⟨0, 1, 0, 5⟩ (firstHalf 5)]).call
      (.accept 3 ⟨0, 1, 0, 5⟩ (secondHalf 5))).1 =
      .accept (.ok ⟨.completed ⟨⟨0, 1⟩, ⟨0, 1, 0, 5⟩, 2⟩, none⟩) ∧
    ∃ pieces : List Record, Tiled pieces 0 2 ∧ ((machine r).after
      [.accept 3 ⟨0, 1, 0, 5⟩ (secondHalf 5), .accept 0 ⟨0, 1, 0, 5⟩ (firstHalf 5)]).data
        ⟨⟨0, 1⟩, ⟨0, 1, 0, 5⟩, 2⟩ = pieces.flatMap Record.data := by
  have hord : Ordered [.accept 3 ⟨0, 1, 0, 5⟩ (secondHalf 5),
      .accept 0 ⟨0, 1, 0, 5⟩ (firstHalf 5)] := by
    simp [Ordered, Call.time]
  refine ⟨_, rfl, hord, rfl, ?_⟩
  obtain ⟨pieces, _, -, -, htil, hdata, -⟩ := completed_integrity
    (show new sampleConfig hashKey = .ok _ from rfl) hord rfl
  exact ⟨pieces, htil, hdata⟩

end WgFrag.Data.Reassembly
