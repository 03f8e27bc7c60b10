import WgFrag.Manager.MutationCache

/-! At most one run of the operation for each cache entry, over all interleavings of the calls. -/
namespace WgFrag.Manager
open WgFrag.Lib List
variable {M E : Type}

/-- The entry whose operation is this call's to run. -/
def Caller.runs : Caller M E → Option ℕ
  | .reserved ref => some ref
  | .running ref => some ref
  | .finishing ref _ => some ref
  | .ran ref _ => some ref
  | _ => none

/-- The entry whose operation this call has yet to finish. -/
def Caller.pending : Caller M E → Option ℕ
  | .reserved ref => some ref
  | .running ref => some ref
  | .finishing ref _ => some ref
  | _ => none

namespace MutationCache
variable {c : MutationCache M E} {ref : ℕ}

/-! ### The steps on the cache -/

/-- Some of the finished entries left the map. -/
structure Narrowed (c : MutationCache M E) (entries : AList fun _ : RequestID => ℕ) : Prop where
  old : ∀ {id ref}, entries.lookup id = some ref → c.entries.lookup id = some ref
  pending : ∀ {id ref}, c.entries.lookup id = some ref → (c.entryAt ref).finished = false →
    entries.lookup id = some ref

theorem pruneLocked_eq (c : MutationCache M E) (now : Time) :
    ∃ entries, c.pruneLocked now = { c with entries := entries } ∧ Narrowed c entries ∧
      entries.entries.length ≤ c.entries.entries.length := by
  unfold pruneLocked
  split
  · exact ⟨c.entries, rfl, ⟨fun h => h, fun h _ => h⟩, Nat.le_refl _⟩
  · refine ⟨_, rfl, ⟨fun h => (lookup_sweep.mp h).1, fun h hp => ?_⟩, sweep_length_le ..⟩
    refine lookup_sweep.mpr ⟨h, ?_⟩
    rw [hp, Bool.false_and]

private theorem oldest_finished {order : Order} {id : RequestID} {stamp : Time}
    (h : c.oldest order = some (id, stamp)) :
    ∃ ref, ⟨id, ref⟩ ∈ order ∧ (c.entryAt ref).finished = true := by
  -- Whatever the loop has found so far was in the list and finished.
  have hfo : ∀ id stamp, c.oldest order = some (id, stamp) →
      ∃ ref, ⟨id, ref⟩ ∈ order ∧ (c.entryAt ref).finished = true := by
    unfold oldest
    refine List.foldlRecOn (motive := fun found => ∀ id stamp, found = some (id, stamp) →
      ∃ ref, ⟨id, ref⟩ ∈ order ∧ (c.entryAt ref).finished = true) order _ ?_ ?_
    · intro id stamp h
      cases h
    intro found hfo e he id stamp h
    split at h
    · exact hfo id stamp h
    rename_i hf
    have hhere : e.1 = id → ∃ ref, ⟨id, ref⟩ ∈ order ∧ (c.entryAt ref).finished = true := by
      rintro rfl
      exact ⟨e.2, he, Bool.not_eq_false _ ▸ hf⟩
    split at h
    · exact hhere (congrArg Prod.fst (Option.some.inj h))
    · split at h
      · exact hhere (congrArg Prod.fst (Option.some.inj h))
      · exact hfo id stamp h
  exact hfo id stamp h

/-- Room is made by nothing, or by dropping a finished entry. -/
theorem reserveLocked_eq {order : Order} {d : MutationCache M E}
    (ho : order.Perm c.entries.entries) (h : c.reserveLocked order = some d) :
    ∃ entries, d = { c with entries := entries } ∧ Narrowed c entries ∧
      (0 < c.capacity → (c.entries.entries.length : ℤ) ≤ c.capacity →
        (entries.entries.length : ℤ) < c.capacity) := by
  unfold reserveLocked at h
  split at h
  · next hrm =>
    cases h
    refine ⟨c.entries, rfl, ⟨fun h => h, fun h _ => h⟩, fun hpos _ => ?_⟩
    omega
  · next hfu =>
    split at h
    · cases h
    rename_i id stamp hold
    cases h
    obtain ⟨ref, hmem, hf⟩ := oldest_finished hold
    have hl : c.entries.lookup id = some ref := AList.mem_lookup_iff.mpr (ho.subset hmem)
    have hlen : (c.entries.erase id).entries.length + 1 = c.entries.entries.length := by
      have hks : (c.entries.erase id).keys.length + 1 = c.entries.keys.length := by
        have hin : id ∈ c.entries.keys :=
          AList.mem_keys.mp (AList.lookup_isSome.mp (by rw [hl]; rfl))
        have hpos := length_pos_of_mem hin
        rw [AList.keys_erase, length_erase_of_mem hin]
        omega
      simpa [AList.keys, List.keys] using hks
    refine ⟨_, rfl, ⟨fun {id' ref'} h => ?_, fun {id' ref'} h hp => ?_⟩, fun hpos hle => by omega⟩
    · by_cases heq : id' = id
      · rw [heq, AList.lookup_erase] at h
        cases h
      · rwa [AList.lookup_erase_ne heq] at h
    · have hne : id' ≠ id := by
        rintro rfl
        rw [hl] at h
        obtain rfl := Option.some.inj h
        rw [hf] at hp
        cases hp
      rwa [AList.lookup_erase_ne hne]

@[simp] theorem entryAt_insert (id : RequestID) (hash : Digest) (now : Time)
    (h : ref < c.heap.length) : (c.insert id hash now).entryAt ref = c.entryAt ref := by
  unfold entryAt insert
  rw [getD_eq_getElem?_getD, getD_eq_getElem?_getD, getElem?_append_left h]

theorem entryAt_insert_self (id : RequestID) (hash : Digest) (now : Time) :
    (c.insert id hash now).entryAt c.heap.length = { hash := hash, stamp := now } := by
  unfold entryAt insert
  rw [getD_eq_getElem?_getD, getElem?_concat_length, Option.getD_some]

theorem entryAt_of_length_le (h : c.heap.length ≤ ref) :
    c.entryAt ref = { hash := 0, stamp := 0 } := by
  unfold entryAt
  rw [getD_eq_getElem?_getD, getElem?_eq_none h, Option.getD_none]

theorem entryAt_finish {outcome : Outcome M E} {now : Time} (h : ref < c.heap.length) :
    (c.finish ref outcome now).entryAt ref = { c.entryAt ref with
      result := outcome.settle.1, err := outcome.settle.2, done := true, finished := true,
      stamp := now } := by
  unfold entryAt finish
  rw [getD_eq_getElem?_getD, getD_eq_getElem?_getD, getElem?_modify_eq,
    getElem?_eq_getElem h]
  rfl

theorem entryAt_finish_ne {outcome : Outcome M E} {now : Time} {other : ℕ} (h : ref ≠ other) :
    (c.finish ref outcome now).entryAt other = c.entryAt other := by
  unfold entryAt finish
  rw [getD_eq_getElem?_getD, getD_eq_getElem?_getD, getElem?_modify_ne _ _ h]

end MutationCache

/-! ### The steps of a call -/

inductive LookedUp (c : MutationCache M E) (id : RequestID) (hash : Digest) (now : Time) :
    Move (MutationCache M E) (Caller M E) → Prop
  | mismatched {entries : AList fun _ : RequestID => ℕ} {ref : ℕ} : c.Narrowed entries →
    entries.entries.length ≤ c.entries.entries.length → entries.lookup id = some ref →
    (c.entryAt ref).hash ≠ hash →
    LookedUp c id hash now { shared := { c with entries := entries }, next := .mismatched }
  | waiting {entries : AList fun _ : RequestID => ℕ} {ref : ℕ} : c.Narrowed entries →
    entries.entries.length ≤ c.entries.entries.length → entries.lookup id = some ref →
    (c.entryAt ref).hash = hash →
    LookedUp c id hash now { shared := { c with entries := entries }, next := .waiting ref }
  | exhausted {entries : AList fun _ : RequestID => ℕ} : c.Narrowed entries →
    entries.entries.length ≤ c.entries.entries.length →
    LookedUp c id hash now { shared := { c with entries := entries }, next := .exhausted }
  | reserved {entries : AList fun _ : RequestID => ℕ} : c.Narrowed entries →
    entries.lookup id = none →
    (0 < c.capacity → (c.entries.entries.length : ℤ) ≤ c.capacity →
      (entries.entries.length : ℤ) < c.capacity) →
    LookedUp c id hash now
      { shared := MutationCache.insert { c with entries := entries } id hash now
        next := .reserved c.heap.length }

private theorem lookupOrReserve_looked {c : MutationCache M E} {id : RequestID} {hash : Digest}
    {now : Time} {order : Order} {m : Move (MutationCache M E) (Caller M E)}
    (h : lookupOrReserve c id hash now order = some m) : LookedUp c id hash now m := by
  obtain ⟨entries, heq, hna, hlen⟩ := c.pruneLocked_eq now
  unfold lookupOrReserve at h
  rw [heq] at h
  dsimp only at h
  split at h
  · next ref hl =>
    split at h
    · next hne =>
      cases h
      exact .mismatched hna hlen hl hne
    · next hsm =>
      cases h
      exact .waiting hna hlen hl (not_not.mp hsm)
  · next hn =>
    split at h
    · next ho =>
      split at h
      · cases h
        exact .exhausted hna hlen
      rename_i d hd
      cases h
      obtain ⟨entries', rfl, hn', hrm⟩ := MutationCache.reserveLocked_eq ho hd
      refine .reserved ⟨fun h => hna.old (hn'.old h), fun h hp =>
        hn'.pending (hna.pending h hp) hp⟩ ?_ fun hpos hle =>
        hrm hpos (by dsimp only; omega)
      cases hl : entries'.lookup id with
      | none => rfl
      | some =>
        rw [hn'.old hl] at hn
        cases hn
    · cases h

inductive Executed (c : MutationCache M E) :
    Caller M E → Move (MutationCache M E) (Caller M E) → Prop
  | looked {id : RequestID} {hash : Digest} {now : Time}
    {m : Move (MutationCache M E) (Caller M E)} :
    LookedUp c id hash now m → Executed c (.calling id hash) m
  | started (ref : ℕ) : Executed c (.reserved ref)
    { shared := { c with starts := ref :: c.starts }, next := .running ref }
  | completed (ref : ℕ) (outcome : Outcome M E) : Executed c (.running ref)
    { shared := c, next := .finishing ref outcome }
  | finished (ref : ℕ) (outcome : Outcome M E) (now : Time) : Executed c (.finishing ref outcome)
    { shared := c.finish ref outcome now, next := .ran ref outcome }
  | woke {ref : ℕ} : (c.entryAt ref).done = true → Executed c (.waiting ref)
    { shared := c, next := .shared ref (c.entryAt ref).result (c.entryAt ref).err }
  | canceled (ref : ℕ) : Executed c (.waiting ref) { shared := c, next := .canceled ref }

theorem execute_executed {i : ℕ} {c : MutationCache M E} {p : Caller M E} {choice : Choice M E}
    {m : Move (MutationCache M E) (Caller M E)} (h : execute i c p choice = some m) :
    Executed c p m := by
  unfold execute at h
  split at h
  · exact .looked (lookupOrReserve_looked h)
  · cases h
    exact .started _
  · cases h
    exact .completed _ _
  · cases h
    exact .finished _ _ _
  · split at h
    · next hd =>
      cases h
      exact .woke hd
    · cases h
  · cases h
    exact .canceled _
  · cases h

/-! ### The outline -/

structure CacheSound (c : MutationCache M E) : Prop where
  refs : ∀ {id ref}, c.entries.lookup id = some ref → ref < c.heap.length
  done : ∀ ref, (c.entryAt ref).done = (c.entryAt ref).finished
  fresh : ∀ {ref}, c.heap.length ≤ ref → c.starts.count ref = 0
  bounded : 0 < c.capacity → (c.entries.entries.length : ℤ) ≤ c.capacity

/-- What a call knows of the entry it works on. -/
def Knows (c : MutationCache M E) : Caller M E → Prop
  | .reserved ref => ref < c.heap.length ∧ (c.entryAt ref).finished = false ∧
    c.starts.count ref = 0
  | .running ref => ref < c.heap.length ∧ (c.entryAt ref).finished = false ∧
    c.starts.count ref = 1
  | .finishing ref _ => ref < c.heap.length ∧ (c.entryAt ref).finished = false ∧
    c.starts.count ref = 1
  | .ran ref outcome => ref < c.heap.length ∧ (c.entryAt ref).finished = true ∧
    c.starts.count ref = 1 ∧
    ((c.entryAt ref).result, (c.entryAt ref).err) = outcome.settle
  | .waiting ref => ref < c.heap.length
  | .shared ref result err => ref < c.heap.length ∧ (c.entryAt ref).finished = true ∧
    ((c.entryAt ref).result, (c.entryAt ref).err) = (result, err)
  | _ => True

/-- An entry and the number of its starts are as they were. -/
structure Agree (c d : MutationCache M E) (ref : ℕ) : Prop where
  lt : ref < d.heap.length
  entry : d.entryAt ref = c.entryAt ref
  starts : d.starts.count ref = c.starts.count ref

variable {c : MutationCache M E} {p q : Caller M E} {m : Move (MutationCache M E) (Caller M E)}
  {ref : ℕ}

theorem Knows.runs_lt (h : Knows c p) (hr : p.runs = some ref) : ref < c.heap.length := by
  cases p <;> cases hr <;> exact h.1

section
variable (h : Executed c p m)
include h

/-- Only the call that runs an entry's operation touches the entry. -/
theorem Executed.agree (hlt : ref < c.heap.length)
    (hr : p.runs ≠ some ref) : Agree c m.shared ref := by
  have hsm : Agree c c ref := ⟨hlt, rfl, rfl⟩
  cases h with
  | looked hl =>
    cases hl with
    | mismatched | waiting | exhausted => exact ⟨hlt, rfl, rfl⟩
    | reserved =>
      refine ⟨?_, MutationCache.entryAt_insert _ _ _ hlt, rfl⟩
      show ref < (c.heap ++ [_]).length
      rw [length_append]
      omega
  | started =>
    refine ⟨hlt, rfl, count_cons_of_ne fun heq => hr ?_⟩
    rw [heq]
    rfl
  | completed => exact hsm
  | finished r =>
    have hne : r ≠ ref := fun heq => hr (congrArg some heq)
    refine ⟨?_, MutationCache.entryAt_finish_ne hne, rfl⟩
    show ref < (c.heap.modify r _).length
    rwa [length_modify]
  | woke | canceled => exact hsm

theorem Executed.length_le : c.heap.length ≤ m.shared.heap.length := by
  cases h with
  | looked hl =>
    cases hl with
    | mismatched | waiting | exhausted => exact Nat.le_refl _
    | reserved =>
      show _ ≤ (c.heap ++ [_]).length
      rw [length_append]
      omega
  | started | completed => exact Nat.le_refl _
  | finished r =>
    show _ ≤ (c.heap.modify r _).length
    rw [length_modify]
  | woke | canceled => exact Nat.le_refl _

/-- A call that takes a step has not finished the operation it runs. -/
theorem Executed.unfinished (hk : Knows c p)
    (hr : p.runs = some ref) : (c.entryAt ref).finished = false := by
  cases h <;> cases hr <;> exact hk.2.1

/-- A call knows as much after the step of another. -/
theorem Executed.knows_other (hp : Knows c p) (hq : Knows c q)
    (hap : ∀ ref, p.runs = some ref → q.runs ≠ some ref) : Knows m.shared q := by
  have ha : ∀ ref, q.runs = some ref → Agree c m.shared ref := fun ref hr =>
    h.agree (hq.runs_lt hr) fun hp => hap ref hp hr
  cases q with
  | reserved ref | running ref | finishing ref =>
    obtain ⟨hlt, he, hs⟩ := ha ref rfl
    refine ⟨hlt, ?_, ?_⟩
    · rw [he]
      exact hq.2.1
    · rw [hs]
      exact hq.2.2
  | ran ref =>
    obtain ⟨hlt, he, hs⟩ := ha ref rfl
    refine ⟨hlt, ?_, ?_, ?_⟩
    · rw [he]
      exact hq.2.1
    · rw [hs]
      exact hq.2.2.1
    · rw [he]
      exact hq.2.2.2
  | waiting => exact Nat.lt_of_lt_of_le hq h.length_le
  | shared =>
    -- The entry is finished, so its own call takes no more steps.
    have ha := h.agree hq.1 fun hr => by
      have hf := h.unfinished hp hr
      rw [hq.2.1] at hf
      cases hf
    refine ⟨ha.lt, ?_, ?_⟩
    · rw [ha.entry]
      exact hq.2.1
    · rw [ha.entry]
      exact hq.2.2
  | calling | canceled | mismatched | exhausted => trivial

theorem Executed.knows_next (hs : CacheSound c) (hp : Knows c p) : Knows m.shared m.next := by
  cases h with
  | looked hlo =>
    cases hlo with
    | mismatched => trivial
    | waiting hn _ hl => exact hs.refs (hn.old hl)
    | exhausted => trivial
    | reserved =>
      refine ⟨?_, ?_, hs.fresh (Nat.le_refl _)⟩
      · show c.heap.length < (c.heap ++ [_]).length
        rw [length_append]
        exact Nat.lt_succ_self _
      · exact congrArg (fun e => e.finished)
          (MutationCache.entryAt_insert_self (c := { c with entries := _ }) ..)
  | started r =>
    refine ⟨hp.1, hp.2.1, ?_⟩
    show (r :: c.starts).count r = 1
    rw [count_cons_self, hp.2.2]
  | completed => exact hp
  | finished r outcome now =>
    refine ⟨?_, ?_, hp.2.2, ?_⟩
    · show r < (c.heap.modify r _).length
      rw [length_modify]
      exact hp.1
    · show ((c.finish r outcome now).entryAt r).finished = true
      rw [MutationCache.entryAt_finish hp.1]
    · show (((c.finish r outcome now).entryAt r).result, ((c.finish r outcome now).entryAt r).err) = _
      rw [MutationCache.entryAt_finish hp.1]
  | @woke r hd => exact ⟨hp, (hs.done r).symm.trans hd, rfl⟩
  | canceled => trivial

theorem Executed.sound (hsn : CacheSound c) (hp : Knows c p) : CacheSound m.shared := by
  have hna : ∀ {entries : AList fun _ : RequestID => ℕ}, c.Narrowed entries →
      entries.entries.length ≤ c.entries.entries.length →
      CacheSound { c with entries := entries } := by
    intro entries hnarr hlen
    refine ⟨fun h => hsn.refs (hnarr.old h), hsn.done, hsn.fresh, fun hpos => ?_⟩
    have hle := hsn.bounded hpos
    show (entries.entries.length : ℤ) ≤ c.capacity
    omega
  cases h with
  | @looked id hash now _ hl =>
    cases hl with
    | mismatched hnarr hlen => exact hna hnarr hlen
    | waiting hnarr hlen => exact hna hnarr hlen
    | exhausted hnarr hlen => exact hna hnarr hlen
    | @reserved entries hnarr hn hrm =>
      have hlen : (MutationCache.insert { c with entries := entries } id hash now).heap.length =
          c.heap.length + 1 := length_append ..
      refine ⟨fun {id' ref} h => ?_, fun ref => ?_, fun {ref} hle => ?_, fun hpos => ?_⟩
      · rw [hlen]
        by_cases hid : id' = id
        · subst hid
          obtain rfl : c.heap.length = ref := by
            have hs := AList.lookup_insert (a := id') (b := c.heap.length) entries
            exact Option.mem_unique hs h
          exact Nat.lt_succ_self _
        · have hold := hsn.refs (hnarr.old ((AList.lookup_insert_ne hid).symm.trans h))
          omega
      · rcases Nat.lt_trichotomy ref c.heap.length with hlt | rfl | _
        · rw [MutationCache.entryAt_insert (c := { c with entries := entries }) _ _ _ hlt]
          exact hsn.done ref
        · rw [MutationCache.entryAt_insert_self (c := { c with entries := entries })]
        · rw [MutationCache.entryAt_of_length_le (by rw [hlen]; omega)]
      · rw [hlen] at hle
        exact hsn.fresh (by omega)
      · have hlt := hrm hpos (hsn.bounded hpos)
        have hcard : (entries.insert id c.heap.length).entries.length =
            entries.entries.length + 1 := by
          rw [AList.entries_insert_of_notMem (AList.lookup_eq_none.mp hn)]
          rfl
        show ((entries.insert id c.heap.length).entries.length : ℤ) ≤ c.capacity
        omega
  | started r =>
    refine ⟨hsn.refs, hsn.done, fun {ref} hle => ?_, hsn.bounded⟩
    have hne : r ≠ ref := fun heq => absurd hp.1 (Nat.not_lt.mpr (heq ▸ hle))
    show (r :: c.starts).count ref = 0
    rw [count_cons_of_ne hne]
    exact hsn.fresh hle
  | completed => exact hsn
  | finished r outcome now =>
    have hlen : (c.finish r outcome now).heap.length = c.heap.length := length_modify ..
    refine ⟨fun h => ?_, fun ref => ?_, fun hle => ?_, hsn.bounded⟩
    · rw [hlen]
      exact hsn.refs h
    · by_cases hr : r = ref
      · subst hr
        rw [MutationCache.entryAt_finish hp.1]
      · rw [MutationCache.entryAt_finish_ne hr]
        exact hsn.done ref
    · rw [hlen] at hle
      exact hsn.fresh hle
  | woke | canceled => exact hsn

/-- A call goes on to run the operation it reserved, or reserves a new entry. -/
theorem Executed.runs : m.next.runs = p.runs ∨ m.next.runs = some c.heap.length ∧
      m.shared.heap.length = c.heap.length + 1 := by
  cases h with
  | looked hl =>
    cases hl with
    | mismatched | waiting | exhausted => exact .inl rfl
    | reserved => exact .inr ⟨rfl, length_append ..⟩
  | started | completed | finished | woke | canceled => exact .inl rfl

end

/-- Every call begins before its lock region. -/
def Caller.Begins : Caller M E → Prop
  | .calling _ _ => True
  | _ => False

instance decidableBegins : DecidablePred (Caller.Begins : Caller M E → Prop)
  | .calling _ _ => isTrue trivial
  | .reserved _ | .running _ | .finishing _ _ | .waiting _ | .ran _ _ | .shared _ _ _
  | .canceled _ | .mismatched | .exhausted => isFalse id

theorem Caller.Begins.calling (h : p.Begins) : ∃ id hash, p = .calling id hash := by
  cases p with
  | calling id hash => exact ⟨id, hash, rfl⟩
  | _ => cases h

/-- Any call may take any step beside any other. -/
def anyStep (_ : MutationCache M E) (_ : Caller M E) (_ : Choice M E) (_ : Caller M E) :
    Prop := True

instance decidableAnyStep (c : MutationCache M E) (p : Caller M E) (choice : Choice M E)
    (q : Caller M E) : Decidable (anyStep c p choice q) := isTrue trivial

theorem execute_spawned {i : ℕ} {choice : Choice M E} (h : execute i c p choice = some m) :
    m.spawned = [] := by
  cases execute_executed h with
  | looked hl => cases hl <;> rfl
  | _ => rfl

def cacheOutline : Outline (execute (M := M) (E := E)) Caller.Begins anyStep where
  shared := CacheSound
  own _ := Knows
  apart p q := ∀ ref, p.runs = some ref → q.runs ≠ some ref
  symm h ref hq hp := h ref hp hq
  entry_own h := by
    obtain ⟨_, _, rfl⟩ := h.calling
    trivial
  entry_apart h ref hp := by
    obtain ⟨_, _, rfl⟩ := h.calling
    cases hp
  step_shared hs hp h := (execute_executed h).sound hs hp
  step_own hs hp h := (execute_executed h).knows_next hs hp
  step_other _ hp hq _ hapart _ h := (execute_executed h).knows_other hp hq hapart
  step_apart _ _ hq _ hapart _ h ref hnext hruns := by
    rcases (execute_executed h).runs with heq | ⟨heq, -⟩
    · exact hapart ref (heq ▸ hnext) hruns
    · rw [heq] at hnext
      obtain rfl := Option.some.inj hnext
      exact Nat.lt_irrefl _ (hq.runs_lt hruns)
  spawned_own _ _ h hmem := by
    rw [execute_spawned h] at hmem
    cases hmem
  spawned_apart h hmem := by
    rw [execute_spawned h] at hmem
    cases hmem

/-! ### Runs -/

/-- Calls of `execute` on a new cache, in any interleaving. -/
def Reaches (capacity : ℤ) (lifetime : Duration) (s : Pool (MutationCache M E) (Caller M E)) :
    Prop :=
  ∃ turns, Pool.AdmitsRun execute Caller.Begins anyStep
      ⟨{ capacity := capacity, lifetime := lifetime }, []⟩ turns ∧
    Pool.run execute ⟨{ capacity := capacity, lifetime := lifetime }, []⟩ turns = some s

section Runs
variable {capacity : ℤ} {lifetime : Duration} {s s' : Pool (MutationCache M E) (Caller M E)}

theorem Reaches.holds (h : Reaches capacity lifetime s) : cacheOutline.Holds s := by
  obtain ⟨_, ha, hrun⟩ := h
  refine Outline.Holds.run (.init ⟨fun h => ?_, fun ref => ?_, fun _ => rfl, fun hpos => ?_⟩)
    ha hrun
  · rw [AList.lookup_empty] at h
    cases h
  · rw [MutationCache.entryAt_of_length_le (Nat.zero_le _)]
  · exact Int.le_of_lt hpos

theorem step_capacity {t : Turn (Caller M E) (Choice M E)} (h : s.step execute t = some s') :
    s'.shared.capacity = s.shared.capacity := by
  cases t with
  | spawn =>
    cases h
    rfl
  | act =>
    obtain ⟨_, _, -, hm, hs, -⟩ := Pool.step_act h
    rw [hs]
    cases execute_executed hm with
    | looked hl => cases hl <;> rfl
    | _ => rfl

/-- The operation of every entry ever made belongs to one of the calls. -/
def Owned (s : Pool (MutationCache M E) (Caller M E)) : Prop :=
  ∀ ref < s.shared.heap.length, ∃ (i : ℕ) (p : Caller M E), s.threads[i]? = some p ∧ p.runs = some ref

theorem Owned.step (hs : Owned s) {t : Turn (Caller M E) (Choice M E)}
    (h : s.step execute t = some s') : Owned s' := by
  cases t with
  | spawn =>
    cases h
    intro ref hlt
    obtain ⟨i, q, hq, hr⟩ := hs ref hlt
    refine ⟨i, q, ?_, hr⟩
    rw [getElem?_append_left (lt_of_get hq)]
    exact hq
  | act i choice =>
    obtain ⟨p, m, hp, hm, hsh, ht⟩ := Pool.step_act h
    have hi := lt_of_get hp
    rw [execute_spawned hm, append_nil] at ht
    have hsf : s'.threads[i]? = some m.next := by
      rw [ht, getElem?_set_self hi]
    intro ref hlt
    rw [hsh] at hlt
    have hk : ref < s.shared.heap.length → m.next.runs = p.runs ∨ p.runs = none →
        ∃ (j : ℕ) (q : Caller M E), s'.threads[j]? = some q ∧ q.runs = some ref := by
      intro hlt heq
      obtain ⟨j, q, hq, hr⟩ := hs ref hlt
      by_cases hj : i = j
      · subst hj
        obtain rfl := Option.mem_unique hp hq
        rcases heq with heq | hn
        · exact ⟨i, m.next, hsf, heq.trans hr⟩
        · rw [hn] at hr
          cases hr
      · refine ⟨j, q, ?_, hr⟩
        rw [ht, getElem?_set_ne hj]
        exact hq
    have hexec := execute_executed hm
    cases hexec with
    | looked hl =>
      cases hl with
      | mismatched => exact hk hlt (.inr rfl)
      | waiting => exact hk hlt (.inr rfl)
      | exhausted => exact hk hlt (.inr rfl)
      | reserved =>
        by_cases hne : ref = s.shared.heap.length
        · exact ⟨i, _, hsf, congrArg some hne.symm⟩
        refine hk ?_ (.inr rfl)
        have hlen : ref < (s.shared.heap ++ [_]).length := hlt
        rw [length_append, length_singleton] at hlen
        omega
    | started => exact hk hlt (.inl rfl)
    | completed => exact hk hlt (.inl rfl)
    | finished r =>
      refine hk ?_ (.inl rfl)
      have hlen : ref < (s.shared.heap.modify r _).length := hlt
      rwa [length_modify] at hlen
    | woke => exact hk hlt (.inl rfl)
    | canceled => exact hk hlt (.inl rfl)

theorem Reaches.owned (h : Reaches capacity lifetime s) : Owned s := by
  obtain ⟨_, ha, hrun⟩ := h
  refine Pool.run_keeps Caller.Begins anyStep (fun _ _ _ _ hst hs => hs.step hst) ha
    hrun fun ref hlt => ?_
  cases hlt

theorem Reaches.capacity_eq (h : Reaches capacity lifetime s) : s.shared.capacity = capacity := by
  obtain ⟨_, ha, hrun⟩ := h
  exact Pool.run_keeps (I := fun s => s.shared.capacity = capacity) Caller.Begins anyStep
    (fun _ _ _ _ hst hs => (step_capacity hst).trans hs) ha hrun rfl

/-- A step of a call keeps an entry whose operation is not finished. -/
theorem Executed.keeps_pending (h : Executed c p m) {id : RequestID}
    (hlo : c.entries.lookup id = some ref) (hp : (c.entryAt ref).finished = false) :
    m.shared.entries.lookup id = some ref := by
  cases h with
  | @looked id' _ _ _ hl =>
    cases hl with
    | mismatched hna => exact hna.pending hlo hp
    | waiting hna => exact hna.pending hlo hp
    | exhausted hna => exact hna.pending hlo hp
    | @reserved _ hna hn =>
      have hk := hna.pending hlo hp
      have hne : id ≠ id' := by
        rintro rfl
        rw [hk] at hn
        cases hn
      exact (AList.lookup_insert_ne hne).trans hk
  | started | completed | finished | woke | canceled => exact hlo

/-- What the steps of a call keep of its place, every run keeps. -/
theorem place_stays {Q : Caller M E → Prop} {turns : List (Turn (Caller M E) (Choice M E))} {i : ℕ}
    (hQ : ∀ {c p m}, Executed c p m → Q p → Q m.next)
    (h : ∃ p, s.threads[i]? = some p ∧ Q p) (hrun : s.run execute turns = some s') :
    ∃ p, s'.threads[i]? = some p ∧ Q p := by
  induction turns generalizing s with
  | nil =>
    cases hrun
    exact h
  | cons t turns ih =>
    unfold Pool.run at hrun
    split at hrun
    · cases hrun
    rename_i u hu
    refine ih ?_ hrun
    obtain ⟨p, hp, hq⟩ := h
    cases t with
    | spawn =>
      cases hu
      exact ⟨p, (getElem?_append_left (lt_of_get hp)).trans hp, hq⟩
    | act j =>
      obtain ⟨p', m, hp', hm, -, ht⟩ := Pool.step_act hu
      rw [ht, execute_spawned hm, append_nil]
      by_cases hji : j = i
      · subst hji
        obtain rfl := Option.mem_unique hp hp'
        exact ⟨m.next, getElem?_set_self (lt_of_get hp), hQ (execute_executed hm) hq⟩
      · exact ⟨p, (getElem?_set_ne hji).trans hp, hq⟩

/-- The entry that a call found under the hash of its request. -/
def Caller.found : Caller M E → Option ℕ
  | .waiting ref => some ref
  | .shared ref _ _ => some ref
  | .canceled ref => some ref
  | _ => none

theorem Executed.found (h : Executed c p m) (hp : p.found = some ref) :
    m.next.found = some ref := by
  cases h with
  | woke | canceled => exact hp
  | _ => cases hp

/-- What holds in every state that interleaved calls of `execute` reach. -/
structure AtMostOnce (capacity : ℤ) (s : Pool (MutationCache M E) (Caller M E)) : Prop where
  /-- The operation of a cached entry was started once, or its call is about to start it. -/
  started : ∀ id ref, s.shared.entries.lookup id = some ref →
    (s.shared.starts.count ref = 1 ∧ ∀ i : ℕ, s.threads[i]? ≠ some (.reserved ref)) ∨
    (s.shared.starts.count ref = 0 ∧ ∃ i : ℕ, s.threads[i]? = some (.reserved ref))
  /-- What a call that found the entry returned is what the one run of the operation left. -/
  returned : ∀ (i : ℕ) ref result err, s.threads[i]? = some (.shared ref result err) →
    ∃ (j : ℕ) (outcome : Outcome M E), s.threads[j]? = some (.ran ref outcome) ∧
      (result, err) = outcome.settle
  /-- A call that found the entry returns as soon as the operation has finished, not before. -/
  wakes : ∀ (i : ℕ) ref, s.threads[i]? = some (.waiting ref) →
    (∀ (j : ℕ) outcome, s.threads[j]? = some (.ran ref outcome) →
      s.step execute (.act i .wake) = some { s with
        threads := s.threads.set i (.shared ref outcome.settle.1 outcome.settle.2) }) ∧
    ((∀ (j : ℕ) outcome, s.threads[j]? ≠ some (.ran ref outcome)) →
      s.step execute (.act i .wake) = none)
  /-- A call with the hash of the entry that it finds runs nothing and waits for its operation,
  until it returns what the operation left or is cancelled. -/
  found : ∀ (i : ℕ) id hash now order ref, s.threads[i]? = some (.calling id hash) →
    (s.shared.pruneLocked now).entries.lookup id = some ref →
    (s.shared.entryAt ref).hash = hash →
    s.step execute (.act i (.enter now order)) = some {
      shared := s.shared.pruneLocked now, threads := s.threads.set i (.waiting ref) } ∧
    (s.shared.pruneLocked now).starts = s.shared.starts ∧
    ∀ s' turns s'', s.step execute (.act i (.enter now order)) = some s' →
      s'.run execute turns = some s'' → ∃ p, s''.threads[i]? = some p ∧ p.found = some ref
  /-- A call with another hash than the entry of its request ends without running anything. -/
  mismatch : ∀ (i : ℕ) id hash now order ref s', s.threads[i]? = some (.calling id hash) →
    (s.shared.pruneLocked now).entries.lookup id = some ref →
    (s.shared.entryAt ref).hash ≠ hash → s.step execute (.act i (.enter now order)) = some s' →
    ∀ turns s'', s'.run execute turns = some s'' → s''.threads[i]? = some .mismatched
  /-- An entry whose operation has not finished stays in the cache. -/
  kept : ∀ t s' id ref (j : ℕ) p, s.step execute t = some s' →
    s.shared.entries.lookup id = some ref → s.threads[j]? = some p → p.pending = some ref →
    s'.shared.entries.lookup id = some ref
  bounded : 0 < capacity → (s.shared.entries.entries.length : ℤ) ≤ capacity

theorem Knows.finished_of_runs (h : Knows c p) (hr : p.runs = some ref)
    (hfi : (c.entryAt ref).finished = true) : ∃ outcome, p = .ran ref outcome := by
  have hp : (c.entryAt ref).finished = false → ∃ outcome, p = .ran ref outcome := by
    intro hf
    rw [hfi] at hf
    cases hf
  cases p with
  | reserved | running | finishing => cases hr; exact hp h.2.1
  | ran _ outcome => cases hr; exact ⟨outcome, rfl⟩
  | _ => cases hr

/-- The starts of an entry, from the place of the call that runs its operation. -/
theorem Knows.starts_of_runs (h : Knows c p) (hr : p.runs = some ref) :
    (c.starts.count ref = 1 ∧ p ≠ .reserved ref) ∨ (c.starts.count ref = 0 ∧ p = .reserved ref) := by
  cases p with
  | reserved => cases hr; exact .inr ⟨h.2.2, rfl⟩
  | running | finishing => cases hr; exact .inl ⟨h.2.2, nofun⟩
  | ran => cases hr; exact .inl ⟨h.2.2.1, nofun⟩
  | _ => cases hr

theorem Knows.pending (h : Knows c p) (hp : p.pending = some ref) :
    (c.entryAt ref).finished = false := by
  cases p <;> cases hp <;> exact h.2.1

theorem step_wake {i : ℕ} (h : s.threads[i]? = some (.waiting ref)) :
    s.step execute (.act i .wake) = if (s.shared.entryAt ref).done then
        some { s with
          threads := s.threads.set i
            (.shared ref (s.shared.entryAt ref).result (s.shared.entryAt ref).err) }
      else none := by
  rw [Pool.step_eq h]
  dsimp only [execute]
  split
  · rw [Option.map_some, append_nil]
  · rfl

/-- A call that finds an entry under its request identifier only prunes the cache. -/
theorem step_enter {i : ℕ} {id : RequestID} {hash : Digest} {now : Time}
    (order : Order) (h : s.threads[i]? = some (.calling id hash))
    (hloo : (s.shared.pruneLocked now).entries.lookup id = some ref) :
    s.step execute (.act i (.enter now order)) = some {
      shared := s.shared.pruneLocked now
      threads := s.threads.set i
        (if (s.shared.entryAt ref).hash ≠ hash then .mismatched else .waiting ref) } := by
  have hent : (s.shared.pruneLocked now).entryAt ref = s.shared.entryAt ref := by
    obtain ⟨_, heq, -⟩ := s.shared.pruneLocked_eq now
    rw [heq]
    rfl
  rw [Pool.step_eq h]
  dsimp only [execute]
  unfold lookupOrReserve
  dsimp only
  rw [hloo]
  dsimp only
  rw [hent]
  split
  · rw [Option.map_some, append_nil]
  · rw [Option.map_some, append_nil]

/-- Every interleaving of calls runs the operation of an entry at most once. -/
theorem execute_at_most_once (h : Reaches capacity lifetime s) : AtMostOnce capacity s := by
  have hhol := h.holds
  have hown := h.owned
  have hsnd : CacheSound s.shared := hhol.shared
  have hkno : ∀ {i : ℕ} {p}, s.threads[i]? = some p → Knows s.shared p := hhol.own
  refine ⟨fun id ref hloo => ?_, fun i ref result err hi => ?_, fun i ref hi => ⟨?_, ?_⟩,
    fun i id hash now order ref hi hloo hhash => ?_,
    fun i id hash now order ref s' hi hloo hhash hstep turns s'' hrun => ?_,
    fun t s' id ref j p hstep hloo hj hpen => ?_, fun hpos => ?_⟩
  · obtain ⟨i, p, hp, hruns⟩ := hown ref (hsnd.refs hloo)
    rcases (hkno hp).starts_of_runs hruns with ⟨hone, hne⟩ | ⟨hzero, rfl⟩
    · refine .inl ⟨hone, fun j hj => ?_⟩
      by_cases hij : i = j
      · subst hij
        exact hne (Option.some.inj (hp.symm.trans hj))
      · exact hhol.apart hij hp hj ref hruns rfl
    · exact .inr ⟨hzero, i, hp⟩
  · obtain ⟨hlt, hfin, hval⟩ := hkno hi
    obtain ⟨j, p, hp, hruns⟩ := hown ref hlt
    obtain ⟨outcome, rfl⟩ := (hkno hp).finished_of_runs hruns hfin
    exact ⟨j, outcome, hp, hval.symm.trans (hkno hp).2.2.2⟩
  · intro j outcome hj
    obtain ⟨-, hfin, -, hval⟩ := hkno hj
    rw [step_wake hi, if_pos ((hsnd.done ref).trans hfin), ← hval]
  · intro hnone
    obtain ⟨j, _, hp, hruns⟩ := hown ref (hkno hi)
    rw [step_wake hi, hsnd.done ref, if_neg]
    intro hfin
    obtain ⟨outcome, rfl⟩ := (hkno hp).finished_of_runs hruns hfin
    exact hnone j outcome hp
  · have hstep := step_enter order hi hloo
    rw [if_neg (not_not.mpr hhash)] at hstep
    refine ⟨hstep, ?_, fun s' turns s'' hstep' hrun => ?_⟩
    · obtain ⟨_, heq, -⟩ := s.shared.pruneLocked_eq now
      rw [heq]
    · obtain rfl := Option.some.inj (hstep.symm.trans hstep')
      refine place_stays Executed.found ⟨.waiting ref, ?_, rfl⟩ hrun
      exact getElem?_set_self (lt_of_get hi)
  · rw [step_enter _ hi hloo, if_pos hhash] at hstep
    obtain rfl := Option.some.inj hstep
    have hend : ∀ {c : MutationCache M E} {p m}, Executed c p m → p = .mismatched →
        m.next = .mismatched := by
      rintro c _ m hex rfl
      cases hex
    obtain ⟨p, hp, rfl⟩ := place_stays hend
      ⟨.mismatched, getElem?_set_self (lt_of_get hi), rfl⟩ hrun
    exact hp
  · cases t with
    | spawn =>
      cases hstep
      exact hloo
    | act =>
      obtain ⟨_, _, -, hm, hsha, -⟩ := Pool.step_act hstep
      rw [hsha]
      exact (execute_executed hm).keeps_pending hloo ((hkno hj).pending hpen)
  · have hbou := hsnd.bounded
    rw [h.capacity_eq] at hbou
    exact hbou hpos

/-- Two calls with one request: the second waits for the operation of the first. -/
def sampleTurns : List (Turn (Caller ℕ ℕ) (Choice ℕ ℕ)) :=
  [.spawn (.calling 1 7), .spawn (.calling 1 7), .spawn (.calling 1 8), .act 0 (.enter 10 []),
    .act 1 (.enter 11 []), .act 0 .start, .act 0 (.complete (.returned (some 5) none)),
    .act 2 (.enter 12 []), .act 0 (.finish 13), .act 1 .wake]

def samplePool : Pool (MutationCache ℕ ℕ) (Caller ℕ ℕ) where
  shared := {
    entries := AList.singleton 1 0
    capacity := 1
    lifetime := 100
    heap := [{ hash := 7, result := some 5, done := true, finished := true, stamp := 13 }]
    starts := [0] }
  threads := [.ran 0 (.returned (some 5) none), .shared 0 (some 5) none, .mismatched]

theorem execute_at_most_once_sample : AtMostOnce 1 samplePool := by
  have hrea : Reaches 1 100 samplePool := ⟨sampleTurns, by decide, by rfl⟩
  exact execute_at_most_once hrea

/-- After the entry is in the cache, its operation has not been started yet. -/
theorem reserved_not_started :
    ∃ s : Pool (MutationCache ℕ ℕ) (Caller ℕ ℕ), Reaches 1 100 s ∧
      s.shared.entries.lookup 1 = some 0 ∧ s.shared.starts.count 0 = 0 :=
  ⟨_, ⟨[.spawn (.calling 1 7), .act 0 (.enter 10 [])], by decide, rfl⟩, rfl, rfl⟩

end Runs

end WgFrag.Manager
