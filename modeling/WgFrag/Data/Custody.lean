import WgFrag.Data.Upkeep

/-! A completed slot is kept as it is until its handle is released, and a released handle is
refused from then on. -/
namespace WgFrag.Data.Reassembly
open WgFrag.Lib Reassembler

variable {r r' r₁ : Reassembler} {i j : ℕ} {now : Time} {key : Key} {record : Record}
  {evicted : Option Key} {out : Except Error Result × Reassembler}
variable {s s' : Slot} {calls : List Call}

/-! ### What one call does to one slot -/

/-- The slot kept its generation and did not leave the free list, or it was started once. -/
def Ages (s s' : Slot) : Prop :=
  (s'.generation = s.generation ∧ (s.state = .free → s'.state = .free)) ∨
    s'.generation = s.generation + 1

theorem Ages.refl (s : Slot) : Ages s s := .inl ⟨rfl, id⟩

theorem Dropped.ages (h : Dropped s s') : Ages s s' :=
  h.generation.imp_left fun hg => ⟨hg, fun _ => h.after⟩

theorem Stored.others (h : Stored r i evicted record out) (hj : j ≠ i) :
    out.2.slot j = r.slot j := by
  cases h with
  | refused => rfl
  | dropped _ _ _ _ _ _ _ ho => exact ho j hj
  | duplicate => rfl
  | accepted | completed => exact slot_setSlot_ne (Ne.symm hj)

/-- The slot of the record keeps its generation, and it was in use before the call. -/
theorem Stored.generation (h : Stored r i evicted record out) :
    (out.2.slot i).generation = (r.slot i).generation := by
  cases h with
  | refused => rfl
  | dropped _ _ _ _ _ _ hg => exact hg
  | duplicate => rfl
  | accepted hf | completed _ hf =>
    rw [slot_setSlot_self hf.lt]
    rfl

theorem Stored.kept (h : Stored r i evicted record out) (hs : (r.slot i).state = .completed) :
    out.2.slot i = r.slot i := by
  cases h with
  | refused => rfl
  | dropped _ _ _ ha => exact absurd (ha.symm.trans hs) (by simp)
  | duplicate => rfl
  | accepted hf | completed _ hf => exact absurd (hf.assembling.symm.trans hs) (by simp)

theorem Outcome.kept (h : Outcome now key record r out) (hs : (r.slot j).state = .completed) :
    out.2.slot j = r.slot j := by
  cases h with
  | refused _ _ _ hsl =>
    rcases hsl j with heq | ⟨hd, -⟩
    · exact heq
    · exact absurd hs hd.before
  | stored i _ _ _ hl hst =>
    cases hl with
    | live =>
      by_cases hj : j = i
      · subst hj
        exact hst.kept hs
      · exact hst.others hj
    | fresh _ _ _ _ _ _ hb _ ho =>
      have hj : j ≠ i := by
        rintro rfl
        exact hb hs
      rw [hst.others hj]
      rcases ho j hj with heq | ⟨-, -, hd⟩
      · exact heq
      · exact absurd hs hd.before

theorem Outcome.ages (h : Outcome now key record r out) (j : ℕ) :
    Ages (r.slot j) (out.2.slot j) := by
  cases h with
  | refused _ _ _ hsl =>
    rcases hsl j with heq | ⟨hd, -⟩
    · rw [heq]
      exact .refl _
    · exact hd.ages
  | stored i _ _ _ hl hst =>
    cases hl with
    | live _ ha =>
      by_cases hj : j = i
      · subst hj
        exact .inl ⟨hst.generation, fun hfr => absurd hfr ha.1⟩
      · rw [hst.others hj]
        exact .refl _
    | fresh _ _ _ _ _ hso _ _ ho =>
      by_cases hj : j = i
      · subst hj
        refine .inr ?_
        rw [hst.generation, hso]
        rfl
      · rw [hst.others hj]
        rcases ho j hj with heq | ⟨-, -, hd⟩
        · rw [heq]
          exact .refl _
        · exact hd.ages

theorem Expires.ages (h : Expires r now s s') : Ages s s' := by
  rcases h with rfl | ⟨_, -, _, rfl⟩
  · exact .refl _
  · exact .inl ⟨rfl, fun _ => rfl⟩

theorem Purges.ages {peer : ℕ} (h : Purges peer s s') : Ages s s' := by
  cases h with
  | same => exact .refl _
  | detached => exact .inl ⟨rfl, id⟩
  | cleared => exact .inl ⟨rfl, fun _ => rfl⟩

theorem call_ages (hwf : r.Wf) (c : Call) (j : ℕ) : Ages (r.slot j) ((r.call c).2.slot j) := by
  cases c with
  | accept now key record => exact (accept_outcome hwf now key record).ages j
  | expire now => exact ((expire_spec hwf now).2 j).ages
  | purgePeer peer => exact ((purgePeer_spec hwf peer).2 j).ages
  | release handle =>
    show Ages _ ((r.release handle).2.slot j)
    rcases release_cases hwf handle with ⟨h, -⟩ | ⟨h, ⟨hs, -⟩, hc⟩
    · rw [h]
      exact .refl _
    rw [h, hc.slot (lt_of_state (by simp [hs]))]
    split
    · next hj =>
      subst hj
      exact .inl ⟨rfl, fun _ => rfl⟩
    · exact .refl _

/-! ### Until the release -/

/-- The packet's slot is as it was when the packet was completed. -/
structure Holding (r : Reassembler) (p : Packet) (data : Bytes) : Prop where
  state : (r.slot p.handle.index).state = .completed
  generation : (r.slot p.handle.index).generation = p.handle.generation
  key : (r.slot p.handle.index).key = p.key
  length : (r.slot p.handle.index).packetLen = p.length
  data : r.data p = data

variable {p : Packet} {data : Bytes}

theorem Holding.of_slot (h : Holding r p data)
    (heq : r'.slot p.handle.index = r.slot p.handle.index) : Holding r' p data := by
  constructor
  · rw [heq]
    exact h.state
  · rw [heq]
    exact h.generation
  · rw [heq]
    exact h.key
  · rw [heq]
    exact h.length
  · unfold Reassembler.data
    rw [heq]
    exact h.data

theorem Holding.call (h : Holding r p data) (hwf : r.Wf) {c : Call}
    (hc : c ≠ .release p.handle) : Holding (r.call c).2 p data := by
  cases c with
  | accept now key record => exact h.of_slot ((accept_outcome hwf now key record).kept h.state)
  | expire now =>
    rcases (expire_spec hwf now).2 p.handle.index with heq | ⟨hs, -⟩
    · exact h.of_slot heq
    · exact absurd (hs.symm.trans h.state) (by simp)
  | purgePeer peer =>
    have hp := (purgePeer_spec hwf peer).2 p.handle.index
    show Holding (r.purgePeer peer).2 p data
    generalize hs' : (r.purgePeer peer).2.slot p.handle.index = s' at hp
    cases hp with
    | same => exact h.of_slot hs'
    | detached _ _ hs =>
      -- Only the marks of the slot change.
      constructor
      · rw [hs']
        exact hs
      · rw [hs']
        exact h.generation
      · rw [hs']
        exact h.key
      · rw [hs']
        exact h.length
      · unfold Reassembler.data
        rw [hs']
        exact h.data
    | cleared _ hs => exact absurd (hs.symm.trans h.state) (by simp)
  | release handle =>
    show Holding (r.release handle).2 p data
    rcases release_cases hwf handle with ⟨hr, -⟩ | ⟨hr, ⟨hs, hg⟩, hcl⟩
    · rw [hr]
      exact h
    rw [hr]
    have hne : handle.index ≠ p.handle.index := by
      intro hi
      have hge : handle.generation = p.handle.generation := by rw [← hg, ← h.generation, hi]
      cases handle
      simp_all
    apply h.of_slot
    rw [hcl.slot (lt_of_state (by simp [hs])), if_neg hne]

theorem Holding.run (h : Holding r p data) (hwf : r.Wf)
    (hc : .release p.handle ∉ calls) : Holding (r.run calls) p data := by
  induction calls generalizing r with
  | nil => exact h
  | cons c _ ih =>
    simp only [List.mem_cons, not_or] at hc
    exact ih (h.call hwf (Ne.symm hc.1)) (Steps.wf (call_steps hwf c) hwf) hc.2

theorem Holding.release (h : Holding r p data) : (r.release p.handle).1 = .ok () := by
  unfold Reassembler.release
  simp [h.state, h.generation]

theorem accept_holding (hwf : r.Wf) {result : Option Key}
    (h : (accept now key record r).1 = .ok ⟨.completed p, result⟩) :
    Holding (accept now key record r).2 p ((accept now key record r).2.data p) := by
  have ho := accept_outcome hwf now key record
  generalize accept now key record r = out at h ho ⊢
  cases ho with
  | refused => cases h
  | stored _ _ _ _ _ hst =>
    cases hst with
    | refused | dropped | duplicate | accepted => cases h
    | completed _ hf =>
      cases h
      have hi := hf.lt
      constructor
      · rw [slot_setSlot_self hi]
        rfl
      · rw [slot_setSlot_self hi]
        rfl
      · rw [slot_setSlot_self hi]
        rfl
      · rw [slot_setSlot_self hi]
        rfl
      · rfl

theorem accept_completed (hwf : r.Wf)
    (h : (accept now key record r).1 = .ok ⟨.completed p, evicted⟩) : p.key = key ∧
      ((accept now key record r).2.slot p.handle.index).count = record.header.fragmentCount := by
  have ho := accept_outcome hwf now key record
  generalize accept now key record r = out at h ho ⊢
  cases ho with
  | refused => cases h
  | stored _ _ _ _ hl hst =>
    cases hst with
    | refused | dropped | duplicate | accepted => cases h
    | completed _ hf =>
      cases h
      refine ⟨hl.active.2, ?_⟩
      rw [slot_setSlot_self hf.lt]
      exact hf.count

/-! ### After the release -/

/-- How often the slot `i` was started along the calls. -/
def reuses (i : ℕ) (r : Reassembler) : List Call → ℕ
  | [] => 0
  | c :: calls =>
    (if ((r.call c).2.slot i).generation = (r.slot i).generation then 0 else 1) +
      reuses i (r.call c).2 calls

private theorem add_one_ne (g : UInt64) : g + 1 ≠ g := by
  intro h
  have h := congrArg UInt64.toNat h
  rw [UInt64.toNat_add] at h
  have : (1 : UInt64).toNat = 1 := rfl
  omega

/-- The generation of a slot counts its starts. -/
theorem run_generation (hwf : r.Wf) (i : ℕ) (calls : List Call) :
    ((r.run calls).slot i).generation =
      (r.slot i).generation + UInt64.ofNat (reuses i r calls) := by
  induction calls generalizing r with
  | nil => simp [Reassembler.run, reuses]
  | cons c calls ih =>
    show (((r.call c).2.run calls).slot i).generation = _
    rw [ih (Steps.wf (call_steps hwf c) hwf), reuses]
    rcases call_ages hwf c i with ⟨heq, -⟩ | hnx
    · rw [if_pos heq, heq, Nat.zero_add]
    have hne : ((r.call c).2.slot i).generation ≠ (r.slot i).generation := by
      rw [hnx]
      exact add_one_ne _
    rw [if_neg hne, hnx, UInt64.ofNat_add, UInt64.add_assoc]
    rfl

theorem run_free (hwf : r.Wf) (hfr : (r.slot i).state = .free)
    (hn : reuses i r calls = 0) : ((r.run calls).slot i).state = .free := by
  induction calls generalizing r with
  | nil => exact hfr
  | cons c _ ih =>
    rw [reuses, Nat.add_eq_zero_iff] at hn
    apply ih (Steps.wf (call_steps hwf c) hwf) _ hn.2
    rcases call_ages hwf c i with ⟨-, hs⟩ | hnx
    · exact hs hfr
    have hne : ((r.call c).2.slot i).generation ≠ (r.slot i).generation := by
      rw [hnx]
      exact add_one_ne _
    simp [hne] at hn

/-- A handle whose slot is free is refused as long as its generation does not come round. -/
theorem release_refused (hwf : r.Wf) {handle : SlotHandle}
    (hfr : (r.slot handle.index).state = .free)
    (hge : (r.slot handle.index).generation = handle.generation)
    (hr : reuses handle.index r calls < 18446744073709551616) :
    ((r.run calls).release handle).1 = .error .invalidHandle := by
  rcases release_cases (run_wf hwf calls) handle with ⟨h, -⟩ | ⟨h, ⟨hs, hg⟩, -⟩
  · rw [h]
  rw [run_generation hwf, hge] at hg
  have hz : reuses handle.index r calls = 0 := by
    have hz : UInt64.ofNat (reuses handle.index r calls) = 0 := by simpa using hg
    have htoN := congrArg UInt64.toNat hz
    rw [UInt64.toNat_ofNat', Nat.mod_eq_of_lt hr] at htoN
    exact htoN
  exact absurd ((run_free hwf hfr hz).symm.trans hs) (by simp)

/-- From the call that completes a packet until its handle is released, no call changes its
bytes or gives its slot away. The release succeeds then, and never again before the slot was
started `2 ^ 64` times. -/
theorem completed_protected {config : Config} {hash : Key → UInt64}
    (hnew : new config hash = .ok r) (before : List Call)
    (hdone : (accept now key record (r.run before)).1 = .ok ⟨.completed p, evicted⟩)
    (calls : List Call) (hkeep : .release p.handle ∉ calls) :
    let done := (accept now key record (r.run before)).2
    let held := done.run calls
    (held.data p = done.data p ∧ (held.slot p.handle.index).state = .completed ∧
      (held.slot p.handle.index).key = p.key) ∧
    (held.release p.handle).1 = .ok () ∧
    ∀ later, reuses p.handle.index (held.release p.handle).2 later < 18446744073709551616 →
      (((held.release p.handle).2.run later).release p.handle).1 = .error .invalidHandle := by
  obtain ⟨hwf₀, -⟩ := new_wf hnew
  have hwf₁ := run_wf hwf₀ before
  have hdon : (accept now key record (r.run before)).2.Wf :=
    Steps.wf (call_steps hwf₁ (.accept now key record)) hwf₁
  have hwf := run_wf hdon calls
  have hold := (accept_holding hwf₁ hdone).run hdon hkeep
  intro done held
  refine ⟨⟨hold.data, hold.state, hold.key⟩, hold.release, fun later hreu => ?_⟩
  rcases release_cases hwf p.handle with ⟨-, hno⟩ | ⟨hrel, ⟨hs, hg⟩, hc⟩
  · exact absurd ⟨hold.state, hold.generation⟩ hno
  have hrel : held.release p.handle = (.ok (), held.clearSlot p.handle.index) := hrel
  rw [hrel] at hreu ⊢
  have hslot := hc.slot (j := p.handle.index) (lt_of_state (by simp [hs]))
  rw [if_pos rfl] at hslot
  apply release_refused hc.wf _ _ hreu
  · rw [hslot]
    rfl
  · rw [hslot]
    exact hg

theorem completed_protected_sample : ∃ r p, new sampleConfig hashKey = .ok r ∧
    (accept 0 ⟨0, 1, 0, 5⟩ ⟨⟨0, 1, 0, 1, 5, 0⟩, [7, 8]⟩ (r.run [])).1 = .ok ⟨.completed p, none⟩ ∧
    ((((accept 0 ⟨0, 1, 0, 5⟩ ⟨⟨0, 1, 0, 1, 5, 0⟩, [7, 8]⟩ (r.run [])).2.run
      [.purgePeer 0, .expire 100]).release p.handle).1 = .ok ()) := by
  refine ⟨_, ⟨⟨0, 1⟩, ⟨0, 1, 0, 5⟩, 2⟩, rfl, rfl, ?_⟩
  exact (completed_protected (show new sampleConfig hashKey = .ok _ from rfl) [] rfl
    [.purgePeer 0, .expire 100] (by simp)).2.1

end WgFrag.Data.Reassembly
