import WgFrag.Data.Assembly

/-! Runs of calls on a reassembler: expiry, purge and release next to accept, and the
invariant of the slots, the free list, the counters and the key index along them. -/
namespace WgFrag.Data.Reassembly
open WgFrag.Lib Reassembler List

variable {r r' : Reassembler} {i j : ℕ}
variable {n : ℕ}

/-! ### Expire -/

def Expires (r : Reassembler) (now : Time) (s s' : Slot) : Prop :=
  s' = s ∨ s.state = .assembling ∧ r.expired s now = true ∧ ∃ next, s' = s.cleared next

private theorem expireSlot_cases (hwf : r.Wf) (now : Time) (n i : ℕ) :
    expireSlot now (n, r) i = (n, r) ∨ ((r.slot i).state = .assembling ∧
      r.expired (r.slot i) now = true ∧ expireSlot now (n, r) i = (n + 1, r.clearSlot i) ∧
      Clears r i (r.clearSlot i)) := by
  unfold expireSlot
  dsimp only
  split
  · next h => exact .inr ⟨h.1, h.2, rfl, clearSlot_spec hwf (by simp [h.1])⟩
  · exact .inl rfl

private theorem foldl_expireSlot (now : Time) (l : List ℕ) (n : ℕ) (hwf : r.Wf) :
    Steps r (l.foldl (expireSlot now) (n, r)).2 ∧
      ∀ j, Expires r now (r.slot j) ((l.foldl (expireSlot now) (n, r)).2.slot j) := by
  induction l generalizing n r with
  | nil => exact ⟨.refl, fun j => .inl rfl⟩
  | cons i _ ih =>
    rw [foldl_cons]
    rcases expireSlot_cases hwf now n i with heq | ⟨hs, hex, hst, hc⟩
    · rw [heq]
      exact ih n hwf
    rw [hst]
    have hne : (r.slot i).state ≠ .free := by simp [hs]
    obtain ⟨hse, hsl⟩ := ih (n + 1) hc.wf
    refine ⟨.head (.clear i hne hc) hse, fun j => ?_⟩
    have hj := hsl j
    rw [hc.slot (lt_of_state hne)] at hj
    by_cases hij : i = j
    · subst hij
      rw [if_pos rfl] at hj
      rcases hj with hj | ⟨hfr, -⟩
      · exact .inr ⟨hs, hex, r.freeHead, hj⟩
      · exact absurd hfr (by simp [Slot.cleared])
    · rw [if_neg hij] at hj
      have he : (r.clearSlot i).expired = r.expired := by
        unfold expired
        rw [hc.config]
      rcases hj with hj | ⟨hs', he', hnx⟩
      · exact .inl hj
      · exact .inr ⟨hs', he ▸ he', hnx⟩

theorem expire_spec (hwf : r.Wf) (now : Time) : Steps r (r.expire now).2 ∧
    ∀ j, Expires r now (r.slot j) ((r.expire now).2.slot j) :=
  foldl_expireSlot now _ 0 hwf

/-! ### PurgePeer -/

section Detach
variable (hwf : r.Wf) (ha : (r.slot i).Active)
include hwf ha

/-- The index still has the slot when its key is removed. -/
theorem detached_unindexed : ∃ t, (r.setSlot i { r.slot i with detached := true }).removeKey
      (r.slot i).key = (r.setSlot i { r.slot i with detached := true }).withIndex t ∧
    Indexed (r.withIndex t) fun j => j ≠ i ∧ (r.slot j).Active := by
  have hkey : ∀ j, ((r.setSlot i { r.slot i with detached := true }).slot j).key =
      (r.slot j).key := by
    intro j
    rw [slot_of_set rfl (lt_of_active ha)]
    split
    · next hij => rw [← hij]
    · rfl
  have hid : Indexed (r.setSlot i { r.slot i with detached := true })
      fun j => (r.slot j).Active :=
    hwf.index.congr (fun _ => Iff.rfl) rfl rfl (length_setSlot _) fun j _ => hkey j
  obtain ⟨t, ht, -, hix⟩ := removeKey_spec hid ha
  rw [hkey] at ht
  refine ⟨t, ht, ?_⟩
  exact hix.congr (fun _ => Iff.rfl) rfl rfl (length_setSlot _).symm fun j _ => (hkey j).symm

private theorem detach_eq : ∃ t c, Retired r i t c ∧ ((r.setSlot i
    { r.slot i with detached := true }).removeKey (r.slot i).key).uncount i = { r with
      slots := r.slots.set i { r.slot i with detached := true, counted := false }
      keySlots := t, peerCounts := c } := by
  have hi := lt_of_active ha
  obtain ⟨t, ht, hid⟩ := detached_unindexed hwf ha
  obtain ⟨c, hc, hclen, hcn⟩ := uncount_spec
    (r := (r.setSlot i { r.slot i with detached := true }).withIndex t) (i := i)
    (by simpa [withIndex] using hi)
  have hso : ((r.setSlot i { r.slot i with detached := true }).withIndex t).slot i =
      { r.slot i with detached := true } := slot_setSlot_self hi
  rw [hso] at hc hcn
  refine ⟨t, c, ⟨hid, hclen, ?_⟩, ?_⟩
  · intro p
    simp only [← (hwf.each i hi).counted]
    exact hcn p
  · rw [ht, hc]
    simp [setSlot, withIndex]

theorem detach_spec (hs : (r.slot i).state = .completed) :
    Detaches r i (((r.setSlot i { r.slot i with detached := true }).removeKey
      (r.slot i).key).uncount i) := by
  have hi := lt_of_active ha
  obtain ⟨t, c, hr, heq⟩ := detach_eq hwf ha
  have hin : ¬ ({ r.slot i with detached := true, counted := false } : Slot).Active :=
    fun h => absurd h.2 (by simp)
  have hold := hwf.each i hi
  have hok : ({ r.slot i with detached := true, counted := false } : Slot).Ok r.config :=
    ⟨hold.buf, hold.frags, hold.full, hold.packet, fun _ => hs, ⟨by simp, fun h => absurd h hin⟩,
      fun h => absurd h hin⟩
  rw [heq]
  refine ⟨?_, rfl, rfl, rfl, fun p => ?_⟩
  · exact Retired.wf hr hwf hi rfl rfl rfl hok hin (hwf.free.keep ha.1 rfl ha.1 rfl)
  · have hp := hr.count p
    simp only [ha, true_and] at hp
    exact hp

end Detach

inductive Purges (peer : ℕ) (s : Slot) : Slot → Prop
  | same : Purges peer s s
  | detached : s.Active → s.key.peerID = peer → s.state = .completed →
    Purges peer s { s with detached := true, counted := false }
  | cleared (next : Option ℕ) : s.state = .assembling → s.key.peerID = peer →
    Purges peer s (s.cleared next)

private theorem purgeSlot_cases (hwf : r.Wf) (peer n i : ℕ) : purgeSlot peer (n, r) i = (n, r) ∨
    ∃ r', purgeSlot peer (n, r) i = (n + 1, r') ∧ Step r r' ∧ i < r.slots.length ∧
      ∃ s', r'.slots = r.slots.set i s' ∧ Purges peer (r.slot i) s' ∧ ¬ s'.Active := by
  unfold purgeSlot
  dsimp only
  split
  · exact .inl rfl
  rename_i h
  simp only [not_or, not_not, Bool.not_eq_true] at h
  have ha : (r.slot i).Active := ⟨h.1, h.2.2⟩
  have hi := lt_of_active ha
  split
  · next hs =>
    have hd := detach_spec hwf ha hs
    exact .inr ⟨_, rfl, .detach i ha hd, hi, _, hd.slots, .detached ha h.2.1 hs,
      fun h => absurd h.2 (by simp)⟩
  · next hs =>
    have hc := clearSlot_spec hwf ha.1
    exact .inr ⟨_, rfl, .clear i ha.1 hc, hi, _, hc.slots,
      .cleared _ (assembling_of ha.1 hs) h.2.1, fun h => h.1 rfl⟩

private theorem foldl_purgeSlot (peer : ℕ) (l : List ℕ) (n : ℕ) (hwf : r.Wf) :
    Steps r (l.foldl (purgeSlot peer) (n, r)).2 ∧
      ∀ j, Purges peer (r.slot j) ((l.foldl (purgeSlot peer) (n, r)).2.slot j) := by
  induction l generalizing n r with
  | nil => exact ⟨.refl, fun j => .same⟩
  | cons i l ih =>
    rw [foldl_cons]
    rcases purgeSlot_cases hwf peer n i with heq | ⟨r', hr', hst, hi, _, hsl, hp, hid⟩
    · rw [heq]
      exact ih n hwf
    rw [hr']
    obtain ⟨hse, hr⟩ := ih (n + 1) (hst.wf hwf)
    refine ⟨.head hst hse, fun j => ?_⟩
    have hj := hr j
    rw [slot_of_set hsl hi] at hj
    by_cases hij : i = j
    · subst hij
      rw [if_pos rfl] at hj
      -- The slot is not active any more, so the rest of the scan leaves it alone.
      generalize (l.foldl (purgeSlot peer) (n + 1, r')).2.slot i = s at hj ⊢
      cases hj with
      | same => exact hp
      | detached ha => exact absurd ha hid
      | cleared _ hs =>
        cases hp with
        | same => exact absurd ⟨by simp [hs], (active_of_assembling hwf hs).2⟩ hid
        | detached _ _ hs' => exact absurd (hs'.symm.trans hs) (by simp)
        | cleared => exact absurd hs (by simp [Slot.cleared])
    · rw [if_neg hij] at hj
      exact hj

theorem purgePeer_spec (hwf : r.Wf) (peer : ℕ) : Steps r (r.purgePeer peer).2 ∧
    ∀ j, Purges peer (r.slot j) ((r.purgePeer peer).2.slot j) := by
  unfold purgePeer
  split
  · exact ⟨.refl, fun j => .same⟩
  · exact foldl_purgeSlot peer _ 0 hwf

theorem release_cases (hwf : r.Wf) (handle : SlotHandle) :
    (r.release handle = (.error .invalidHandle, r) ∧ ¬ ((r.slot handle.index).state = .completed ∧
      (r.slot handle.index).generation = handle.generation)) ∨
    (r.release handle = (.ok (), r.clearSlot handle.index) ∧
      ((r.slot handle.index).state = .completed ∧
        (r.slot handle.index).generation = handle.generation) ∧
      Clears r handle.index (r.clearSlot handle.index)) := by
  unfold Reassembler.release
  dsimp only
  split
  · next h =>
    refine .inl ⟨rfl, ?_⟩
    rintro ⟨hs, hg⟩
    simp [hs, hg] at h
  · next h =>
    simp only [not_or, not_not] at h
    exact .inr ⟨rfl, h, clearSlot_spec hwf (by simp [h.1])⟩

/-! ### Runs -/

inductive Call where
  | accept (now : Time) (key : Key) (record : Record)
  | expire (now : Time)
  | purgePeer (peer : ℕ)
  | release (handle : SlotHandle)

inductive Reply where
  | accept (reply : Except Error Result)
  | cleared (n : ℕ)
  | release (reply : Except Error Unit)

def Reassembler.call (r : Reassembler) : Call → Reply × Reassembler
  | .accept now key record =>
    (.accept (accept now key record r).1, (accept now key record r).2)
  | .expire now => (.cleared (r.expire now).1, (r.expire now).2)
  | .purgePeer peer => (.cleared (r.purgePeer peer).1, (r.purgePeer peer).2)
  | .release handle => (.release (r.release handle).1, (r.release handle).2)

def Reassembler.run (r : Reassembler) (calls : List Call) : Reassembler :=
  calls.foldl (fun r c => (r.call c).2) r

def Reassembler.replies (r : Reassembler) : List Call → List Reply
  | [] => []
  | c :: calls => (r.call c).1 :: (r.call c).2.replies calls

theorem Stored.steps {evicted : Option Key} {record : Record}
    {out : Except Error Result × Reassembler}
    (h : Stored r i evicted record out) : Steps r out.2 := by
  cases h with
  | refused => exact .refl
  | dropped _ _ hs => exact hs
  | duplicate => exact .refl
  | accepted hf => exact .single (.store i record hf)
  | completed len hf hfu hlen =>
    have hi := hf.lt
    have hsl : (r.setSlot i ((r.slot i).store record)).slot i = (r.slot i).store record :=
      slot_setSlot_self hi
    have hst := Step.complete (r := r.setSlot i ((r.slot i).store record)) i len
      (by rw [hsl]; exact hf.assembling) (by rw [hsl]; exact hfu)
      (by rw [hsl]; exact hlen)
    rw [hsl, setSlot_setSlot] at hst
    exact .head (.store i record hf) (.single hst)

theorem call_steps (hwf : r.Wf) (c : Call) : Steps r (r.call c).2 := by
  cases c with
  | accept now key record =>
    have h := accept_outcome hwf now key record
    show Steps r (accept now key record r).2
    generalize accept now key record r = out at h
    cases h with
    | refused _ _ hst => exact hst
    | stored _ _ _ _ hl hs => exact hl.steps.trans hs.steps
  | expire now => exact (expire_spec hwf now).1
  | purgePeer peer => exact (purgePeer_spec hwf peer).1
  | release handle =>
    show Steps r (r.release handle).2
    rcases release_cases hwf handle with ⟨h, -⟩ | ⟨h, ⟨hs, -⟩, hc⟩
    · rw [h]
    · rw [h]
      exact .single (.clear handle.index (by simp [hs]) hc)

theorem run_steps (hwf : r.Wf) (calls : List Call) : Steps r (r.run calls) := by
  induction calls generalizing r with
  | nil => exact .refl
  | cons c _ ih =>
    have hc := call_steps hwf c
    exact hc.trans (ih (Steps.wf hc hwf))

theorem run_wf (hwf : r.Wf) (calls : List Call) : (r.run calls).Wf :=
  Steps.wf (run_steps hwf calls) hwf

theorem run_config {config : Config} {hash : Key → UInt64} (hn : new config hash = .ok r)
    (hwf : r.Wf) (calls : List Call) : (r.run calls).config = config :=
  (Steps.config (run_steps hwf calls)).1.trans (new_config hn)

/-! ### The counters of the peers -/

/-- The counter of every peer is the number of its active slots. -/
def Exact (r : Reassembler) : Prop := ∀ p, (r.peerCount p).toNat = r.load p

/-- A slot leaves the counters together with the active slots. -/
theorem exact_leave {s : Slot} (hex : Exact r) (hi : i < r.slots.length)
    (hsl : r'.slots = r.slots.set i s) (hid : ¬ s.Active)
    (hc : ∀ p, r'.peerCount p = if (r.slot i).Active ∧ (r.slot i).key.peerID = p
      then countDown (r.peerCount p) else r.peerCount p) : Exact r' := by
  intro p
  have hp := hex p
  have hz : ¬ (s.Active ∧ s.key.peerID = p) := fun h => hid h.1
  rw [load_of_set hsl hi, hc, if_neg hz]
  split
  · rw [toNat_countDown]
    omega
  · exact hp

theorem Step.exact (h : Step r r') (hq : r.config.perPeerSlots < 4294967296)
    (hex : Exact r) : Exact r' := by
  cases h with
  | clear _ hs hc => exact exact_leave hex (lt_of_state hs) hc.slots (fun h => h.1 rfl) hc.count
  | start i now key count hi hfr _ hs =>
    intro p
    have hp := hex p
    have hid : ¬ ((r.slot i).Active ∧ (r.slot i).key.peerID = p) := fun h => h.1.1 hfr
    rw [load_of_set hs.slots hi, if_neg hid, hs.count]
    by_cases heq : key.peerID = p
    · subst heq
      have ho : ((r.slot i).started now key count (r.nextBorn + 1)).Active ∧
          ((r.slot i).started now key count (r.nextBorn + 1)).key.peerID = key.peerID := by
        simp [Slot.started, Slot.Active]
      rw [if_pos rfl, if_pos ho, UInt32.toNat_add]
      show ((r.peerCount key.peerID).toNat + 1) % 4294967296 = _
      omega
    · have hz : ¬ (((r.slot i).started now key count (r.nextBorn + 1)).Active ∧
          ((r.slot i).started now key count (r.nextBorn + 1)).key.peerID = p) := fun h => heq h.2
      rw [if_neg heq, if_neg hz]
      omega
  | store i record hf =>
    intro p
    have hi := hf.lt
    have hl : (r.setSlot i ((r.slot i).store record)).load p = r.load p :=
      load_setSlot hi Iff.rfl rfl
    rw [hl]
    exact hex p
  | complete i len hs =>
    intro p
    have hac : ((r.slot i).completed len).Active ↔ (r.slot i).Active := by
      simp [Slot.completed, Slot.Active, hs]
    have hl : (r.setSlot i ((r.slot i).completed len)).load p = r.load p :=
      load_setSlot (lt_of_state (by simp [hs])) hac rfl
    rw [hl]
    exact hex p
  | detach _ ha hd =>
    refine exact_leave hex (lt_of_active ha) hd.slots (fun h => absurd h.2 (by simp)) ?_
    intro p
    rw [hd.count]
    simp [ha]

theorem Steps.exact (h : Steps r r') (hq : r.config.perPeerSlots < 4294967296)
    (hex : Exact r) : Exact r' := by
  induction h with
  | refl => exact hex
  | tail hs hst ih =>
    apply hst.exact _ ih
    rw [(Steps.config hs).1]
    exact hq

theorem load_new {config : Config} {hash : Key → UInt64} (h : new config hash = .ok r) (p : ℕ) :
    r.load p = 0 := by
  obtain ⟨_, hfr⟩ := new_wf h
  unfold load
  rw [countP_eq_zero]
  intro s hs
  obtain ⟨i, hi, rfl⟩ := getElem_of_mem hs
  have hsl := hfr i
  rw [slot_eq_getElem hi] at hsl
  simp [Slot.Active, hsl]

theorem new_exact {config : Config} {hash : Key → UInt64} (h : new config hash = .ok r) :
    Exact r := by
  obtain ⟨hwf, _⟩ := new_wf h
  intro p
  have hz := load_new h p
  have hle := hwf.load p
  omega

theorem call_reply (hwf : r.Wf) (c : Call) (p : Panic) :
    (r.call c).1 ≠ .accept (.error (.panicked p)) := by
  intro hr
  cases c with
  | expire | purgePeer | release => cases hr
  | accept now key record =>
    have h := accept_outcome hwf now key record
    have hr : (accept now key record r).1 = .error (.panicked p) := Reply.accept.inj hr
    generalize accept now key record r = out at h hr
    cases h with
    | refused _ he =>
      obtain rfl := Except.error.inj hr
      rcases he with he | ⟨he, -⟩
      · cases he
      · cases he
    | stored _ _ _ _ _ _ hok =>
      obtain ⟨_, hre⟩ := hok
      exact absurd (hre.symm.trans hr) (by simp)

private theorem replies_no_panic (hwf : r.Wf) (calls : List Call) (p : Panic) :
    Reply.accept (.error (.panicked p)) ∉ r.replies calls := by
  induction calls generalizing r with
  | nil => simp [replies]
  | cons c _ ih =>
    simp only [replies, mem_cons, not_or]
    exact ⟨Ne.symm (call_reply hwf c p), ih (Steps.wf (call_steps hwf c) hwf)⟩

/-- In every run of a reassembler whose quota fits its counters, the free list is exactly the
free slots, the counters are exactly the active slots and within the quota, active slots differ
in their keys, and no call panics. -/
theorem run_invariant {config : Config} {hash : Key → UInt64} (hnew : new config hash = .ok r)
    (hquota : config.perPeerSlots < 4294967296) (calls : List Call) :
    FreeList (r.run calls) ∧ (∀ p, ((r.run calls).peerCount p).toNat = (r.run calls).load p ∧
        (r.run calls).load p ≤ config.perPeerSlots) ∧
      (∀ i j, ((r.run calls).slot i).Active → ((r.run calls).slot j).Active →
        ((r.run calls).slot i).key = ((r.run calls).slot j).key → i = j) ∧
      ∀ p, Reply.accept (.error (.panicked p)) ∉ r.replies calls := by
  obtain ⟨hwf, -⟩ := new_wf hnew
  have hcfg := new_config hnew
  have hste := run_steps hwf calls
  have hrun := run_wf hwf calls
  refine ⟨hrun.free, fun p => ?_, hrun.index.keys, fun p => replies_no_panic hwf calls p⟩
  have hex := Steps.exact hste (by rw [hcfg]; exact hquota) (new_exact hnew) p
  have hle := hrun.quota p
  rw [(Steps.config hste).1, hcfg] at hle
  exact ⟨hex, by omega⟩

def sampleConfig : Config :=
  { slots := 2, maxPacketSize := 4, maxPeers := 2, perPeerSlots := 1, lifetime := 10 }

/-- The first of two fragments under the sequence `n`. -/
def firstHalf (n : UInt32) : Record :=
  ⟨⟨0, 2, 0, 1, n, 0⟩, [7]⟩

theorem run_invariant_sample : ∃ r, new sampleConfig hashKey = .ok r ∧
    sampleConfig.perPeerSlots < 4294967296 ∧
    FreeList (r.run [.accept 0 ⟨0, 1, 0, 5⟩ (firstHalf 5), .accept 1 ⟨0, 1, 0, 6⟩ (firstHalf 6),
      .purgePeer 0]) := by
  obtain ⟨r, hr⟩ : ∃ r, new sampleConfig hashKey = .ok r := ⟨_, rfl⟩
  exact ⟨r, hr, by decide, (run_invariant hr (by decide) _).1⟩

/-! A quota that the 32-bit counters do not hold: the counter of a peer wraps to zero. -/

def wideConfig : Config :=
  { slots := 4294967296, maxPacketSize := 2, maxPeers := 1, perPeerSlots := 4294967296
    lifetime := 1 }

def wideCall (n : ℕ) : Call := .accept 0 ⟨0, 1, 0, UInt32.ofNat n⟩ (firstHalf (UInt32.ofNat n))

/-- All slots in use are assembling slots of the sequences below `n`. -/
structure Filling (n : ℕ) (r : Reassembler) : Prop where
  wf : r.Wf
  config : r.config = wideConfig
  count : r.peerCount 0 = UInt32.ofNat n
  load : r.load 0 = n
  slots : ∀ i, (r.slot i).state ≠ .free → (r.slot i).Active ∧ (r.slot i).key.peerID = 0 ∧
    (r.slot i).key.laneSequence.toNat < n

theorem Filling.head (h : Filling n r) (hn : n < 4294967296) : ∃ i, r.freeHead = some i := by
  cases hh : r.freeHead with
  | some i => exact ⟨i, rfl⟩
  | none =>
    obtain ⟨-, hu⟩ := takeFreeSlot_none h.wf hh
    have hal : r.load 0 = r.slots.length := by
      unfold Reassembler.load
      rw [countP_eq_length]
      intro s hs
      obtain ⟨i, hi, rfl⟩ := getElem_of_mem hs
      obtain ⟨ha, hp, -⟩ := h.slots i (hu i hi)
      rw [slot_eq_getElem hi] at ha hp
      simp [ha, hp]
    have hlen : r.slots.length = 4294967296 := by
      rw [h.wf.length, h.config]
      rfl
    have := h.load
    omega

theorem Filling.next (h : Filling n r) (hn : n < 4294967296) :
    Filling (n + 1) (r.call (wideCall n)).2 := by
  obtain ⟨i, hi⟩ := h.head hn
  obtain ⟨⟨hlt, hfr⟩, -⟩ := freeList_head h.wf.free hi
  have htoN : (UInt32.ofNat n).toNat = n := by exact Nat.mod_eq_of_lt hn
  have hr : Acceptable r.config ⟨0, 1, 0, UInt32.ofNat n⟩ (firstHalf (UInt32.ofNat n)) := by
    rw [h.config]
    constructor <;> simp [firstHalf, wideConfig]
  have hne : ∀ j, (r.slot j).Active → (r.slot j).key ≠ ⟨0, 1, 0, UInt32.ofNat n⟩ := by
    intro j hj hk
    obtain ⟨-, -, hlt⟩ := h.slots j hj.1
    rw [hk] at hlt
    have hlt : (UInt32.ofNat n).toNat < n := hlt
    omega
  have hq : (r.peerCount 0).toNat < r.config.perPeerSlots := by
    rw [h.count, h.config, htoN]
    exact hn
  have hpr : 0 < r.config.maxPeers := by
    rw [h.config]
    decide
  have hrm : ¬ Crowded r ⟨0, 1, 0, UInt32.ofNat n⟩ :=
    not_or.mpr ⟨Nat.not_le.mpr hq, by simp [hi]⟩
  have hsl : HasSlot r ⟨0, 1, 0, UInt32.ofNat n⟩ := by
    unfold HasSlot
    rw [if_neg (Nat.not_le.mpr hq)]
    exact ⟨i, hlt, by simp [hfr]⟩
  rcases accept_allocates 0 h.wf hpr (by simp) hr hne with
    ⟨_, ev, r1, -, hv, hac⟩ | ⟨hno, -⟩
  case inr => exact absurd hsl hno
  obtain ⟨-, hi', hs⟩ := hv.resolve_right fun h => hrm h.1
  obtain rfl := Option.mem_unique hi hi'
  have hsl1 : r1.slot i = (r.slot i).started 0 ⟨0, 1, 0, UInt32.ofNat n⟩ 2 (r.nextBorn + 1) := by
    rw [slot_of_set hs.slots hlt, if_pos rfl]
    rfl
  have hr1 : Acceptable r1.config ⟨0, 1, 0, UInt32.ofNat n⟩ (firstHalf (UInt32.ofNat n)) := by
    rw [hs.config]
    exact hr
  have hf : Fits r1.config (r1.slot i) (firstHalf (UInt32.ofNat n)) := by
    rw [hsl1]
    exact fits_started hr1
  have hi1 := hf.lt
  have hnone : ((r1.slot i).store (firstHalf (UInt32.ofNat n))).frags.any Option.isNone = true := by
    rw [hsl1]
    simp [Slot.store, Slot.started, firstHalf]
  have hcall : (r.call (wideCall n)).2 =
      r1.setSlot i ((r1.slot i).store (firstHalf (UInt32.ofNat n))) := by
    show (accept 0 _ _ r).2 = _
    rw [hac, storeRecord_accepted ev hf hnone]
  have hwf' : (r.call (wideCall n)).2.Wf := Steps.wf (call_steps h.wf _) h.wf
  rw [hcall] at hwf' ⊢
  refine ⟨hwf', hs.config.trans h.config, ?_, ?_, ?_⟩
  · show r1.peerCount 0 = _
    rw [hs.count, if_pos rfl, h.count]
    exact (UInt32.ofNat_add n 1).symm
  · have hl : (r1.setSlot i ((r1.slot i).store (firstHalf (UInt32.ofNat n)))).load 0 =
        r1.load 0 := load_setSlot hi1 Iff.rfl rfl
    have hid : ¬ ((r.slot i).Active ∧ (r.slot i).key.peerID = 0) := fun h => h.1.1 hfr
    rw [hl, load_of_set hs.slots hlt, if_neg hid, h.load]
    simp [Slot.started, Slot.Active]
  · intro j hj
    rw [slot_of_set rfl hi1] at hj ⊢
    by_cases hij : i = j
    · rw [if_pos hij, hsl1]
      refine ⟨by simp [Slot.store, Slot.started, Slot.Active], rfl, ?_⟩
      show (UInt32.ofNat n).toNat < n + 1
      omega
    · rw [if_neg hij, slot_of_set hs.slots hlt, if_neg hij] at hj ⊢
      obtain ⟨ha, hp, _⟩ := h.slots j hj
      exact ⟨ha, hp, by omega⟩

theorem run_append (r : Reassembler) (calls calls' : List Call) :
    r.run (calls ++ calls') = (r.run calls).run calls' := foldl_append ..

theorem filling_run (h : Filling 0 r) (hn : n ≤ 4294967296) :
    Filling n (r.run ((List.range n).map wideCall)) := by
  induction n with
  | zero => exact h
  | succ n ih =>
    rw [range_succ, map_append, run_append]
    exact (ih (by omega)).next (by omega)

/-- With a quota of `2 ^ 32` the counter of a peer reads zero while all its slots are in use. -/
theorem run_invariant_wide : ∃ r calls, new wideConfig = .ok r ∧ wideConfig.Valid ∧
    ((r.run calls).peerCount 0).toNat ≠ (r.run calls).load 0 := by
  have hval : wideConfig.Valid := by decide
  obtain ⟨r, hr⟩ : ∃ r, new wideConfig = .ok r := by exact ⟨_, rfl⟩
  obtain ⟨hwf, hfree⟩ := new_wf hr
  have hcfg : r.config = wideConfig := new_config hr
  have hex := new_exact hr 0
  have hload := load_new hr 0
  have hsta : Filling 0 r := by
    refine ⟨hwf, hcfg, ?_, hload, fun i hi => absurd (hfree i) hi⟩
    apply UInt32.toNat_inj.mp
    rw [hex, hload]
    rfl
  have hfull := filling_run hsta (Nat.le_refl 4294967296)
  refine ⟨r, (List.range 4294967296).map wideCall, hr, hval, ?_⟩
  rw [hfull.count, hfull.load]
  decide

/-! ### The key index along a run -/

private theorem findKey_iff {key : Key} (hwf : r.Wf) :
    r.findKey key = some i ↔ (r.slot i).Active ∧ (r.slot i).key = key := by
  constructor
  · exact findKey_some hwf
  · rintro ⟨ha, rfl⟩
    exact findKey_active hwf ha

/-- The loop of `deleteKeyPosition` on the table of `r`, which has no bound of its own, stops
with the table `t`. -/
def DeleteStops (r : Reassembler) (position : ℕ) (t : List (Option ℕ)) : Prop :=
  Probe.Shifts r.home (r.keySlots.set position none) position
    (Probe.next r.keySlots.length position) t

/-- After every run, with any hash function, the index finds exactly the active slot of a key.
The loop that deletes an entry stops, with the table of the model, and it stops from any other
table as well. -/
theorem findKey_run {config : Config} {hash : Key → UInt64} (hnew : new config hash = .ok r)
    (calls : List Call) :
    (∀ key i, (r.run calls).findKey key = some i ↔
      ((r.run calls).slot i).Active ∧ ((r.run calls).slot i).key = key) ∧
    (∀ key, (r.run calls).findKey key = none ↔
      ∀ i, ((r.run calls).slot i).Active → ((r.run calls).slot i).key ≠ key) ∧
    (∀ position i, (r.run calls).keySlots[position]? = some (some i) →
      DeleteStops (r.run calls) position ((r.run calls).deleteKeyPosition position).keySlots) ∧
    ∀ (m : Reassembler) (position : ℕ), position < m.keySlots.length →
      ∃ t, DeleteStops m position t := by
  obtain ⟨hwf, -⟩ := new_wf hnew
  have hrun := run_wf hwf calls
  refine ⟨fun key i => findKey_iff hrun, fun key => ?_, fun position i hi => ?_, ?_⟩
  · constructor
    · exact fun hf i ha => findKey_none hrun hf ha
    · intro hnone
      cases hf : (r.run calls).findKey key with
      | none => rfl
      | some i =>
        obtain ⟨ha, hk⟩ := findKey_some hrun hf
        exact absurd hk (hnone i ha)
  · obtain ⟨_, he⟩ := hrun.index.empty
    exact Probe.delete_shifts hrun.index.ok hi he
  · intro m position hp
    apply Probe.shifts_exists
    · simp [hp]
    · rw [length_set]
      exact Probe.next_lt hp

theorem findKey_run_sample : ∃ r, new sampleConfig (fun _ => 3) = .ok r ∧
    (∀ key, (r.run [.accept 0 ⟨0, 1, 0, 5⟩ (firstHalf 5), .accept 0 ⟨1, 1, 0, 6⟩ (firstHalf 6),
      .purgePeer 0]).findKey key = none ↔ ∀ i, ((r.run [.accept 0 ⟨0, 1, 0, 5⟩ (firstHalf 5),
        .accept 0 ⟨1, 1, 0, 6⟩ (firstHalf 6), .purgePeer 0]).slot i).Active →
      ((r.run [.accept 0 ⟨0, 1, 0, 5⟩ (firstHalf 5), .accept 0 ⟨1, 1, 0, 6⟩ (firstHalf 6),
        .purgePeer 0]).slot i).key ≠ key) := by
  obtain ⟨r, hr⟩ : ∃ r, new sampleConfig (fun _ => 3) = .ok r := ⟨_, rfl⟩
  exact ⟨r, hr, (findKey_run hr _).2.1⟩

end WgFrag.Data.Reassembly
