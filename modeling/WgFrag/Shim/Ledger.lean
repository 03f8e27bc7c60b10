import WgFrag.Shim.Stream

/-! The account of the packets that are retained for closed gates: a ledger of what became of those
that are no longer retained, which the steps of the device keep. -/
namespace WgFrag.Shim
open WgFrag.Lib WgFrag.Data Limits List
open Fragment (Cuts)

/-! ### Retained packets under the steps -/

variable {s t : PeerState × Tx}

def PeerEvent.left : PeerEvent → List Bytes
  | .popped packet => [packet]
  | _ => []

theorem PeerDid.left {ev : PeerEvent} (h : PeerDid s ev t) :
    s.1.pending = ev.left ++ t.1.pending := by
  cases h with
  | popped hq => exact (PendingQueue.pop_some hq).1
  | refused | packed | flushed => rfl

namespace Device
variable {d d' : Device} {ev : Event} {log : List Event} {index i : ℕ} {peer : PeerState}

/-- The packets retained for the peer, oldest first. -/
def pendingOf (d : Device) (i : ℕ) : List Bytes := (d.peerFor i).elim [] PeerState.pending

theorem pendingOf_eq (hp : d.peerFor index = some peer) : d.pendingOf index = peer.pending := by
  unfold pendingOf
  rw [hp]
  rfl

theorem pendingOf_put_self (hp : d.peerFor index = some peer) :
    (d.put index s).pendingOf index = s.1.pending :=
  pendingOf_eq (peerFor_put_self (peerFor_lt hp))

theorem pendingOf_put_of_ne (h : i ≠ index) : (d.put index s).pendingOf i = d.pendingOf i := by
  unfold pendingOf
  rw [peerFor_put_of_ne h]

/-- The packets of the peer that a step no longer retains. -/
def Event.left (i : ℕ) : Event → List Bytes
  | .retained index _ lost => if index = i then lost.toList else []
  | .peer index ev => if index = i then ev.left else []
  | _ => []

theorem Did.balance (h : Did d ev d') (hd : d.Sound) (i : ℕ) :
    d.pendingOf i ++ ev.arrived i = ev.left i ++ d'.pendingOf i := by
  cases h with
  | dropped => exact append_nil _
  | @retained index peer packet _ hp _ hlen =>
    unfold Event.arrived Event.left
    dsimp only
    by_cases hi : index = i
    · subst hi
      rw [if_pos rfl, if_pos rfl, pendingOf_eq hp, pendingOf_put_self hp]
      exact enqueuePending_pending packet peer d.tx ((hd.get hp).1.slot ▸ hlen)
    · rw [if_neg hi, if_neg hi, pendingOf_put_of_ne (Ne.symm hi), append_nil]
      rfl
  | @peer index _ _ _ hp hd =>
    unfold Event.arrived Event.left
    dsimp only
    rw [append_nil]
    by_cases hi : index = i
    · subst hi
      rw [if_pos rfl, pendingOf_eq hp, pendingOf_put_self hp]
      exact hd.left
    · rw [if_neg hi, pendingOf_put_of_ne (Ne.symm hi)]
      rfl

/-- The retained packets are a queue: packets join at the end and leave in front. -/
theorem chain_balance (h : Chain Did d log d') (hs : d.Sound) (i : ℕ) :
    d.pendingOf i ++ log.flatMap (Event.arrived i) =
      log.flatMap (Event.left i) ++ d'.pendingOf i := by
  induction h with
  | nil => exact append_nil _
  | @cons _ _ _ _ _ hd _ ih =>
    rw [flatMap_cons, flatMap_cons, ← append_assoc, hd.balance hs, append_assoc,
      ih (hd.sound hs), append_assoc]

/-! ### The ledger -/

inductive Fate where
  /-- a newer packet took its place -/
  | overwritten
  | refused (e : TxError)
  | published (records : List Record)

/-- A packet that was retained for a peer, and what became of it. -/
structure Settled where
  index : ℕ
  packet : Bytes
  fate : Fate

/-- A packet whose records entered the ring. -/
structure Publication where
  index : ℕ
  packet : Bytes
  records : List Record
  /-- the packet had been retained -/
  retained : Bool

def Settled.overwritten (x : Settled) : Bool :=
  match x.fate with
  | .overwritten => true
  | _ => false

def Settled.refused (x : Settled) : Bool :=
  match x.fate with
  | .refused _ => true
  | _ => false

def Settled.publication (x : Settled) : Option Publication :=
  match x.fate with
  | .published records => some ⟨x.index, x.packet, records, true⟩
  | _ => none

/-- What a step settles. A packet that is refused or packed had been retained if a gate opens. -/
def Event.settled (opening : Bool) : Event → List Settled
  | .retained index _ lost => lost.toList.map fun packet => ⟨index, packet, .overwritten⟩
  | .peer index (.refused packet e) => if opening then [⟨index, packet, .refused e⟩] else []
  | .peer index (.packed packet _ _ records) =>
    if opening then [⟨index, packet, .published records⟩] else []
  | _ => []

def Event.published (opening : Bool) : Event → List Publication
  | .peer index (.packed packet _ _ records) => [⟨index, packet, records, opening⟩]
  | _ => []

namespace Event
variable (opening : Bool) (ev : Event) (i : ℕ)

theorem settled_publication : (ev.settled opening).filterMap Settled.publication =
    (ev.published opening).filter Publication.retained := by
  cases ev with
  | dropped => rfl
  | retained _ _ lost => cases lost <;> rfl
  | peer _ ev => cases ev <;> cases opening <;> rfl

theorem published_records : ((ev.published opening).filter (·.index == i)).flatMap
    Publication.records = ev.records i := by
  cases ev with
  | dropped => rfl
  | retained => rfl
  | peer index ev =>
    unfold records
    cases ev with
    | packed _ _ _ records =>
      dsimp only [published, PeerEvent.records]
      by_cases hi : index = i
      · rw [if_pos hi, filter_cons_of_pos (by simpa using hi)]
        exact append_nil _
      · rw [if_neg hi, filter_cons_of_neg (by simpa using hi)]
        rfl
    | popped => exact (ite_self _).symm
    | refused => exact (ite_self _).symm
    | flushed => exact (ite_self _).symm

theorem published_whole (h : ev.Whole) : ∀ p ∈ ev.published opening,
    ∃ metadata, Cuts (InnerIP.trim p.packet) metadata p.records := by
  cases ev with
  | dropped | retained => exact fun _ hp => absurd hp not_mem_nil
  | peer _ ev =>
    cases ev with
    | packed =>
      intro p hp
      obtain rfl := mem_singleton.mp hp
      exact h
    | popped | refused | flushed => exact fun _ hp => absurd hp not_mem_nil

/-- What is published and had not been retained was handed over. -/
theorem published_handed :
    (((ev.published false).filter (!·.retained)).map Publication.packet).Sublist ev.handed := by
  cases ev with
  | dropped | retained => exact nil_sublist _
  | peer _ ev =>
    cases ev with
    | packed => exact List.Sublist.refl _
    | popped | refused | flushed => exact nil_sublist _

theorem published_retained : (ev.published true).filter (!·.retained) = [] := by
  cases ev with
  | dropped | retained => rfl
  | peer _ ev => cases ev <;> rfl

/-- The step takes no packet out of the retained ones. -/
def Quiet (ev : Event) : Prop := ∀ index packet, ev ≠ .peer index (.popped packet)

variable {ev}

/-- Outside of openings only overwritten packets are settled. -/
theorem Quiet.settled (h : ev.Quiet) : ((ev.settled false).filter (·.index == i)).map
    Settled.packet = ev.left i ∧ (ev.settled false).countP Settled.refused = 0 := by
  cases ev with
  | dropped => exact ⟨rfl, rfl⟩
  | retained index _ lost =>
    cases lost with
    | none => exact ⟨(ite_self _).symm, rfl⟩
    | some =>
      refine ⟨?_, rfl⟩
      dsimp only [Event.settled, left]
      by_cases hi : index = i
      · rw [if_pos hi]
        simp [hi]
      · rw [if_neg hi]
        simp [hi]
  | peer index ev =>
    cases ev with
    | popped packet => exact absurd rfl (h index packet)
    | refused | packed | flushed => exact ⟨(ite_self _).symm, rfl⟩

end Event

theorem peerDid_counts {ev : PeerEvent} (h : PeerDid s ev t) (index : ℕ) :
    t.2.preconfirmDrops = s.2.preconfirmDrops ∧
    t.2.carrierQueueOverflows = s.2.carrierQueueOverflows ∧ t.2.txPacketDrops =
      s.2.txPacketDrops + (Event.settled true (.peer index ev)).countP Settled.refused := by
  cases h with
  | popped | refused => exact ⟨rfl, rfl, rfl⟩
  | packed _ _ _ _ _ _ hpk | flushed _ hpk =>
    obtain ⟨ho, hp, hd⟩ := hpk.gains.counters
    exact ⟨hp, ho, hd⟩

theorem Did.preconfirm (h : Did d ev d') (opening : Bool) : d'.tx.preconfirmDrops =
    d.tx.preconfirmDrops + (ev.settled opening).countP Settled.overwritten := by
  cases h with
  | dropped => rfl
  | @retained index peer packet hr hp hcl hlen =>
    show (enqueuePending packet peer d.tx).2.preconfirmDrops = _
    rw [enqueuePending_drops]
    cases peer.overwritten <;> rfl
  | @peer index peer ev _ _ hd =>
    have hn : (Event.settled opening (.peer index ev)).countP Settled.overwritten = 0 := by
      cases ev <;> cases opening <;> rfl
    rw [hn]
    exact (peerDid_counts hd index).1

theorem chain_preconfirm (h : Chain Did d log d') (opening : Bool) : d'.tx.preconfirmDrops =
    d.tx.preconfirmDrops + (log.flatMap (Event.settled opening)).countP Settled.overwritten := by
  induction h with
  | nil => rfl
  | cons hd _ ih =>
    rw [ih, hd.preconfirm opening, flatMap_cons, countP_append, Nat.add_assoc]

/-! ### Accounts -/

/-- From `d` to `d'` packets arrived to be retained, others were handed over directly, gates that
opened refused some, and carriers were taken from the ring. The ledger says what became of the
packets that are no longer retained, and `sent` which packets entered the ring. -/
structure Accounts (d d' : Device) (arrived : ℕ → List Bytes) (handed : List Bytes) (refusals : ℕ)
    (taken : List (PeerID × Bytes)) (ledger : List Settled) (sent : List Publication) : Prop where
  balance : ∀ i, d.pendingOf i ++ arrived i =
    (ledger.filter (·.index == i)).map Settled.packet ++ d'.pendingOf i
  overwritten : d'.tx.preconfirmDrops =
    d.tx.preconfirmDrops + ledger.countP Settled.overwritten
  refused : refusals = ledger.countP Settled.refused
  published : ledger.filterMap Settled.publication = sent.filter Publication.retained
  direct : ((sent.filter (!·.retained)).map Publication.packet).Sublist handed
  whole : ∀ p ∈ sent, ∃ metadata, Cuts (InnerIP.trim p.packet) metadata p.records
  stream : ∀ i, d.stream i ++ (sent.filter (·.index == i)).flatMap Publication.records =
    recordsFor i taken ++ d'.stream i

/-- The retained packets, the counter and the records are the same. -/
structure Alike (d d' : Device) : Prop where
  pending : ∀ i, d'.pendingOf i = d.pendingOf i
  preconfirm : d'.tx.preconfirmDrops = d.tx.preconfirmDrops
  stream : ∀ i, d'.stream i = d.stream i

namespace Accounts
variable {d₁ d₂ d₃ : Device} {arrived arrived' : ℕ → List Bytes} {handed handed' : List Bytes}
  {refusals refusals' : ℕ} {taken taken' : List (PeerID × Bytes)} {ledger ledger' : List Settled}
  {sent sent' : List Publication}

theorem taking (hpe : ∀ i, d₂.pendingOf i = d₁.pendingOf i)
    (hpr : d₂.tx.preconfirmDrops = d₁.tx.preconfirmDrops)
    (hs : ∀ i, d₁.stream i = recordsFor i taken ++ d₂.stream i) :
    Accounts d₁ d₂ (fun _ => []) [] 0 taken [] [] where
  balance i := by
    rw [hpe i]
    exact append_nil _
  overwritten := hpr
  refused := rfl
  published := rfl
  direct := List.Sublist.refl _
  whole _ hp := absurd hp not_mem_nil
  stream i := (append_nil _).trans (hs i)

theorem refl (d : Device) : Accounts d d (fun _ => []) [] 0 [] [] [] :=
  taking (fun _ => rfl) rfl fun _ => rfl

theorem trans (h : Accounts d₁ d₂ arrived handed refusals taken ledger sent)
    (h' : Accounts d₂ d₃ arrived' handed' refusals' taken' ledger' sent') :
    Accounts d₁ d₃ (fun i => arrived i ++ arrived' i) (handed ++ handed') (refusals + refusals')
      (taken ++ taken') (ledger ++ ledger') (sent ++ sent') where
  balance i := by
    rw [← append_assoc, h.balance, append_assoc, h'.balance, filter_append,
      map_append, append_assoc]
  overwritten := by rw [h'.overwritten, h.overwritten, countP_append, Nat.add_assoc]
  refused := by rw [h.refused, h'.refused, countP_append]
  published := by rw [filterMap_append, h.published, h'.published, filter_append]
  direct := by
    rw [filter_append, map_append]
    exact h.direct.append h'.direct
  whole p hp := by
    rcases mem_append.mp hp with hp | hp
    · exact h.whole p hp
    · exact h'.whole p hp
  stream i := by
    rw [filter_append, flatMap_append, ← append_assoc, h.stream, append_assoc,
      h'.stream, recordsFor_append, append_assoc]

theorem alike (h : Accounts d₁ d₂ arrived handed refusals taken ledger sent) (hlike : Alike d₁ d) :
    Accounts d d₂ arrived handed refusals taken ledger sent where
  balance i := by rw [hlike.pending, h.balance]
  overwritten := by rw [hlike.preconfirm, h.overwritten]
  refused := h.refused
  published := h.published
  direct := h.direct
  whole := h.whole
  stream i := by rw [hlike.stream, h.stream]

end Accounts

theorem flatMap_published (log : List Event) (opening : Bool) (i : ℕ) :
    ((log.flatMap (Event.published opening)).filter (·.index == i)).flatMap Publication.records =
      log.flatMap (Event.records i) := by
  rw [filter_flatMap, flatMap_assoc]
  exact flatMap_congr fun ev _ => ev.published_records opening i

theorem flatMap_publication (log : List Event) (opening : Bool) :
    (log.flatMap (Event.settled opening)).filterMap Settled.publication =
      (log.flatMap (Event.published opening)).filter Publication.retained := by
  rw [filterMap_flatMap, filter_flatMap]
  exact flatMap_congr fun ev _ => ev.settled_publication opening

theorem chain_published_whole (h : Chain Did d log d') (opening : Bool) :
    ∀ p ∈ log.flatMap (Event.published opening),
      ∃ metadata, Cuts (InnerIP.trim p.packet) metadata p.records := by
  intro p hp
  obtain ⟨ev, hev, hp⟩ := mem_flatMap.mp hp
  exact ev.published_whole opening (chain_whole h ev hev) p hp

theorem quiet_settled (hqt : ∀ ev ∈ log, ev.Quiet) (i : ℕ) :
    ((log.flatMap (Event.settled false)).filter (·.index == i)).map Settled.packet =
        log.flatMap (Event.left i) ∧
      (log.flatMap (Event.settled false)).countP Settled.refused = 0 := by
  induction log with
  | nil => exact ⟨rfl, rfl⟩
  | cons _ _ ih =>
    obtain ⟨hev, hl⟩ := forall_mem_cons.mp hqt
    obtain ⟨hp, hr⟩ := hev.settled i
    obtain ⟨ihpackets, ihrefused⟩ := ih hl
    rw [flatMap_cons, filter_append, map_append, flatMap_cons,
      countP_append, hp, ihpackets, hr, ihrefused]
    exact ⟨rfl, rfl⟩

private theorem published_sublist (log : List Event) :
    (((log.flatMap (Event.published false)).filter (!·.retained)).map
      Publication.packet).Sublist (log.flatMap Event.handed) := by
  induction log with
  | nil => exact List.Sublist.refl _
  | cons ev _ ih =>
    rw [flatMap_cons, filter_append, map_append, flatMap_cons]
    exact ev.published_handed.append ih

theorem chain_accounts (h : Chain Did d log d') (hd : d.Sound) (hqt : ∀ ev ∈ log, ev.Quiet) :
    Accounts d d' (fun i => log.flatMap (Event.arrived i)) (log.flatMap Event.handed) 0 []
      (log.flatMap (Event.settled false)) (log.flatMap (Event.published false)) where
  balance i := by rw [chain_balance h hd, (quiet_settled hqt i).1]
  overwritten := chain_preconfirm h false
  refused := (quiet_settled hqt 0).2.symm
  published := flatMap_publication log false
  direct := published_sublist log
  whole := chain_published_whole h false
  stream i := by
    rw [flatMap_published, ← chain_stream h hd]
    rfl

/-- The account of a batch that is dropped: nothing of it is sent. -/
theorem dropped_accounts {d'' : Device} (h : Chain Did d log d') (hd : d.Sound)
    (hqt : ∀ ev ∈ log, ev.Quiet)
    (hpe : ∀ i, d''.pendingOf i = d'.pendingOf i)
    (hpr : d''.tx.preconfirmDrops = d'.tx.preconfirmDrops)
    (hs : ∀ i, d''.stream i = d.stream i) (handed : List Bytes) :
    Accounts d d'' (fun i => log.flatMap (Event.arrived i)) handed 0 []
      (log.flatMap (Event.settled false)) [] where
  balance i := by rw [chain_balance h hd, hpe, (quiet_settled hqt i).1]
  overwritten := by rw [hpr, chain_preconfirm h false]
  refused := (quiet_settled hqt 0).2.symm
  published := by
    rw [flatMap_publication, filter_flatMap]
    apply flatMap_eq_nil_iff.mpr
    intro ev _
    cases ev with
    | dropped | retained => rfl
    | peer _ ev => cases ev <;> rfl
  direct := nil_sublist _
  whole _ hp := absurd hp not_mem_nil
  stream i := (append_nil _).trans (hs i).symm

end Device
end WgFrag.Shim
