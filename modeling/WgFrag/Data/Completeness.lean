import WgFrag.Data.Fragment
import WgFrag.Data.Integrity

/-! Every packet that was split is put together again, in whatever order its fragments come
and however often. -/
namespace WgFrag.Data.Reassembly
open WgFrag.Lib Reassembler Fragment List

variable {r r' : Reassembler} {i j : ℕ} {key : Key} {first now : Time}
  {packet : Bytes} {metadata : Metadata} {records seen : List Record} {record : Record}
variable {s : Slot} {c : Call} {limit : Time}

/-- The key of the packet's fragments, as they come from `peer`. -/
def keyOf (peer : ℕ) (metadata : Metadata) : Key :=
  ⟨peer, metadata.dataSessionID, metadata.laneID, metadata.laneSequence⟩

theorem cuts_key (hcuts : Cuts packet metadata records) (hr : record ∈ records) :
    record.key = keyOf 0 metadata := by
  obtain ⟨hsession, hl, hs⟩ := hcuts.metadata record hr
  unfold Record.key keyOf
  rw [hsession, hl, hs]

/-- The slot holds those of the packet's fragments that are in `seen`. -/
structure Partly (key : Key) (first : Time) (records seen : List Record) (s : Slot) : Prop where
  active : s.Active
  key : s.key = key
  firstSeen : s.firstSeen = first
  count : s.count.toNat = records.length
  frags : s.frags.length = records.length
  present : ∀ (k : ℕ) record, records[k]? = some record → record ∈ seen →
    s.frags[k]?.join = some (extent record) ∧ s.bytes (extent record) = record.data
  absent : ∀ (k : ℕ) record, records[k]? = some record → record ∉ seen → s.frags[k]?.join = none
  state : s.state = .completed ↔ ∀ record ∈ records, record ∈ seen

/-- How a fragment is taken when those in `seen` came before it. -/
structure Takes (packet : Bytes) (records seen : List Record) (record : Record)
    (out : Except Error Result × Reassembler) : Prop where
  duplicate : record ∈ seen → ∃ evicted, out.1 = .ok ⟨.duplicate, evicted⟩
  accepted : record ∉ seen → (∃ other ∈ records, other ∉ record :: seen) →
    ∃ evicted, out.1 = .ok ⟨.accepted, evicted⟩
  completed : record ∉ seen → (∀ other ∈ records, other ∈ record :: seen) →
    ∃ p evicted, out.1 = .ok ⟨.completed p, evicted⟩ ∧ out.2.data p = packet

theorem Partly.congr {seen' : List Record} (h : Partly key first records seen s)
    (hmem : ∀ record, record ∈ seen ↔ record ∈ seen') : Partly key first records seen' s := by
  refine ⟨h.active, h.key, h.firstSeen, h.count, h.frags, ?_, ?_, ?_⟩
  · intro k record hk hse
    exact h.present k record hk ((hmem record).mpr hse)
  · intro k record hk hse
    exact h.absent k record hk fun hs => hse ((hmem record).mp hs)
  · rw [h.state]
    simp only [hmem]

/-! ### Putting one fragment into the slot -/

theorem cuts_acceptable {c : Config} {peer : ℕ} (hcuts : Cuts packet metadata records)
    (hmax : packet.length ≤ c.maxPacketSize) (hr : record ∈ records) :
    Acceptable c (keyOf peer metadata) record := by
  obtain ⟨hsession, hl, hs⟩ := hcuts.metadata record hr
  obtain ⟨ho, _⟩ := hcuts.range record hr
  have ht := hcuts.total record hr
  obtain ⟨hpos, hc⟩ := hcuts.count
  have hc : records.length ≤ 16 := hc
  obtain ⟨k, hk⟩ := mem_iff_getElem?.mp hr
  have hlt := lt_of_get hk
  have hi := hcuts.index k record hk
  refine ⟨hsession, hl, hs, ⟨?_, ?_⟩, ?_, ho, by omega⟩
  · rw [UInt8.le_iff_toNat_le]
    simpa [ht] using hpos
  · rw [UInt8.le_iff_toNat_le]
    simpa [ht] using hc
  · rw [UInt8.lt_iff_toNat_lt]
    omega

theorem Partly.frag {x : Extent} {k : ℕ} (h : Partly key first records seen s)
    (hx : s.frags[k]?.join = some x) :
    ∃ record, records[k]? = some record ∧ record ∈ seen ∧ x = extent record := by
  have hk : k < records.length := by
    rw [← h.frags]
    exact lt_of_frag hx
  have hg := getElem?_eq_getElem hk
  by_cases hs : records[k] ∈ seen
  · have hp := (h.present k _ hg hs).1
    exact ⟨records[k], hg, hs, Option.mem_unique hx hp⟩
  · rw [h.absent k _ hg hs] at hx
    cases hx

theorem Partly.assembling (h : Partly key first records seen s)
    (hr : record ∈ records) (hn : record ∉ seen) : s.state = .assembling := by
  exact assembling_of h.active.1 fun hs => hn (h.state.mp hs record hr)

theorem Partly.fits {c : Config} (h : Partly key first records seen s)
    (hcuts : Cuts packet metadata records) (hmax : packet.length ≤ c.maxPacketSize)
    (hr : record ∈ records) (hn : record ∉ seen) : Fits c s record := by
  obtain ⟨k, hk⟩ := mem_iff_getElem?.mp hr
  have ha : Acceptable c (keyOf 0 metadata) record := cuts_acceptable hcuts hmax hr
  refine ⟨h.assembling hr hn, ?_, ha.index, ?_, ?_, ha.nonempty, ha.bound⟩
  · rw [← UInt8.toNat_inj, h.count, hcuts.total record hr]
  · rw [hcuts.index k record hk]
    exact h.absent k record hk hn
  unfold overlaps
  rw [any_eq_false]
  intro f hf
  cases f with
  | none => simp
  | some y =>
    obtain ⟨j, hj⟩ := mem_iff_getElem?.mp hf
    obtain ⟨other, hot, hs, rfl⟩ := h.frag (show s.frags[j]?.join = some y by simp [hj])
    have hne : k ≠ j := by
      rintro rfl
      rw [hk] at hot
      obtain rfl := Option.some.inj hot
      exact hn hs
    have hap := hcuts.apart hk hot hne
    intro ho
    have ho : (extent record).offset < (extent other).stop ∧
        (extent other).offset < (extent record).stop := by simpa using ho
    unfold Extent.stop extent at ho
    dsimp only at ho
    omega

/-- The slot after the record went into it, but for its state. -/
theorem Partly.store_present {c : Config} (h : Partly key first records seen s)
    (hcuts : Cuts packet metadata records) (hb : s.buf.length = c.maxPacketSize)
    (hf : Fits c s record) (hr : record ∈ records) {k : ℕ} {other : Record}
    (hk : records[k]? = some other) :
    (other ∈ record :: seen → (s.store record).frags[k]?.join = some (extent other) ∧
      (s.store record).bytes (extent other) = other.data) ∧
    (other ∉ record :: seen → (s.store record).frags[k]?.join = none) := by
  obtain ⟨hneB, holB⟩ := store_bytes hb hf
  have hfg := store_frag (h.frags.trans h.count.symm) hf k
  obtain ⟨n, hn⟩ := mem_iff_getElem?.mp hr
  rw [hcuts.index n record hn] at hfg
  by_cases hnk : n = k
  · subst hnk
    rw [hn] at hk
    obtain rfl := Option.some.inj hk
    rw [if_pos rfl] at hfg
    exact ⟨fun _ => ⟨hfg, hneB⟩, fun hno => absurd (mem_cons_self ..) hno⟩
  · rw [if_neg hnk] at hfg
    have hne : other ≠ record := by
      rintro rfl
      exact hnk (hcuts.nodup hn hk)
    rw [hfg]
    constructor
    · intro hmem
      have hmem := (mem_cons.mp hmem).resolve_left hne
      obtain ⟨hp, hby⟩ := h.present k other hk hmem
      exact ⟨hp, (holB k _ hp).trans hby⟩
    · intro hmem
      exact h.absent k other hk fun hs => hmem (mem_cons_of_mem _ hs)

/-- Chaining finds the fragments in the order in which the packet was cut. -/
theorem contiguousLoop_tiled {frags : List (Option Extent)} {used : List ℕ} {start stop : ℕ}
    (pre : List Record) (records : List Record) (ht : Tiled records start stop)
    (hu : ∀ k, k ∈ used ↔ k < pre.length) (hlen : frags.length = (pre ++ records).length)
    (hfr : ∀ (k : ℕ) record, (pre ++ records)[k]? = some record →
      frags[k]?.join = some (extent record)) :
    contiguousLoop frags records.length used start = some stop := by
  induction records generalizing pre used start with
  | nil =>
    obtain rfl : start = stop := ht
    rfl
  | cons record _ ih =>
    obtain ⟨ho, ht⟩ := ht
    have hg := hfr pre.length record (by simp)
    have hf : (List.range frags.length).find? (fun k =>
        k ∉ used ∧ (frags[k]?.join.map Extent.offset) = some start) = some pre.length := by
      rw [find?_range_eq_some]
      refine ⟨?_, ?_, ?_⟩
      · simp [hu, hg, extent, ho]
      · simp [hlen]
      · intro k hk
        simp [hu, hk]
    rw [length_cons, contiguousLoop, hf]
    dsimp only
    rw [hg]
    apply ih (pre ++ [record]) ht
    · intro k
      rw [mem_cons, hu, length_append, length_singleton]
      omega
    · rw [hlen]
      simp
    · intro k other hk
      apply hfr k other
      simpa using hk

theorem contiguous_of_all (hcuts : Cuts packet metadata records)
    (hc : s.count.toNat = records.length) (hlen : s.frags.length = records.length)
    (ha : ∀ (k : ℕ) record, records[k]? = some record → s.frags[k]?.join = some (extent record) ∧
      s.bytes (extent record) = record.data) :
    s.frags.any Option.isNone = false ∧ contiguousLength s = some packet.length ∧
      s.buf.take packet.length = packet := by
  refine ⟨?_, ?_, ?_⟩
  · rw [any_eq_false]
    intro f hf
    obtain ⟨k, hk⟩ := mem_iff_getElem?.mp hf
    have hlt := lt_of_get hk
    have hg := getElem?_eq_getElem (show k < records.length by omega)
    have hs := (ha k _ hg).1
    rw [hk] at hs
    have hs : f = some _ := hs
    simp [hs]
  · unfold contiguousLength
    rw [hc]
    exact contiguousLoop_tiled [] records hcuts.tiled (by simp) hlen fun k rec hk => (ha k rec hk).1
  · have hp : ∀ record ∈ records,
        (s.buf.drop record.header.offset.toNat).take record.data.length = record.data := by
      intro record hr
      obtain ⟨k, hk⟩ := mem_iff_getElem?.mp hr
      exact (ha k record hk).2
    obtain ⟨-, hb⟩ := tiled_bytes hcuts.tiled hp
    rw [hcuts.whole] at hb
    simpa using hb

private theorem storeRecord_duplicate (evicted : Option Key)
    (hc : (r.slot i).count = record.header.fragmentCount)
    (hf : (r.slot i).frags[record.header.fragmentIndex.toNat]?.join = some (extent record))
    (hb : (r.slot i).bytes (extent record) = record.data) :
    storeRecord i evicted record r = (.ok ⟨.duplicate, evicted⟩, r) := by
  unfold storeRecord
  simp only [Eff.bind_apply, Eff.get_apply, if_neg (not_not.mpr hc), hf]
  rw [if_pos ⟨trivial, hb⟩]
  rfl

theorem Partly.storeRecord (h : Partly key first records seen (r.slot i)) (hwf : r.Wf)
    (hcuts : Cuts packet metadata records) (hmax : packet.length ≤ r.config.maxPacketSize)
    (hr : record ∈ records) (evicted : Option Key) :
    Takes packet records seen record (storeRecord i evicted record r) ∧
      Partly key first records (record :: seen)
        ((Reassembly.storeRecord i evicted record r).2.slot i) := by
  obtain ⟨k, hk⟩ := mem_iff_getElem?.mp hr
  have hi := lt_of_active h.active
  have hcn : (r.slot i).count = record.header.fragmentCount := by
    rw [← UInt8.toNat_inj, h.count, hcuts.total record hr]
  by_cases hse : record ∈ seen
  · obtain ⟨hfg, hb⟩ := h.present k record hk hse
    rw [← hcuts.index k record hk] at hfg
    rw [storeRecord_duplicate evicted hcn hfg hb]
    refine ⟨⟨fun _ => ⟨evicted, rfl⟩, fun hno => absurd hse hno, fun hno => absurd hse hno⟩,
      h.congr fun other => ?_⟩
    rw [mem_cons]
    constructor
    · exact .inr
    · rintro (rfl | ho)
      · exact hse
      · exact ho
  · have hf := h.fits hcuts hmax hr hse
    have hst := fun (n : ℕ) (other : Record) (hn : records[n]? = some other) =>
      h.store_present hcuts (hwf.each i hi).buf hf hr hn
    have hlen : ((r.slot i).store record).frags.length = records.length := by
      rw [store_frags_length]
      exact h.frags
    by_cases ha : ∀ other ∈ records, other ∈ record :: seen
    · have hc' : ((r.slot i).store record).count.toNat = records.length := h.count
      obtain ⟨hfu, hc, hd⟩ := contiguous_of_all hcuts hc' hlen fun n other hn =>
        (hst n other hn).1 (ha other (mem_of_getElem? hn))
      rw [storeRecord_completed evicted hf hfu hc]
      refine ⟨⟨fun hs => absurd hs hse, ?_, ?_⟩, ?_⟩
      · rintro - ⟨other, ho, hno⟩
        exact absurd (ha other ho) hno
      · intro _ _
        refine ⟨_, evicted, rfl, ?_⟩
        unfold Reassembler.data
        rw [slot_setSlot_self hi]
        exact hd
      · rw [slot_setSlot_self hi]
        refine ⟨⟨by simp [Slot.completed], h.active.2⟩, h.key, h.firstSeen, h.count, hlen, ?_, ?_,
          ⟨fun _ => ha, fun _ => rfl⟩⟩
        · exact fun n other hn => (hst n other hn).1
        · exact fun n other hn => (hst n other hn).2
    · have hm : ∃ other ∈ records, other ∉ record :: seen := by simpa using ha
      obtain ⟨other, ho, hno⟩ := hm
      obtain ⟨n, hn⟩ := mem_iff_getElem?.mp ho
      have hnone : ((r.slot i).store record).frags.any Option.isNone = true := by
        have hlt : n < ((r.slot i).store record).frags.length := by
          rw [hlen]
          exact lt_of_get hn
        have hjoin := (hst n other hn).2 hno
        rw [getElem?_eq_getElem hlt] at hjoin
        rw [any_eq_true]
        exact ⟨_, getElem_mem hlt, by simpa using hjoin⟩
      rw [storeRecord_accepted evicted hf hnone]
      refine ⟨⟨fun hs => absurd hs hse, fun _ _ => ⟨evicted, rfl⟩, fun _ h => absurd h ha⟩, ?_⟩
      rw [slot_setSlot_self hi]
      refine ⟨h.active, h.key, h.firstSeen, h.count, hlen, ?_, ?_, ?_⟩
      · exact fun n other hn => (hst n other hn).1
      · exact fun n other hn => (hst n other hn).2
      constructor
      · intro hs
        exact absurd (hs.symm.trans hf.assembling) (by simp)
      · exact fun h => absurd h ha

/-! ### The calls of a run -/

theorem accept_live (hwf : r.Wf) (ha : (r.slot i).Active)
    (hsession : (r.slot i).key.dataSessionID ≠ 0) (hr : Acceptable r.config (r.slot i).key record)
    (hl : (r.slot i).state = .assembling → r.expired (r.slot i) now = false) :
    accept now (r.slot i).key record r = storeRecord i none record r := by
  have hp := (hwf.each i (lt_of_active ha)).peer ha
  have he : ¬ ((r.slot i).state = .assembling ∧ r.expired (r.slot i) now = true) := by
    rintro ⟨hs, he⟩
    rw [hl hs] at he
    cases he
  have hlo : locate now (r.slot i).key record.header.fragmentCount r =
      (.ok (some (i, none)), r) := by
    unfold locate liveSlot
    simp only [Eff.bind_apply, Eff.get_apply, findKey_active hwf ha, if_neg he, Eff.pure_apply]
  unfold accept
  simp only [Eff.bind_apply, Eff.get_apply, validateKey_of hp hsession,
    validateRecord_ok.mpr hr, hlo]

theorem accept_first (now : Time) (hwf : r.Wf) (hp : key.peerID < r.config.maxPeers)
    (hsession : key.dataSessionID ≠ 0) (hr : Acceptable r.config key record)
    (hne : ∀ j, (r.slot j).Active → (r.slot j).key ≠ key) (hsl : HasSlot r key) :
    ∃ i evicted r1, Allocated r now key record.header.fragmentCount i evicted r1 ∧
      accept now key record r = storeRecord i evicted record r1 := by
  rcases accept_allocates now hwf hp hsession hr hne with
    ⟨i, evicted, r1, hal, -, ha⟩ | ⟨hn, -⟩
  · exact ⟨i, evicted, r1, hal, ha⟩
  · exact absurd hsl hn

theorem partly_started {count : UInt8} {born : UInt64}
    (hcuts : Cuts packet metadata records) (hc : count.toNat = records.length) :
    Partly key now records [] (s.started now key count born) := by
  refine ⟨⟨by simp [Slot.started], rfl⟩, rfl, rfl, hc, ?_, by simp, ?_, ?_⟩
  · simp [Slot.started, hc]
  · intro k _ _ _
    exact frags_started ..
  constructor
  · intro hs
    cases hs
  · intro ha
    have hpos := hcuts.count.1
    exact absurd (ha _ (getElem_mem hpos)) (by simp)

/-- The calls that may come between the fragments of a packet: its fragments again, less than
the lifetime after the first one, and whatever leaves the slot of their key alone. -/
def Allowed (key : Key) (records : List Record) (limit : Time) (r : Reassembler) : Call → Prop
  | .accept now k record =>
    if k = key then record ∈ records ∧ now < limit else evicts now k record r ≠ some key
  | .expire now => ∀ i, (r.slot i).Active → (r.slot i).key = key →
    (r.slot i).state = .assembling → r.expired (r.slot i) now = false
  | .purgePeer peer => peer ≠ key.peerID
  | .release handle => ∀ i, (r.slot i).Active → (r.slot i).key = key →
    handle ≠ ⟨i, (r.slot i).generation⟩

theorem allowed_own : Allowed key records limit r (.accept now key record) ↔
    record ∈ records ∧ now < limit := by
  simp [Allowed]

theorem allowed_other {k : Key} (hk : k ≠ key) :
    Allowed key records limit r (.accept now k record) ↔ evicts now k record r ≠ some key := by
  simp [Allowed, hk]

def Interleaved (key : Key) (records : List Record) (limit : Time) :
    Reassembler → List Call → Prop
  | _, [] => True
  | r, c :: calls => Allowed key records limit r c ∧
    Interleaved key records limit (r.call c).2 calls

def brings (key : Key) : Call → List Record
  | .accept _ k record => if k = key then [record] else []
  | _ => []

def arrived (key : Key) (calls : List Call) : List Record := calls.flatMap (brings key)

def Call.key? : Call → Option Key
  | .accept _ key _ => some key
  | _ => none

def Reply.isCompleted : Reply → Bool
  | .accept (.ok ⟨.completed _, _⟩) => true
  | _ => false

def completions (key : Key) : Reassembler → List Call → ℕ
  | _, [] => 0
  | r, c :: calls => (if c.key? = some key ∧ (r.call c).1.isCompleted then 1 else 0) +
    completions key (r.call c).2 calls

theorem Allowed.frame (h : Allowed key records limit r c)
    (hot : c.key? ≠ some key) (hwf : r.Wf) (ha : (r.slot i).Active) (hkey : (r.slot i).key = key) :
    (r.call c).2.slot i = r.slot i := by
  cases c with
  | accept now k record =>
    have hk : k ≠ key := by simpa [Call.key?] using hot
    have he := (allowed_other hk).mp h
    have hou := accept_outcome hwf now k record
    show (accept now k record r).2.slot i = r.slot i
    generalize accept now k record r = out at hou ⊢
    cases hou with
    | refused _ _ _ hsl =>
      rcases hsl i with heq | ⟨-, hw⟩
      · exact heq
      rcases hw ha with hk' | hev
      · exact absurd (hk'.symm.trans hkey) hk
      · rw [hkey] at hev
        exact absurd hev he
    | stored n _ _ hev hl hst =>
      cases hl with
      | live _ _ hkey' =>
        apply hst.others
        rintro rfl
        exact hk (hkey'.symm.trans hkey)
      | fresh _ _ _ _ _ _ hb he' ho =>
        by_cases hin : i = n
        · subst hin
          have hso := he' (assembling_of ha.1 hb) (by rw [hkey]; exact Ne.symm hk)
          rw [hkey] at hso
          exact absurd (hev.trans hso) he
        · rw [hst.others hin]
          rcases ho i hin with heq | ⟨-, hkey', -⟩
          · exact heq
          · exact absurd (hkey'.symm.trans hkey) hk
  | expire now =>
    have h : ∀ i, (r.slot i).Active → (r.slot i).key = key →
      (r.slot i).state = .assembling → r.expired (r.slot i) now = false := h
    rcases (expire_spec hwf now).2 i with heq | ⟨hs, hex, -⟩
    · exact heq
    · rw [h i ha hkey hs] at hex
      cases hex
  | purgePeer peer =>
    have h : peer ≠ key.peerID := h
    have hp := (purgePeer_spec hwf peer).2 i
    show (r.purgePeer peer).2.slot i = r.slot i
    generalize (r.purgePeer peer).2.slot i = s' at hp
    have hpr : (r.slot i).key.peerID ≠ peer := by
      rw [hkey]
      exact Ne.symm h
    cases hp with
    | same => rfl
    | detached _ hp => exact absurd hp hpr
    | cleared _ _ hp => exact absurd hp hpr
  | release handle =>
    have h : ∀ i, (r.slot i).Active → (r.slot i).key = key →
      handle ≠ ⟨i, (r.slot i).generation⟩ := h
    show (r.release handle).2.slot i = r.slot i
    rcases release_cases hwf handle with ⟨hr, -⟩ | ⟨hr, ⟨hs, hg⟩, hc⟩
    · rw [hr]
    · rw [hr, hc.slot (lt_of_state (by simp [hs])), if_neg]
      rintro rfl
      exact h _ ha hkey (by rw [hg])

theorem Interleaved.append {pre post : List Call}
    (h : Interleaved key records limit r (pre ++ c :: post)) :
    Interleaved key records limit r pre ∧ Allowed key records limit (r.run pre) c := by
  induction pre generalizing r with
  | nil => exact ⟨trivial, h.1⟩
  | cons _ _ ih =>
    obtain ⟨hp, hc⟩ := ih h.2
    exact ⟨⟨h.1, hp⟩, hc⟩

theorem Call.eq_accept (h : c.key? = some key) : ∃ now record, c = .accept now key record := by
  cases c with
  | accept now _ record =>
    obtain rfl := Option.some.inj h
    exact ⟨now, record, rfl⟩
  | expire | purgePeer | release => cases h

theorem brings_accept : brings key (.accept now key record) = [record] := if_pos rfl

theorem brings_other (h : c.key? ≠ some key) : brings key c = [] := by
  cases c with
  | accept =>
    apply if_neg
    rintro rfl
    exact h rfl
  | expire | purgePeer | release => rfl

theorem arrived_cons (key : Key) (c : Call) (calls : List Call) :
    arrived key (c :: calls) = brings key c ++ arrived key calls := flatMap_cons

theorem Takes.congr {seen' : List Record} {out : Except Error Result × Reassembler}
    (h : Takes packet records seen record out)
    (hmem : ∀ record, record ∈ seen ↔ record ∈ seen') : Takes packet records seen' record out := by
  have hcons : ∀ other, other ∈ record :: seen ↔ other ∈ record :: seen' := by simp [hmem]
  refine ⟨?_, ?_, ?_⟩
  · rw [← hmem]
    exact h.duplicate
  · simp only [← hmem, ← hcons]
    exact h.accepted
  · simp only [← hmem, ← hcons]
    exact h.completed

theorem Takes.completions {calls : List Call}
    (h : Takes packet records seen record (accept now key record r)) (hr : record ∈ records)
    (hle : completions key (r.call (.accept now key record)).2 calls ≤ 1)
    (ho : Reassembly.completions key (r.call (.accept now key record)).2 calls = 1 ↔
      (∀ other ∈ records, other ∈ arrived key calls ++ ([record] ++ seen)) ∧
        ¬ ∀ other ∈ records, other ∈ [record] ++ seen) :
    Reassembly.completions key r (.accept now key record :: calls) ≤ 1 ∧
      (Reassembly.completions key r (.accept now key record :: calls) = 1 ↔
        (∀ other ∈ records, other ∈ arrived key (.accept now key record :: calls) ++ seen) ∧
          ¬ ∀ other ∈ records, other ∈ seen) := by
  have ha : (∀ other ∈ records, other ∈ arrived key calls ++ ([record] ++ seen)) ↔
      ∀ other ∈ records, other ∈ arrived key (.accept now key record :: calls) ++ seen := by
    simp only [arrived_cons, brings_accept, mem_append, or_left_comm, or_assoc]
  rw [ha] at ho
  rw [Reassembly.completions]
  by_cases hse : record ∈ seen
  · obtain ⟨evicted, hre⟩ := h.duplicate hse
    have heq : (∀ other ∈ records, other ∈ [record] ++ seen) ↔
        ∀ other ∈ records, other ∈ seen := by
      constructor
      · intro h other hot
        rcases mem_cons.mp (h other hot) with rfl | hs
        · exact hse
        · exact hs
      · exact fun h other hot => mem_cons_of_mem _ (h other hot)
    rw [heq] at ho
    rw [if_neg (by simp [Reassembler.call, hre, Reply.isCompleted]), Nat.zero_add]
    exact ⟨hle, ho⟩
  · have hm : ¬ ∀ other ∈ records, other ∈ seen := fun h => hse (h record hr)
    by_cases hl : ∀ other ∈ records, other ∈ record :: seen
    · obtain ⟨_, evicted, hre, -⟩ := h.completed hse hl
      rw [if_pos (by simp [Call.key?, Reassembler.call, hre, Reply.isCompleted])]
      have hn : Reassembly.completions key (r.call (.accept now key record)).2 calls ≠ 1 :=
        fun h => (ho.mp h).2 hl
      have hcome : ∀ other ∈ records,
          other ∈ arrived key (.accept now key record :: calls) ++ seen := by
        rw [← ha]
        exact fun other hot => mem_append_right _ (hl other hot)
      exact ⟨by omega, ⟨fun _ => ⟨hcome, hm⟩, fun _ => by omega⟩⟩
    · obtain ⟨_, hre⟩ := h.accepted hse (by simpa using hl)
      rw [if_neg (by simp [Reassembler.call, hre, Reply.isCompleted]), Nat.zero_add]
      refine ⟨hle, ?_⟩
      rw [ho]
      exact ⟨fun h => ⟨h.1, hm⟩, fun h => ⟨h.1, hl⟩⟩

section Run
variable {peer : ℕ} (hcuts : Cuts packet metadata records) (hsession : metadata.dataSessionID ≠ 0)
  (hkey : keyOf peer metadata = key) (hwf : r.Wf) (hmax : packet.length ≤ r.config.maxPacketSize)
  (h : Partly key first records seen (r.slot i))
include hcuts hsession hkey hwf hmax h

theorem Partly.accept (hr : record ∈ records) (hn : now < first + r.config.lifetime) :
    Takes packet records seen record (accept now key record r) ∧
      Partly key first records (record :: seen) ((Reassembly.accept now key record r).2.slot i) ∧
      ∀ j, j ≠ i → (Reassembly.accept now key record r).2.slot j = r.slot j := by
  subst hkey
  have hk := h.key
  have hl : (r.slot i).state = .assembling → r.expired (r.slot i) now = false := by
    intro _
    simpa [expired, h.firstSeen] using hn
  have hrun : Reassembly.accept now (keyOf peer metadata) record r =
      Reassembly.storeRecord i none record r := by
    rw [← hk]
    apply accept_live hwf h.active _ _ hl
    · rw [hk]
      exact hsession
    · rw [hk]
      exact cuts_acceptable hcuts hmax hr
  rw [hrun]
  obtain ⟨htk, hnx⟩ := h.storeRecord hwf hcuts hmax hr none
  have hre : Acceptable r.config (keyOf peer metadata) record := cuts_acceptable hcuts hmax hr
  exact ⟨htk, hnx, fun j hj => (storeRecord_stored none hwf h.active hre).others hj⟩

theorem Partly.call {c : Call} (hc : Allowed key records (first + r.config.lifetime) r c) :
    Partly key first records (brings key c ++ seen) ((r.call c).2.slot i) := by
  by_cases ho : c.key? ≠ some key
  · rw [brings_other ho, hc.frame ho hwf h.active h.key]
    exact h
  obtain ⟨_, _, rfl⟩ := Call.eq_accept (not_not.mp ho)
  have hc := allowed_own.mp hc
  rw [brings_accept]
  exact (h.accept hcuts hsession hkey hwf hmax hc.1 hc.2).2.1

theorem Partly.run {calls : List Call}
    (hc : Interleaved key records (first + r.config.lifetime) r calls) :
    Partly key first records (arrived key calls ++ seen) ((r.run calls).slot i) := by
  induction calls generalizing r seen with
  | nil => exact h
  | cons c _ ih =>
    have hs := call_steps hwf c
    have hcf := (Steps.config hs).1
    have hnx := h.call hcuts hsession hkey hwf hmax hc.1
    have hr := ih (Steps.wf hs hwf) (by rw [hcf]; exact hmax) hnx
      (by rw [hcf]; exact hc.2)
    apply hr.congr
    simp only [mem_append, arrived_cons]
    tauto

/-- The packet is completed once, when its last fragment has come. -/
theorem Partly.completions {calls : List Call}
    (hca : Interleaved key records (first + r.config.lifetime) r calls) :
    completions key r calls ≤ 1 ∧ (Reassembly.completions key r calls = 1 ↔
      (∀ record ∈ records, record ∈ arrived key calls ++ seen) ∧
        ¬ ∀ record ∈ records, record ∈ seen) := by
  induction calls generalizing r seen with
  | nil => simp [Reassembly.completions, arrived]
  | cons c _ ih =>
    have hs := call_steps hwf c
    have hcf := (Steps.config hs).1
    have hnx := h.call hcuts hsession hkey hwf hmax hca.1
    obtain ⟨hle, ho⟩ := ih (Steps.wf hs hwf) (by rw [hcf]; exact hmax) hnx
      (by rw [hcf]; exact hca.2)
    by_cases hot : c.key? ≠ some key
    · rw [brings_other hot, nil_append] at ho
      rw [Reassembly.completions, if_neg fun h => hot h.1, Nat.zero_add, arrived_cons,
        brings_other hot, nil_append]
      exact ⟨hle, ho⟩
    · obtain ⟨_, _, rfl⟩ := Call.eq_accept (not_not.mp hot)
      have hc := allowed_own.mp hca.1
      rw [brings_accept] at ho
      exact (h.accept hcuts hsession hkey hwf hmax hc.1 hc.2).1.completions hc.1 hle ho

theorem Partly.takes {pre post : List Call}
    (hca : Interleaved key records (first + r.config.lifetime) r
      (pre ++ .accept now key record :: post)) :
    Takes packet records (arrived key pre ++ seen) record
      (Reassembly.accept now key record (r.run pre)) := by
  obtain ⟨hp, hc⟩ := hca.append
  have hcf := (Steps.config (run_steps hwf pre)).1
  rw [← hcf] at hc hmax
  have hc := allowed_own.mp hc
  have hat := h.run hcuts hsession hkey hwf (hcf ▸ hmax) hp
  exact (hat.accept hcuts hsession hkey (run_wf hwf pre) hmax hc.1 hc.2).1

omit h in
theorem accept_partly (now : Time) (hp : key.peerID < r.config.maxPeers) (hr : record ∈ records)
    (hn : ∀ j, (r.slot j).Active → (r.slot j).key ≠ key) (hsl : HasSlot r key) :
    Takes packet records [] record (accept now key record r) ∧
      ∃ i, Partly key now records [record] ((accept now key record r).2.slot i) ∧
        ∀ j, j ≠ i → (accept now key record r).2.slot j = r.slot j := by
  subst hkey
  have ha : Acceptable r.config (keyOf peer metadata) record := cuts_acceptable hcuts hmax hr
  obtain ⟨i, evicted, r1, hal, hrun⟩ := accept_first now hwf hp hsession ha hn hsl
  obtain ⟨_, hb⟩ := hal.slot
  have hpa : Partly (keyOf peer metadata) now records [] (r1.slot i) := by
    rw [hb]
    exact partly_started hcuts (hcuts.total record hr)
  have hmax1 : packet.length ≤ r1.config.maxPacketSize := by
    rw [(Steps.config hal.steps).1]
    exact hmax
  rw [hrun]
  have hwf1 := Steps.wf hal.steps hwf
  obtain ⟨htk, hnx⟩ := hpa.storeRecord hwf1 hcuts hmax1 hr evicted
  refine ⟨htk, i, hnx, fun j hj => ?_⟩
  have hre : Acceptable r1.config (keyOf peer metadata) record := cuts_acceptable hcuts hmax1 hr
  exact ((storeRecord_stored evicted hwf1 hpa.active hre).others hj).trans (hal.others j hj)

end Run

/-- Every fragment of a split packet is taken: as a duplicate if it came before, as the one that
completes the packet if it is the last one missing, as one more otherwise. The packet is
completed at most once, and once if all its fragments come. -/
theorem split_reassembled {config : Config} {hash : Key → UInt64} (hnew : new config hash = .ok r)
    (before : List Call) {options : Options} {output : ℕ} {result : Fragment.Result}
    (hsplit : split packet metadata options output = .ok result)
    (hmax : packet.length ≤ config.maxPacketSize) {peer : ℕ} (hpeer : peer < config.maxPeers)
    (hfresh : ∀ j, ((r.run before).slot j).Active →
      ((r.run before).slot j).key ≠ keyOf peer metadata)
    (hslot : HasSlot (r.run before) (keyOf peer metadata))
    (hfirst : record ∈ result.fragments) {calls : List Call}
    (hcalls : Interleaved (keyOf peer metadata) result.fragments (first + config.lifetime)
      ((r.run before).call (.accept first (keyOf peer metadata) record)).2 calls) :
    let run := .accept first (keyOf peer metadata) record :: calls
    (∀ pre now fragment post, run = pre ++ .accept now (keyOf peer metadata) fragment :: post →
      Takes packet result.fragments (arrived (keyOf peer metadata) pre) fragment
        (accept now (keyOf peer metadata) fragment ((r.run before).run pre))) ∧
    completions (keyOf peer metadata) (r.run before) run ≤ 1 ∧
    (completions (keyOf peer metadata) (r.run before) run = 1 ↔
      ∀ fragment ∈ result.fragments, fragment ∈ arrived (keyOf peer metadata) run) := by
  have his := split_isSplit hsplit
  have hcuts := his.cuts
  have hsession := his.session
  have hwf := run_wf (new_wf hnew).1 before
  have hcfg := run_config hnew (new_wf hnew).1 before
  generalize r.run before = r at hfresh hslot hcalls hwf hcfg ⊢
  subst hcfg
  obtain ⟨htk, _, hpar, -⟩ :=
    accept_partly hcuts hsession rfl hwf hmax first hpeer hfirst hfresh hslot
  have hste := call_steps hwf (.accept first (keyOf peer metadata) record)
  have hwf₁ := Steps.wf hste hwf
  have hcfg₁ := (Steps.config hste).1
  have hmax₁ : packet.length ≤
      (r.call (.accept first (keyOf peer metadata) record)).2.config.maxPacketSize := by
    rw [hcfg₁]
    exact hmax
  rw [← hcfg₁] at hcalls
  obtain ⟨hle, hone⟩ := hpar.completions hcuts hsession rfl hwf₁ hmax₁ hcalls
  refine ⟨?_, ?_⟩
  · intro pre now fragment post hrun
    cases pre with
    | nil =>
      obtain ⟨hcall, -⟩ := List.cons.inj hrun
      cases hcall
      exact htk
    | cons =>
      obtain ⟨rfl, rfl⟩ := List.cons.inj hrun
      apply (hpar.takes hcuts hsession rfl hwf₁ hmax₁ hcalls).congr
      intro other
      rw [arrived_cons, brings_accept, mem_append, mem_append, or_comm]
  · obtain ⟨hle, hone⟩ := htk.completions hfirst hle hone
    refine ⟨hle, hone.trans ?_⟩
    rw [append_nil]
    have hsome : ¬ ∀ other ∈ result.fragments, other ∈ ([] : List Record) :=
      fun h => absurd (h record hfirst) (by simp)
    exact ⟨fun h => h.1, fun h => ⟨h, hsome⟩⟩

/-- The second fragment again, and then the first, among calls for another peer. -/
def sampleCalls : List Call :=
  [.accept 3 ⟨1, 1, 0, 5⟩ (firstHalf 5), .accept 4 ⟨0, 1, 0, 5⟩ (secondHalf 5), .purgePeer 1,
    .accept 9 ⟨0, 1, 0, 5⟩ (firstHalf 5)]

theorem split_reassembled_sample : ∃ r, new sampleConfig hashKey = .ok r ∧
    split [7, 8] ⟨1, 0, 5⟩ ⟨13, 0, 1⟩ 16 = .ok ⟨[firstHalf 5, secondHalf 5], false⟩ ∧
    completions ⟨0, 1, 0, 5⟩ r (.accept 0 ⟨0, 1, 0, 5⟩ (secondHalf 5) :: sampleCalls) = 1 := by
  have hspl : split [7, 8] ⟨1, 0, 5⟩ ⟨13, 0, 1⟩ 16 =
      .ok ⟨[firstHalf 5, secondHalf 5], false⟩ := by decide
  refine ⟨_, rfl, hspl, ?_⟩
  have hnew : new sampleConfig hashKey = .ok _ := rfl
  apply (split_reassembled hnew [] hspl (by decide) (show 0 < sampleConfig.maxPeers by decide)
    ?_ ?_ (show secondHalf 5 ∈ _ by decide) (show Interleaved ⟨0, 1, 0, 5⟩
      [firstHalf 5, secondHalf 5] (0 + 10) _ sampleCalls from ?_)).2.2.mpr
  · decide
  · intro j ha
    exact absurd ((new_wf hnew).2 j) ha.1
  · exact ⟨0, by decide, by decide⟩
  · refine ⟨(allowed_other (by decide)).mpr (by decide), allowed_own.mpr (by decide), ?_,
      allowed_own.mpr (by decide), trivial⟩
    show 1 ≠ 0
    decide

end WgFrag.Data.Reassembly
