import WgFrag.Data.Emission
import WgFrag.Data.Grammar
import Mathlib.Algebra.Order.Floor.Div

/-! The split of one packet is exact, and the carriers of a packetizer hold the records of the
packets it has taken, in order. -/
namespace WgFrag.Data
open WgFrag.Lib Limits List

/-! ### Splits -/

namespace Fragment
variable {packet : Bytes} {metadata : Metadata} {carrierPayload remaining minPack output : ℕ}
  {plan : Plan} {result : Result}

theorem ceilDiv_eq (n : ℕ) {d : ℕ} (hd : 0 < d) : ceilDiv n d = n ⌈/⌉ d := by
  obtain ⟨hc, _⟩ := ceilDiv_spec n hd
  apply Nat.le_antisymm
  · refine ceilDiv_le ?_
    rw [Nat.mul_comm]
    exact le_smul_ceilDiv hd
  · rw [ceilDiv_le_iff_le_smul hd, smul_eq_mul, Nat.mul_comm]
    exact hc

theorem splitLoop_head {full k : ℕ} (ht : plan.startInTail = true)
    {first : Record} (h : first ∈ (splitLoop packet metadata plan full k 0 0).1.head?) :
    first.data = packet.take (min plan.firstData packet.length) := by
  cases k with
  | zero => simp [splitLoop] at h
  | succ =>
    unfold splitLoop at h
    simp only [ht, and_self, if_true, head?_cons, Option.mem_some_iff] at h
    rw [← h]
    rfl

theorem length_flatten_le {pieces : List Bytes} {d : ℕ} (h : ∀ p ∈ pieces, p.length ≤ d) :
    pieces.flatten.length ≤ pieces.length * d := by
  induction pieces with
  | nil => simp
  | cons p _ ih =>
    have hp := h p (mem_cons_self ..)
    have hr := ih fun q hq => h q (mem_cons_of_mem _ hq)
    rw [flatten_cons, length_append, length_cons, Nat.succ_mul]
    omega

/-- The pieces make up the packet, and each fits into a carrier with its header. -/
def CutsInto (packet : Bytes) (carrierPayload : ℕ) (pieces : List Bytes) : Prop :=
  pieces.flatten = packet ∧ ∀ p ∈ pieces, headerSize + p.length ≤ carrierPayload

/-- A packet cut for a carrier with `remaining` bytes left. -/
structure ExactSplit (packet : Bytes) (metadata : Metadata) (carrierPayload remaining minPack : ℕ)
    (result : Result) : Prop where
  count : 1 ≤ result.fragments.length ∧ result.fragments.length ≤ maxFragments
  whole : result.fragments.flatMap Record.data = packet
  fits : ∀ record ∈ result.fragments, 1 ≤ record.data.length ∧
    (encodeRecord record).length = headerSize + record.data.length ∧
    headerSize + record.data.length ≤ carrierPayload
  numbered : ∀ i record, result.fragments[i]? = some record →
    record.header.fragmentIndex.toNat = i ∧
    record.header.fragmentCount.toNat = result.fragments.length ∧
    record.header.offset.toNat = ((result.fragments.take i).flatMap Record.data).length ∧
    record.header.dataSessionID = metadata.dataSessionID ∧
    record.header.laneID = metadata.laneID ∧ record.header.laneSequence = metadata.laneSequence
  tail : result.startInTail = true → ∀ first ∈ result.fragments.head?,
    headerSize + first.data.length ≤ remaining ∧ min packet.length minPack ≤ first.data.length
  least : result.startInTail = false → ∀ pieces, CutsInto packet carrierPayload pieces →
    result.fragments.length ≤ pieces.length
  chosen : headerSize + minPack ≤ remaining → (∃ first rest,
    CutsInto packet carrierPayload (first :: rest) ∧ headerSize + first.length ≤ remaining ∧
      (first :: rest).length ≤ maxFragments) → result.startInTail = true

private theorem tiled_offset {records : List Record} {start stop i : ℕ} {record : Record}
    (h : Tiled records start stop) (hi : records[i]? = some record) :
    record.header.offset.toNat = start + ((records.take i).flatMap Record.data).length := by
  induction records generalizing start i with
  | nil => simp at hi
  | cons _ _ ih =>
    obtain ⟨ho, hr⟩ := h
    cases i with
    | zero =>
      obtain rfl := Option.some.inj hi
      simpa using ho
    | succ =>
      rw [ih hr (by simpa using hi), take_succ_cons, flatMap_cons,
        length_append, Nat.add_assoc]

/-- A cut that begins in the tail bounds the number of fragments that follow the first. -/
theorem ceilDiv_tail {first : Bytes} {rest : List Bytes} (hca : headerSize < carrierPayload)
    (hc : CutsInto packet carrierPayload (first :: rest))
    (hfs : headerSize + first.length ≤ remaining) :
    ceilDiv (packet.length - min packet.length (remaining - headerSize))
      (carrierPayload - headerSize) ≤ rest.length := by
  obtain ⟨hflat, hf⟩ := hc
  have hr : rest.flatten.length ≤ rest.length * (carrierPayload - headerSize) := by
    apply length_flatten_le
    intro p hp
    have := hf p (mem_cons_of_mem _ hp)
    omega
  have hlen : packet.length = first.length + rest.flatten.length := by
    rw [← hflat, flatten_cons, length_append]
  apply ceilDiv_le
  omega

private theorem split_exactSplit
    (h : split packet metadata ⟨carrierPayload, remaining, minPack⟩ output = .ok result) :
    ExactSplit packet metadata carrierPayload remaining minPack result := by
  have hs := split_isSplit h
  have hc := hs.cuts
  have hca : headerSize < carrierPayload := hs.carrier
  obtain ⟨-, -, -, -, plan, hpl, -, hre, hcn⟩ := split_plan h
  dsimp only at hpl hre
  refine ⟨hs.count, hc.whole, fun record hr => ?_, fun i record hi => ?_, ?_, ?_, ?_⟩
  · exact ⟨(hc.range record hr).1, length_encodeRecord record, (hs.fits record hr).2⟩
  · have hmem := mem_of_getElem? hi
    have ho := tiled_offset hc.tiled hi
    rw [Nat.zero_add] at ho
    exact ⟨hc.index i record hi, hc.total record hmem, ho, hc.metadata record hmem⟩
  · intro ht first hfs
    refine ⟨hs.tail ht first hfs, ?_⟩
    have hst : plan.startInTail = true := by
      rw [hre] at ht
      exact ht
    rw [hre] at hfs
    rw [splitLoop_head hst hfs, length_take]
    rcases makePlan_cases hpl with ⟨rfl, -, _⟩ | ⟨rfl, -⟩
    · dsimp only
      omega
    · cases hst
  · intro ht pieces hpi
    obtain ⟨hflat, hf⟩ := hpi
    rw [hcn]
    rcases makePlan_cases hpl with ⟨rfl, -⟩ | ⟨rfl, -⟩
    · rw [hre] at ht
      cases ht
    apply ceilDiv_le
    rw [← hflat]
    apply length_flatten_le
    intro p hp
    have := hf p hp
    omega
  · rintro _ ⟨_, _, hcu, hfs, hfe⟩
    have ht := ceilDiv_tail hca hcu hfs
    rcases makePlan_cases hpl with ⟨rfl, -⟩ | ⟨-, -, hm⟩
    · rw [hre]
    · have := hm (by omega)
      rw [length_cons] at hfe
      omega

/-- A packet of a legal length can be cut exactly if its full records are at most sixteen, for
any data session but zero; how it is cut is exact. -/
theorem split_exact (packet : Bytes) (metadata : Metadata)
    (hpacket : 1 ≤ packet.length ∧ packet.length ≤ maxInnerMTU)
    (hpayload : 13 ≤ carrierPayload ∧ carrierPayload ≤ 65535)
    (hremaining : remaining ≤ carrierPayload) (hminPack : 1 ≤ minPack) (houtput : 16 ≤ output) :
    (metadata.dataSessionID = 0 →
      split packet metadata ⟨carrierPayload, remaining, minPack⟩ output = .error .dataSessionID) ∧
    (metadata.dataSessionID ≠ 0 →
      ((∃ result, split packet metadata ⟨carrierPayload, remaining, minPack⟩ output =
        .ok result) ↔ packet.length ⌈/⌉ (carrierPayload - 12) ≤ 16)) ∧
    ∀ result, split packet metadata ⟨carrierPayload, remaining, minPack⟩ output = .ok result →
      ExactSplit packet metadata carrierPayload remaining minPack result := by
  have hfull : 0 < carrierPayload - headerSize := by
    simp only [headerSize]
    omega
  refine ⟨fun hzero => ?_, fun hses => ⟨?_, fun hcnt => ?_⟩, fun result h => split_exactSplit h⟩
  · unfold split
    rw [if_neg (by omega), if_pos hzero]
  · rintro ⟨result, h⟩
    -- Full records are never more than those of the split at hand.
    have hex := split_exactSplit h
    have hcov : packet.length ≤ result.fragments.length * (carrierPayload - headerSize) := by
      have hpie := @length_flatten_le (result.fragments.map Record.data)
        (carrierPayload - headerSize) fun p hp => by
          obtain ⟨record, hr, rfl⟩ := mem_map.mp hp
          have := (hex.fits record hr).2.2
          omega
      rw [← flatMap_def, hex.whole, length_map] at hpie
      exact hpie
    have hle := Nat.le_trans (ceilDiv_le hcov) hex.count.2
    rw [ceilDiv_eq _ hfull] at hle
    exact hle
  · have hfew : ceilDiv packet.length (carrierPayload - headerSize) ≤ maxFragments := by
      rw [ceilDiv_eq _ hfull]
      exact hcnt
    exact split_total hpacket hses ⟨by simp only [headerSize]; omega, hpayload.2⟩ hremaining
      hminPack hfew houtput

/-- Thirty bytes after six that are taken: four bytes go into the tail. -/
theorem split_exact_sample : ∃ result,
    split (List.replicate 30 7) ⟨1, 0, 0⟩ ⟨22, 16, 4⟩ 16 = .ok result ∧
    result.startInTail = true ∧ result.fragments.length = 4 ∧
    ExactSplit (List.replicate 30 7) ⟨1, 0, 0⟩ 22 16 4 result := by
  refine ⟨_, rfl, rfl, rfl, ?_⟩
  exact (split_exact (List.replicate 30 7) ⟨1, 0, 0⟩ (by decide)
    (show 13 ≤ 22 ∧ 22 ≤ 65535 by decide) (show 16 ≤ 22 by decide) (show 1 ≤ 4 by decide)
    (Nat.le_refl 16)).2.2 _ rfl

end Fragment

/-! ### Streams of carriers -/

namespace Packetizer
open Fragment (Metadata Cuts split)

/-- The records of a payload, as the parser visits them. -/
def records (payload : Bytes) : Except RecordError (List Record) :=
  match parse (visitor fun r visited => visited ++ [r]) id payload [] with
  | (.ok (), visited) => .ok visited
  | (.error e, _) => .error e

theorem records_of_concatenates {payload : Bytes} {rs : List Record} (h : Concatenates payload rs) :
    records payload = .ok rs := by
  unfold Packetizer.records
  rw [h.parse, visitAll_collect, nil_append]

inductive Call where
  | add (packet : Bytes) (metadata : Metadata)
  | flush

variable {τ ε : Type} (emit : Bytes → Eff τ ε Unit)

def call (s : Packetizer × τ) : Call → Packetizer × τ
  | .add packet metadata => (add emit packet metadata s).2
  | .flush => (flush emit s).2

def run (calls : List Call) (s : Packetizer × τ) : Packetizer × τ := calls.foldl (call emit) s

def taken (s : Packetizer × τ) : Call → List (Bytes × Metadata)
  | .add packet metadata =>
    match (add emit packet metadata s).1 with
    | .ok () => [(packet, metadata)]
    | .error _ => []
  | .flush => []

def takes : List Call → Packetizer × τ → List (Bytes × Metadata)
  | [], _ => []
  | c :: calls, s => taken emit s c ++ takes calls (call emit s c)

/-- The carriers that the full records of the packets fill. -/
def needed (carrierPayload : ℕ) : List (Bytes × Metadata) → ℕ
  | [] => 0
  | a :: rest => a.1.length ⌈/⌉ (carrierPayload - headerSize) + needed carrierPayload rest

/-- The emitter takes every carrier, and `view` sees those it has taken. -/
def Reliable (emit : Bytes → Eff τ ε Unit) (view : τ → List Bytes) : Prop :=
  ∀ payload t, ∃ t', emit payload t = (.ok (), t') ∧ view t' = view t ++ [payload]

variable {emit} {view : τ → List Bytes} {limit minPack : ℕ} {sent : List (Bytes × Metadata)}
  {s : Packetizer × τ}

theorem Reliable.appends (h : Reliable emit view) : Appends emit view := by
  constructor
  · intro payload t t' hemit
    obtain ⟨_, hu, hv⟩ := h payload t
    rw [hu] at hemit
    cases hemit
    exact hv
  · intro payload t e t' hemit
    obtain ⟨_, hu, -⟩ := h payload t
    rw [hu] at hemit
    cases hemit

/-- What `n` more carriers may follow: the carriers begun so far leave room for them, and each is
within the limit. -/
def Within (view : τ → List Bytes) (limit total n : ℕ) (buffer : Bytes) (t : τ) : Prop :=
  (view t).length + n + (if buffer = [] then 0 else 1) ≤ total ∧
    ∀ carrier ∈ view t, carrier ≠ [] ∧ carrier.length ≤ limit

theorem Reliable.spends (h : Reliable emit view) (total : ℕ) :
    Spends emit limit (Within view limit total) := by
  constructor
  · rintro n buffer t ⟨hcn, ha⟩
    exact ⟨by omega, ha⟩
  · rintro n _ t _ ⟨hcn, ha⟩ hne hlen hemit
    rw [if_neg hne] at hcn
    refine ⟨?_, ?_⟩
    · rw [h.appends.ok hemit, length_append, length_singleton, if_pos rfl]
      omega
    intro carrier hc
    rw [h.appends.ok hemit] at hc
    rcases mem_append.mp hc with hc | hc
    · exact ha carrier hc
    · rw [mem_singleton.mp hc]
      exact ⟨hne, hlen⟩
  · rintro _ _ _ ⟨hcn, ha⟩
    refine ⟨?_, ha⟩
    split <;> omega
  · rintro _ _ _ _ ⟨hcn, ha⟩ hne
    rw [if_neg hne] at hcn
    refine ⟨?_, ha⟩
    rw [if_neg (by simp [hne])]
    exact hcn

/-- The state after the packets `sent`: the carriers and the buffer hold their records. -/
structure Streams (view : τ → List Bytes) (limit minPack : ℕ) (sent : List (Bytes × Metadata))
    (s : Packetizer × τ) : Prop where
  carrierPayload : s.1.carrierPayload = limit
  minPack : s.1.minPack = minPack
  packed : ∃ pieces : List (List Record),
    List.Forall₂ (fun (a : Bytes × Metadata) fs => Cuts a.1 a.2 fs) sent pieces ∧
      Packed limit [] pieces.flatten (view s.2) s.1.buffer
  carriers : ∀ carrier ∈ view s.2, carrier ≠ [] ∧ carrier.length ≤ limit

theorem Streams.buffer_le (h : Streams view limit minPack sent s) : s.1.buffer.length ≤ limit := by
  obtain ⟨_, -, hp⟩ := h.packed
  exact hp.length_le

/-- A budget that the state uses up. -/
theorem Streams.within (h : Streams view limit minPack sent s) (k : ℕ) :
    Within view limit ((view s.2).length + k + if s.1.buffer = [] then 0 else 1) k s.1.buffer
      s.2 :=
  ⟨Nat.le_refl _, h.carriers⟩

section Calls
variable (hemit : Reliable emit view)
include hemit

/-- With a reliable emitter only the first split of a packet can fail. -/
theorem Packs.reliable {base : List Bytes} {records fs : List Record}
    {out : Except (PackError ε) Unit × (Packetizer × τ)}
    (h : Packs emit view base records fs s out) : out.1 = .ok () := by
  cases ho : out.1 with
  | ok => rfl
  | error e =>
    obtain ⟨⟨_, payload, t, _, -, hf, -⟩, -⟩ := h.error e ho
    obtain ⟨_, hu, -⟩ := hemit payload t
    rw [hu] at hf
    cases hf

def Costs (view : τ → List Bytes) (k : ℕ) (s s' : Packetizer × τ) : Prop :=
  (view s'.2).length + (if s'.1.buffer = [] then 0 else 1) ≤
    (view s.2).length + (if s.1.buffer = [] then 0 else 1) + k

variable (h : Streams view limit minPack sent s)
include h

theorem Streams.flush :
    (flush emit s).1 = .ok () ∧ Streams view limit minPack sent (flush emit s).2 ∧
      Costs view 0 s (flush emit s).2 ∧ (flush emit s).2.1.buffer = [] := by
  obtain ⟨pieces, hpi, hp⟩ := h.packed
  rw [← h.carrierPayload] at hp
  have hfl := (flush_goes s).packs hemit.appends hp
  have hok := hfl.reliable hemit
  obtain ⟨_, ha⟩ := ((flush_goes s).kept (hemit.spends _) h.carrierPayload h.buffer_le
    (h.within 0)).ok hok
  have hp' := hfl.ok hok
  rw [append_nil, h.carrierPayload] at hp'
  refine ⟨hok, ⟨hfl.carrierPayload.trans h.carrierPayload, hfl.minPack.trans h.minPack,
    ⟨pieces, hpi, hp'⟩, ha⟩, ?_, flush_empty hok⟩
  unfold Costs
  omega

theorem Streams.add (packet : Bytes) (metadata : Metadata) :
    (∃ e, split packet metadata ⟨limit, limit - s.1.buffer.length, minPack⟩ maxFragments =
      .error e ∧ add emit packet metadata s = (.error (.fragment e), s)) ∨
    ((∃ result, split packet metadata ⟨limit, limit - s.1.buffer.length, minPack⟩
        maxFragments = .ok result) ∧ (add emit packet metadata s).1 = .ok () ∧
      Streams view limit minPack (sent ++ [(packet, metadata)]) (add emit packet metadata s).2 ∧
      Costs view (packet.length ⌈/⌉ (limit - headerSize)) s (add emit packet metadata s).2) := by
  have hargs : (⟨limit, limit - s.1.buffer.length, minPack⟩ : Fragment.Options) =
      ⟨s.1.carrierPayload, s.1.carrierPayload - s.1.buffer.length, s.1.minPack⟩ := by
    rw [h.carrierPayload, h.minPack]
  rw [hargs]
  cases hs : split packet metadata ⟨s.1.carrierPayload,
      s.1.carrierPayload - s.1.buffer.length, s.1.minPack⟩ maxFragments with
  | error e => exact .inl ⟨e, rfl, add_refused hs⟩
  | ok result =>
    right
    obtain ⟨pieces, hpi, hp⟩ := h.packed
    rw [← h.carrierPayload] at hp
    rcases add_spec hemit.appends packet metadata hp with ⟨e, he, -⟩ | ⟨fs, hc, ha⟩
    · rw [hs] at he
      cases he
    have hok := ha.reliable hemit
    have hfu : 0 < limit - headerSize := by
      have hca := (Fragment.split_isSplit hs).carrier
      rw [← h.carrierPayload]
      exact Nat.sub_pos_of_lt hca
    have hn := Nat.le_of_eq (Fragment.ceilDiv_eq packet.length hfu)
    have hw := h.within (packet.length ⌈/⌉ (limit - headerSize))
    rw [← Nat.zero_add (packet.length ⌈/⌉ (limit - headerSize))] at hw
    rcases add_kept (hemit.spends _) packet metadata h.carrierPayload h.buffer_le
      (.inl hn) hw with ⟨e, he⟩ | hk
    · rw [he] at hok
      cases hok
    obtain ⟨_, hal⟩ := hk.ok hok
    have hp' := ha.ok hok
    rw [h.carrierPayload] at hp'
    refine ⟨⟨result, rfl⟩, hok, ⟨ha.carrierPayload.trans h.carrierPayload,
      ha.minPack.trans h.minPack, ⟨pieces ++ [fs], ?_, ?_⟩, hal⟩, ?_⟩
    · exact rel_append hpi (.cons hc .nil)
    · rw [flatten_append, flatten_singleton]
      exact hp'
    · unfold Costs
      omega

theorem Streams.call (c : Call) :
    Streams view limit minPack (sent ++ taken emit s c) (call emit s c) ∧
      Costs view (needed limit (taken emit s c)) s (call emit s c) := by
  cases c with
  | flush =>
    obtain ⟨-, hfl, hc, -⟩ := h.flush hemit
    unfold taken
    rw [append_nil]
    exact ⟨hfl, hc⟩
  | add packet metadata =>
    rcases h.add hemit packet metadata with ⟨_, -, ha⟩ | ⟨-, hok, ha, hc⟩
    · simp only [taken, Packetizer.call, ha, append_nil]
      exact ⟨h, Nat.le_refl _⟩
    · simp only [taken, Packetizer.call, hok]
      exact ⟨ha, hc⟩

omit hemit h in
private theorem needed_append (a b : List (Bytes × Metadata)) :
    needed limit (a ++ b) = needed limit a + needed limit b := by
  induction a with
  | nil => exact (Nat.zero_add _).symm
  | cons _ _ ih =>
    rw [cons_append, needed, needed, ih, Nat.add_assoc]

theorem Streams.run (calls : List Call) :
    Streams view limit minPack (sent ++ takes emit calls s) (run emit calls s) ∧
      Costs view (needed limit (takes emit calls s)) s (run emit calls s) := by
  induction calls generalizing s sent with
  | nil =>
    unfold takes
    rw [append_nil]
    exact ⟨h, Nat.le_refl _⟩
  | cons c calls ih =>
    obtain ⟨hcall, hc⟩ := h.call hemit c
    obtain ⟨hrun, hr⟩ := ih hcall
    unfold takes
    rw [← append_assoc]
    refine ⟨hrun, ?_⟩
    rw [needed_append]
    unfold Costs at hc hr ⊢
    have heq : Packetizer.run emit (c :: calls) s =
        Packetizer.run emit calls (Packetizer.call emit s c) := rfl
    rw [heq]
    omega

end Calls

private theorem init_streams {room carrierPayload : ℕ} {p : Packetizer} {t : τ}
    (hi : init room carrierPayload minPack = (.ok p : Except (PackError ε) Packetizer))
    (hv : view t = []) : Streams view carrierPayload minPack [] (p, t) := by
  unfold init at hi
  split_ifs at hi
  obtain rfl := Except.ok.inj hi
  refine ⟨rfl, rfl, ⟨[], .nil, [], [], ?_, rfl, rfl, ?_, ?_, Nat.zero_le _⟩, ?_⟩
  · exact hv
  · exact fun group hg => absurd hg not_mem_nil
  · exact fun record hr => absurd hr not_mem_nil
  · dsimp only
    rw [hv]
    exact fun carrier hc => absurd hc not_mem_nil

/-- The records of the packets `sent` are those of the carriers, one after the other, and of the
bytes that are pending. -/
def Holds (sent : List (Bytes × Metadata)) (carriers : List Bytes) (pending : Bytes) : Prop :=
  ∃ (pieces groups : List (List Record)) (rest : List Record),
    List.Forall₂ (fun (a : Bytes × Metadata) fs => Cuts a.1 a.2 fs) sent pieces ∧
      List.Forall₂ (fun carrier group => records carrier = .ok group) carriers groups ∧
      (pending = [] ∧ rest = [] ∨ records pending = .ok rest) ∧
      groups.flatten ++ rest = pieces.flatten

theorem Streams.holds (h : Streams view limit minPack sent s) :
    Holds sent (view s.2) s.1.buffer := by
  obtain ⟨pieces, hp, groups, rest, ho, hb, hrc, hgr, hv, -⟩ := h.packed
  refine ⟨pieces, groups, rest, hp, ?_, ?_, hrc⟩
  · rw [ho, nil_append, forall₂_map_left_iff, forall₂_same]
    intro group hg
    refine records_of_concatenates (concatenates_iff.mpr ⟨hgr group hg, fun r hr => ?_, rfl⟩)
    refine hv r ?_
    rw [← hrc]
    exact mem_append_left _ (mem_flatten.mpr ⟨group, hg, hr⟩)
  · by_cases hre : rest = []
    · left
      rw [hb, hre]
      exact ⟨rfl, rfl⟩
    · right
      refine records_of_concatenates (concatenates_iff.mpr ⟨hre, fun r hr => ?_, hb.symm⟩)
      refine hv r ?_
      rw [← hrc]
      exact mem_append_right _ hr

/-- Over every sequence of calls the carriers and the pending bytes hold exactly the records of
the packets that were taken; a call of `add` fails only in its first split, and then changes
nothing; and packets that begin in an empty carrier fill no more carriers than their full records
would. -/
theorem packetizer_stream {room carrierPayload : ℕ} {p : Packetizer}
    (hinit : init room carrierPayload minPack = (.ok p : Except (PackError ε) Packetizer))
    (hemit : Reliable emit view) {t : τ} (hview : view t = []) (calls : List Call) :
    Holds (takes emit calls (p, t)) (view (run emit calls (p, t)).2)
      (run emit calls (p, t)).1.buffer ∧
    (∀ carrier ∈ view (run emit calls (p, t)).2, carrier ≠ [] ∧ carrier.length ≤ carrierPayload) ∧
    (∀ packet metadata, (∃ e, split packet metadata ⟨carrierPayload,
        carrierPayload - (run emit calls (p, t)).1.buffer.length, minPack⟩ maxFragments =
          .error e ∧ add emit packet metadata (run emit calls (p, t)) =
            (.error (.fragment e), run emit calls (p, t))) ∨
      ((∃ result, split packet metadata ⟨carrierPayload,
        carrierPayload - (run emit calls (p, t)).1.buffer.length, minPack⟩ maxFragments =
          .ok result) ∧ (add emit packet metadata (run emit calls (p, t))).1 = .ok ())) ∧
    (flush emit (run emit calls (p, t))).1 = .ok () ∧
    ((run emit calls (p, t)).1.buffer = [] → ∀ more,
      (view (flush emit (run emit more (run emit calls (p, t)))).2.2).length ≤
        (view (run emit calls (p, t)).2).length +
          needed carrierPayload (takes emit more (run emit calls (p, t)))) := by
  obtain ⟨hstr, -⟩ := (init_streams hinit hview).run hemit calls
  refine ⟨hstr.holds, hstr.carriers, fun packet metadata => ?_,
    (hstr.flush hemit).1, fun hemp more => ?_⟩
  · rcases hstr.add hemit packet metadata with href | ⟨hspl, hok, -⟩
    · exact .inl href
    · exact .inr ⟨hspl, hok⟩
  · obtain ⟨hmore, hcos⟩ := hstr.run hemit more
    obtain ⟨-, -, hfl, _⟩ := hmore.flush hemit
    unfold Costs at hcos hfl
    rw [if_pos hemp] at hcos
    omega

def keep (payload : Bytes) : Eff (List Bytes) Empty Unit := fun out => (.ok (), out ++ [payload])

def sampleCalls : List Call :=
  [.add (List.replicate 12 1) ⟨1, 0, 0⟩, .add [] ⟨1, 0, 1⟩, .add (List.replicate 30 2) ⟨1, 0, 1⟩]

theorem packetizer_stream_sample : ∃ p,
    init 32 32 4 = (.ok p : Except (PackError Empty) Packetizer) ∧ Reliable keep id ∧
    (run keep sampleCalls (p, [])).2.length = 2 ∧
    (run keep sampleCalls (p, [])).1.buffer.length = 22 ∧
    Holds (takes keep sampleCalls (p, [])) (run keep sampleCalls (p, [])).2
      (run keep sampleCalls (p, [])).1.buffer := by
  have hkeep : Reliable keep id := fun payload t => ⟨t ++ [payload], rfl, rfl⟩
  have hinit : init 32 32 4 = (.ok ⟨32, 4, []⟩ : Except (PackError Empty) Packetizer) := rfl
  exact ⟨⟨32, 4, []⟩, hinit, hkeep, by decide, by decide,
    (packetizer_stream hinit hkeep rfl sampleCalls).1⟩

end Packetizer
end WgFrag.Data
