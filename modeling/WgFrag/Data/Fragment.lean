import WgFrag.Data.Record

/-! Packing plan and split of one inner packet into DATA records. -/
namespace WgFrag.Data
open Limits List

/-! ### The plan -/

/-- The bounded-fragment decision for one inner packet. -/
structure Plan where
  startInTail : Bool
  fragments : ℕ
  firstData : ℕ
  deriving DecidableEq, Repr

inductive PlanError where
  | packetLength
  | carrierPayload
  | remaining
  | minPack
  | fragments
  deriving DecidableEq, Repr

def ceilDiv (n d : ℕ) : ℕ := if n = 0 then 0 else (n + d - 1) / d

/-- A tail too short for a record header gives no tail data, which is below any `minPack`. -/
def makePlan (packetLen carrierPayload remaining minPack : ℕ) : Except PlanError Plan :=
  if packetLen < 1 then .error .packetLength
  else if carrierPayload ≤ headerSize then .error .carrierPayload
  else if carrierPayload < remaining then .error .remaining
  else if minPack < 1 then .error .minPack
  else
    let fullData := carrierPayload - headerSize
    let tailData := remaining - headerSize
    let first := min packetLen tailData
    if minPack ≤ tailData ∧ 1 + ceilDiv (packetLen - first) fullData ≤ maxFragments then
      .ok ⟨true, 1 + ceilDiv (packetLen - first) fullData, first⟩
    else if maxFragments < ceilDiv packetLen fullData then .error .fragments
    else .ok ⟨false, ceilDiv packetLen fullData, 0⟩

/-! ### The split -/

namespace Fragment

structure Metadata where
  dataSessionID : UInt16
  laneID : UInt8
  laneSequence : UInt32
  deriving DecidableEq, Repr

structure Options where
  carrierPayload : ℕ
  carrierRemaining : ℕ
  minPack : ℕ

inductive Error where
  | packetSize
  | dataSessionID
  | carrierPayload
  | carrierRemaining
  | minPack
  | tooManyFragments
  | outputTooShort
  deriving DecidableEq, Repr

structure Result where
  fragments : List Record
  startInTail : Bool
  deriving DecidableEq, Repr

/-- The header of the fragment `i` of `n`, which starts at `offset`. -/
def header (metadata : Metadata) (n i offset : ℕ) : Header where
  fragmentIndex := UInt8.ofNat i
  fragmentCount := UInt8.ofNat n
  laneID := metadata.laneID
  dataSessionID := metadata.dataSessionID
  laneSequence := metadata.laneSequence
  offset := UInt16.ofNat offset

/-- The fragments from number `i` on, `k` of them, and the offset reached. -/
def splitLoop (packet : Bytes) (metadata : Metadata) (plan : Plan) (fullData : ℕ) :
    ℕ → ℕ → ℕ → List Record × ℕ
  | 0, _, offset => ([], offset)
  | k + 1, i, offset =>
    let capacity := if i = 0 ∧ plan.startInTail then plan.firstData else fullData
    let dataLen := min capacity (packet.length - offset)
    let rest := splitLoop packet metadata plan fullData k (i + 1) (offset + dataLen)
    (⟨header metadata plan.fragments i offset, (packet.drop offset).take dataLen⟩ :: rest.1, rest.2)

/-- The last argument is the length of the output slice. -/
def split (packet : Bytes) (metadata : Metadata) (options : Options) (output : ℕ) :
    Except Error Result :=
  if packet.length < 1 ∨ maxInnerMTU < packet.length then .error .packetSize
  else if metadata.dataSessionID = 0 then .error .dataSessionID
  else if options.carrierPayload ≤ headerSize ∨ maxUint16 < options.carrierPayload then
    .error .carrierPayload
  else if options.carrierPayload < options.carrierRemaining then .error .carrierRemaining
  else if options.minPack < 1 then .error .minPack
  else
    match makePlan packet.length options.carrierPayload options.carrierRemaining
        options.minPack with
    | .error _ => .error .tooManyFragments
    | .ok plan =>
      if plan.fragments < 1 ∨ maxFragments < plan.fragments then .error .tooManyFragments
      else if output < plan.fragments then .error .outputTooShort
      else
        let (fragments, offset) := splitLoop packet metadata plan
          (options.carrierPayload - headerSize) plan.fragments 0 0
        if offset ≠ packet.length then .error .tooManyFragments
        else .ok ⟨fragments, plan.startInTail⟩

/-- The records are the fragments from number `i` of `n` on, and cover the packet from
`offset` to its end with at most `capacity` bytes each. -/
def Tiles (packet : Bytes) (metadata : Metadata) (capacity n : ℕ) : ℕ → ℕ → List Record → Prop
  | i, offset, [] => i = n ∧ offset = packet.length
  | i, offset, record :: records => record.header = header metadata n i offset ∧
    1 ≤ record.data.length ∧ record.data.length ≤ capacity ∧
    offset + record.data.length ≤ packet.length ∧
    record.data = (packet.drop offset).take record.data.length ∧
    Tiles packet metadata capacity n (i + 1) (offset + record.data.length) records

variable {packet : Bytes} {metadata : Metadata} {options : Options} {plan : Plan}
variable {output full capacity j minPack len k offset remaining n payload i : ℕ} {record : Record}
  {result : Result} {records : List Record}

theorem ceilDiv_spec (n : ℕ) {d : ℕ} (hd : 0 < d) :
    n ≤ ceilDiv n d * d ∧ (0 < n → 1 ≤ ceilDiv n d ∧ (ceilDiv n d - 1) * d < n) := by
  unfold ceilDiv
  by_cases hn : n = 0
  · simp [hn]
  rw [if_neg hn]
  have hm := Nat.div_add_mod (n + d - 1) d
  have hlt := Nat.mod_lt (n + d - 1) hd
  rw [Nat.mul_comm] at hm
  have hpos : 1 ≤ (n + d - 1) / d := (Nat.one_le_div_iff hd).mpr (by omega)
  rw [Nat.sub_mul]
  omega

/-- What is left of the packet fills exactly `k` fragments of `full` bytes, the last one maybe
in part. -/
def Fills (len full k offset : ℕ) : Prop :=
  offset ≤ len ∧ len - offset ≤ k * full ∧ (0 < k → (k - 1) * full < len - offset)

private theorem fills_ceilDiv (hfu : 0 < full) (hle : offset ≤ len) :
    Fills len full (ceilDiv (len - offset) full) offset := by
  obtain ⟨hc, hl⟩ := ceilDiv_spec (len - offset) hfu
  refine ⟨hle, hc, fun hpos => ?_⟩
  by_cases hz : len - offset = 0
  · rw [hz] at hpos
    simp [ceilDiv] at hpos
  · exact (hl (by omega)).2

theorem Fills.next (h : Fills len full (k + 1) offset) :
    1 ≤ min full (len - offset) ∧ Fills len full k (offset + min full (len - offset)) := by
  obtain ⟨_, _, hl⟩ := h
  rw [Nat.add_sub_cancel] at hl
  have hm : (k + 1) * full = k * full + full := by rw [Nat.add_mul, Nat.one_mul]
  refine ⟨by omega, by omega, by omega, fun hk => ?_⟩
  have hprev : (k - 1) * full + full = k * full := by
    obtain ⟨_, rfl⟩ : ∃ j, k = j + 1 := ⟨k - 1, by omega⟩
    rw [Nat.add_sub_cancel, Nat.add_mul, Nat.one_mul]
  omega

theorem splitLoop_full (hi : 0 < i)
    (h : Fills packet.length full k offset) (hn : i + k = plan.fragments) :
    (splitLoop packet metadata plan full k i offset).2 = packet.length ∧
      Tiles packet metadata full plan.fragments i offset
        (splitLoop packet metadata plan full k i offset).1 := by
  induction k generalizing i offset with
  | zero =>
    obtain ⟨_, _, -⟩ := h
    have he : offset = packet.length := by omega
    exact ⟨he, by omega, he⟩
  | succ k ih =>
    obtain ⟨hpos, hnx⟩ := h.next
    have hc : ¬ (i = 0 ∧ plan.startInTail = true) := by omega
    unfold splitLoop
    simp only [if_neg hc]
    obtain ⟨he, ht⟩ := ih (i := i + 1) (by omega) hnx (by omega)
    have hlen : ((packet.drop offset).take (min full (packet.length - offset))).length =
        min full (packet.length - offset) := by
      rw [length_take, length_drop]
      omega
    refine ⟨he, rfl, ?_, ?_, ?_, ?_, ?_⟩
    · rw [hlen]
      exact hpos
    · rw [hlen]
      omega
    · rw [hlen]
      omega
    · rw [hlen]
    · rw [hlen]
      exact ht

/-- The plan says where the first fragment goes, and how many fragments cover the packet. -/
structure GoodPlan (plan : Plan) (len payload remaining : ℕ) : Prop where
  carrier : headerSize < payload
  room : remaining ≤ payload
  positive : 1 ≤ plan.fragments
  tail : plan.startInTail = true → 1 ≤ plan.firstData ∧ plan.firstData ≤ len ∧
    headerSize + plan.firstData ≤ remaining ∧
    Fills len (payload - headerSize) (plan.fragments - 1) plan.firstData
  full : plan.startInTail = false → Fills len (payload - headerSize) plan.fragments 0

theorem makePlan_good (h : makePlan len payload remaining minPack = .ok plan) :
    GoodPlan plan len payload remaining := by
  unfold makePlan at h
  split_ifs at h with hlen hp hr hmiP
  have hfu : 0 < payload - headerSize := by omega
  dsimp only at h
  split_ifs at h with ht hm
  · obtain rfl := Except.ok.inj h
    refine ⟨by omega, by omega, by simp, fun _ => ⟨?_, ?_, ?_, ?_⟩, by simp⟩
    · dsimp only
      omega
    · exact Nat.min_le_left _ _
    · dsimp only
      omega
    · rw [Nat.add_sub_cancel_left]
      exact fills_ceilDiv hfu (Nat.min_le_left _ _)
  · obtain rfl := Except.ok.inj h
    refine ⟨by omega, by omega, ((ceilDiv_spec len hfu).2 (by omega)).1, by simp, fun _ => ?_⟩
    exact fills_ceilDiv hfu (Nat.zero_le _)

theorem makePlan_cases (h : makePlan len payload remaining minPack = .ok plan) :
    (plan = ⟨true, 1 + ceilDiv (len - min len (remaining - headerSize)) (payload - headerSize),
        min len (remaining - headerSize)⟩ ∧ 1 ≤ len ∧ minPack ≤ remaining - headerSize) ∨
    (plan = ⟨false, ceilDiv len (payload - headerSize), 0⟩ ∧
      ceilDiv len (payload - headerSize) ≤ maxFragments ∧
      (minPack ≤ remaining - headerSize → maxFragments <
        1 + ceilDiv (len - min len (remaining - headerSize)) (payload - headerSize))) := by
  unfold makePlan at h
  split_ifs at h
  dsimp only at h
  split_ifs at h with ht hm
  · exact .inl ⟨(Except.ok.inj h).symm, by omega, ht.1⟩
  · refine .inr ⟨(Except.ok.inj h).symm, by omega, fun hp => ?_⟩
    by_contra hf
    exact ht ⟨hp, by omega⟩

theorem splitLoop_good (metadata : Metadata) (h : GoodPlan plan packet.length payload remaining) :
    (splitLoop packet metadata plan (payload - headerSize) plan.fragments 0 0).2 = packet.length ∧
      Tiles packet metadata (payload - headerSize) plan.fragments 0 0
        (splitLoop packet metadata plan (payload - headerSize) plan.fragments 0 0).1 ∧
      (plan.startInTail = true → ∀ first ∈ (splitLoop packet metadata plan
        (payload - headerSize) plan.fragments 0 0).1.head?,
        headerSize + first.data.length ≤ remaining) := by
  have hpos := h.positive
  obtain ⟨k, hk⟩ : ∃ k, plan.fragments = k + 1 := ⟨plan.fragments - 1, by omega⟩
  have hrun : splitLoop packet metadata plan (payload - headerSize) plan.fragments 0 0 =
      splitLoop packet metadata plan (payload - headerSize) (k + 1) 0 0 := by rw [hk]
  rw [hrun]
  unfold splitLoop
  -- The first fragment takes `size` bytes, and the rest are full ones.
  have hfs : ∀ size, 1 ≤ size → size ≤ payload - headerSize → size ≤ packet.length →
      Fills packet.length (payload - headerSize) k size →
      (splitLoop packet metadata plan (payload - headerSize) k 1 size).2 = packet.length ∧
      Tiles packet metadata (payload - headerSize) plan.fragments 0 0
        (⟨header metadata plan.fragments 0 0, (packet.drop 0).take size⟩ ::
          (splitLoop packet metadata plan (payload - headerSize) k 1 size).1) := by
    intro size ho hsize hlen hf
    obtain ⟨he, hti⟩ : (splitLoop packet metadata plan (payload - headerSize) k 1 size).2 =
        packet.length ∧ Tiles packet metadata (payload - headerSize) plan.fragments 1 size
          (splitLoop packet metadata plan (payload - headerSize) k 1 size).1 :=
      splitLoop_full Nat.one_pos hf (by omega)
    have hsz : ((packet.drop 0).take size).length = size := by
      rw [length_take, drop_zero]
      omega
    refine ⟨he, rfl, by rw [hsz]; exact ho, by rw [hsz]; exact hsize, by rw [hsz]; omega,
      by rw [hsz], ?_⟩
    rw [hsz, Nat.zero_add, Nat.zero_add]
    exact hti
  cases ht : plan.startInTail with
  | true =>
    obtain ⟨ho, hle, _, hf⟩ := h.tail ht
    have hr := h.room
    have hsize : min plan.firstData (packet.length - 0) = plan.firstData := by omega
    rw [hk, Nat.add_sub_cancel] at hf
    obtain ⟨he, hti⟩ := hfs plan.firstData ho (by omega) hle hf
    simp only [and_self, if_true, hsize, Nat.zero_add]
    refine ⟨he, hti, fun _ first hmem => ?_⟩
    obtain rfl := Option.some.inj hmem
    rw [length_take]
    omega
  | false =>
    have hf := h.full ht
    rw [hk] at hf
    obtain ⟨ho, hnx⟩ := hf.next
    rw [Nat.zero_add] at hnx
    obtain ⟨he, hti⟩ := hfs _ ho (by omega) (by omega) hnx
    simp only [Bool.false_eq_true, and_false, if_false, Nat.zero_add]
    exact ⟨he, hti, by simp⟩

theorem Tiles.length (h : Tiles packet metadata capacity n i offset records) :
    i + records.length = n := by
  induction records generalizing i offset with
  | nil => exact h.1
  | cons _ _ ih =>
    have := ih h.2.2.2.2.2
    simp only [length_cons]
    omega

/-- What `split` returns: at most sixteen records that tile the packet, none longer than a
carrier, the first one within the tail if it starts there. -/
structure IsSplit (packet : Bytes) (metadata : Metadata) (options : Options) (result : Result) :
    Prop where
  size : 1 ≤ packet.length ∧ packet.length ≤ maxInnerMTU
  session : metadata.dataSessionID ≠ 0
  count : 1 ≤ result.fragments.length ∧ result.fragments.length ≤ maxFragments
  carrier : headerSize < options.carrierPayload
  tiles : Tiles packet metadata (options.carrierPayload - headerSize) result.fragments.length 0 0
    result.fragments
  tail : result.startInTail = true → ∀ first ∈ result.fragments.head?,
    headerSize + first.data.length ≤ options.carrierRemaining

/-- The arguments of a split that succeeds are in range, and it follows the plan. -/
theorem split_plan (h : split packet metadata options output = .ok result) :
    (1 ≤ packet.length ∧ packet.length ≤ maxInnerMTU) ∧ metadata.dataSessionID ≠ 0 ∧
      options.carrierPayload ≤ maxUint16 ∧ 1 ≤ options.minPack ∧
      ∃ plan, makePlan packet.length options.carrierPayload options.carrierRemaining
        options.minPack = .ok plan ∧ plan.fragments ≤ maxFragments ∧
        result = ⟨(splitLoop packet metadata plan (options.carrierPayload - headerSize)
          plan.fragments 0 0).1, plan.startInTail⟩ ∧
        result.fragments.length = plan.fragments := by
  unfold split at h
  split_ifs at h with hsz hs hp hr hmiP
  cases hpl : makePlan packet.length options.carrierPayload options.carrierRemaining
      options.minPack with
  | error e => simp [hpl] at h
  | ok plan =>
    simp only [hpl] at h
    split_ifs at h with hcn ho hc
    have hlen := (splitLoop_good metadata (makePlan_good hpl)).2.1.length
    rw [Nat.zero_add] at hlen
    obtain rfl := Except.ok.inj h
    exact ⟨by omega, hs, by omega, by omega, plan, rfl, by omega, rfl, hlen⟩

theorem split_isSplit (h : split packet metadata options output = .ok result) :
    IsSplit packet metadata options result := by
  obtain ⟨hsz, hs, -, -, _, hpl, hf, rfl, hlen⟩ := split_plan h
  have hgood := makePlan_good hpl
  obtain ⟨-, hti, ht⟩ := splitLoop_good metadata hgood
  have hpos := hgood.positive
  refine ⟨hsz, hs, ?_, hgood.carrier, ?_, ht⟩
  · rw [hlen]
    exact ⟨hpos, hf⟩
  · rw [hlen]
    exact hti

private theorem makePlan_total (hlen : 1 ≤ len)
    (hp : headerSize < payload) (hr : remaining ≤ payload) (hmiP : 1 ≤ minPack)
    (hc : ceilDiv len (payload - headerSize) ≤ maxFragments) :
    ∃ plan, makePlan len payload remaining minPack = .ok plan ∧ plan.fragments ≤ maxFragments := by
  unfold makePlan
  rw [if_neg (by omega), if_neg (by omega), if_neg (by omega), if_neg (by omega)]
  dsimp only
  split
  · next ht => exact ⟨_, rfl, ht.2⟩
  · rw [if_neg (by omega)]
    exact ⟨_, rfl, hc⟩

/-- A packet that fits into sixteen full records can be split, whatever the tail. -/
theorem split_total {carrierPayload : ℕ}
    (hsz : 1 ≤ packet.length ∧ packet.length ≤ maxInnerMTU) (hs : metadata.dataSessionID ≠ 0)
    (hp : headerSize < carrierPayload ∧ carrierPayload ≤ maxUint16)
    (hr : remaining ≤ carrierPayload) (hmiP : 1 ≤ minPack)
    (hc : ceilDiv packet.length (carrierPayload - headerSize) ≤ maxFragments)
    (ho : maxFragments ≤ output) :
    ∃ result, split packet metadata ⟨carrierPayload, remaining, minPack⟩ output = .ok result := by
  obtain ⟨_, hpl, _⟩ := makePlan_total hsz.1 hp.1 hr hmiP hc
  have hgood := makePlan_good hpl
  have hpos := hgood.positive
  obtain ⟨he, -, -⟩ := splitLoop_good metadata hgood
  unfold split
  rw [if_neg (by omega), if_neg hs, if_neg (by simp only [not_or]; omega),
    if_neg (by simp only; omega), if_neg (by simp only; omega)]
  simp only [hpl]
  rw [if_neg (by omega), if_neg (by omega), if_neg (not_not.mpr he)]
  exact ⟨_, rfl⟩

/-- A packet that was not to start in the tail can be split for an empty carrier. -/
theorem split_again {carrierPayload : ℕ}
    (h : split packet metadata ⟨carrierPayload, remaining, minPack⟩ maxFragments = .ok result)
    (ht : result.startInTail = false) :
    ∃ result', split packet metadata ⟨carrierPayload, carrierPayload, minPack⟩ maxFragments =
      .ok result' := by
  obtain ⟨hsz, hs, hp, hmiP, _, hpl, -, rfl, -⟩ := split_plan h
  have hgood := makePlan_good hpl
  have hfu : ceilDiv packet.length (carrierPayload - headerSize) ≤ maxFragments := by
    rcases makePlan_cases hpl with ⟨rfl, -⟩ | ⟨-, hf, -⟩
    · cases ht
    · exact hf
  exact split_total hsz hs ⟨hgood.carrier, hp⟩ (Nat.le_refl _) hmiP hfu
    (Nat.le_refl _)

/-! ### The fragments of a packet -/

section Tiles
variable (h : Tiles packet metadata capacity n i offset records)
include h

theorem Tiles.get (hk : records[k]? = some record) : ∃ start, offset ≤ start ∧
      record.header = header metadata n (i + k) start ∧
      1 ≤ record.data.length ∧ record.data.length ≤ capacity ∧
      start + record.data.length ≤ packet.length ∧
      record.data = (packet.drop start).take record.data.length := by
  induction records generalizing i offset k with
  | nil => simp at hk
  | cons _ _ ih =>
    obtain ⟨hh, hpos, hc, he, hd, hr⟩ := h
    cases k with
    | zero =>
      obtain rfl := Option.some.inj hk
      exact ⟨offset, Nat.le_refl _, hh, hpos, hc, he, hd⟩
    | succ k =>
      obtain ⟨start, _, hh', hr⟩ := ih hr (by simpa using hk)
      rw [show i + 1 + k = i + (k + 1) by omega] at hh'
      exact ⟨start, by omega, hh', hr⟩

theorem Tiles.sorted {a b : Record} (hlen : packet.length < 65536) (hjk : j < k)
    (ha : records[j]? = some a) (hb : records[k]? = some b) :
    a.header.offset.toNat + a.data.length ≤ b.header.offset.toNat := by
  induction records generalizing i offset j k with
  | nil => simp at ha
  | cons _ _ ih =>
    obtain ⟨hh, _, -, _, -, hr⟩ := h
    obtain ⟨k, rfl⟩ : ∃ m, k = m + 1 := ⟨k - 1, by omega⟩
    cases j with
    | zero =>
      obtain rfl := Option.some.inj ha
      obtain ⟨_, _, hbh, -, -, _, -⟩ := hr.get hb
      rw [hh, hbh]
      simp only [header, UInt16.toNat_ofNat']
      omega
    | succ => exact ih hr (Nat.lt_of_succ_lt_succ hjk) (by simpa using ha) hb

theorem Tiles.tiled (hlen : packet.length < 65536) :
    Tiled records offset packet.length ∧ records.flatMap Record.data = packet.drop offset := by
  induction records generalizing i offset with
  | nil =>
    obtain ⟨-, rfl⟩ := h
    simp [Tiled]
  | cons record _ ih =>
    obtain ⟨hh, _, -, _, hd, hr⟩ := h
    obtain ⟨ht, hflat⟩ := ih hr
    refine ⟨⟨?_, ht⟩, ?_⟩
    · rw [hh]
      simp only [header, UInt16.toNat_ofNat']
      omega
    · rw [flatMap_cons, hflat, hd, length_take, length_drop, ← drop_drop]
      have hmin : min record.data.length (packet.length - offset) = record.data.length := by omega
      rw [hmin, take_append_drop]

end Tiles

theorem IsSplit.fits (h : IsSplit packet metadata options result) :
    ∀ record ∈ result.fragments,
      record.Valid ∧ headerSize + record.data.length ≤ options.carrierPayload := by
  intro record hr
  obtain ⟨_, hmax⟩ := h.size
  obtain ⟨_, hc⟩ := h.count
  have hmax : packet.length ≤ 9612 := hmax
  have hc : result.fragments.length ≤ 16 := hc
  obtain ⟨k, hlt, hk⟩ := getElem_of_mem hr
  obtain ⟨start, -, hh, _, _, _, -⟩ := h.tiles.get (List.getElem?_eq_some_iff.mpr
    ⟨hlt, hk⟩)
  refine ⟨(Record.valid_iff record).mpr ?_, by omega⟩
  have hi : record.header.fragmentIndex.toNat = k := by
    rw [hh]
    simp only [header, UInt8.toNat_ofNat']
    omega
  have ht : record.header.fragmentCount.toNat = result.fragments.length := by
    rw [hh]
    simp only [header, UInt8.toNat_ofNat']
    omega
  have ho : record.header.offset.toNat = start := by
    rw [hh]
    simp only [header, UInt16.toNat_ofNat']
    omega
  refine ⟨by omega, by omega, ?_, ?_, ?_⟩
  · rw [hh]
    exact h.session
  · simp only [headerSize, maxUint16]
    omega
  · simp only [maxUint16]
    omega

/-- The records cut the packet into fragments, numbered in the order of their offsets. -/
structure Cuts (packet : Bytes) (metadata : Metadata) (records : List Record) : Prop where
  size : 1 ≤ packet.length ∧ packet.length ≤ maxInnerMTU
  count : 1 ≤ records.length ∧ records.length ≤ maxFragments
  index : ∀ k (record : Record), records[k]? = some record → record.header.fragmentIndex.toNat = k
  total : ∀ record ∈ records, record.header.fragmentCount.toNat = records.length
  metadata : ∀ record ∈ records, record.header.dataSessionID = metadata.dataSessionID ∧
    record.header.laneID = metadata.laneID ∧ record.header.laneSequence = metadata.laneSequence
  range : ∀ record ∈ records, 1 ≤ record.data.length ∧
    record.header.offset.toNat + record.data.length ≤ packet.length
  sorted : ∀ (j k : ℕ) (a b : Record), j < k → records[j]? = some a → records[k]? = some b →
    a.header.offset.toNat + a.data.length ≤ b.header.offset.toNat
  tiled : Tiled records 0 packet.length
  whole : records.flatMap Record.data = packet

theorem IsSplit.cuts (h : IsSplit packet metadata options result) :
    Cuts packet metadata result.fragments := by
  obtain ⟨_, hmax⟩ := h.size
  obtain ⟨ho, hc⟩ := h.count
  have hmax : packet.length ≤ 9612 := hmax
  have hc' : result.fragments.length ≤ 16 := hc
  have hlen : packet.length < 65536 := by omega
  have hg : ∀ k record, result.fragments[k]? = some record → ∃ start,
      record.header = header metadata result.fragments.length k start ∧ k < 16 ∧
      1 ≤ record.data.length ∧ start + record.data.length ≤ packet.length := by
    intro k record hk
    have hlt := lt_of_get hk
    obtain ⟨start, -, hh, ho, -, he, -⟩ := h.tiles.get hk
    rw [Nat.zero_add] at hh
    exact ⟨start, hh, by omega, ho, he⟩
  have hmem : ∀ record ∈ result.fragments, ∃ k start,
      record.header = header metadata result.fragments.length k start ∧
      1 ≤ record.data.length ∧ start + record.data.length ≤ packet.length := by
    intro record hr
    obtain ⟨k, hk⟩ := mem_iff_getElem?.mp hr
    obtain ⟨start, hh, -, hre⟩ := hg k record hk
    exact ⟨k, start, hh, hre⟩
  obtain ⟨ht, hw⟩ := h.tiles.tiled hlen
  refine ⟨h.size, h.count, ?_, ?_, ?_, ?_, ?_, ht, by simpa using hw⟩
  · intro k record hk
    obtain ⟨start, hh, _, -⟩ := hg k record hk
    rw [hh]
    simp only [header, UInt8.toNat_ofNat']
    omega
  · intro record hr
    obtain ⟨k, start, hh, -⟩ := hmem record hr
    rw [hh]
    simp only [header, UInt8.toNat_ofNat']
    omega
  · intro record hr
    obtain ⟨k, _, hh, -⟩ := hmem record hr
    rw [hh]
    exact ⟨rfl, rfl, rfl⟩
  · intro record hr
    obtain ⟨k, _, hh, _, _⟩ := hmem record hr
    rw [hh]
    simp only [header, UInt16.toNat_ofNat']
    omega
  · intro j k a b hjk ha hb
    exact h.tiles.sorted hlen hjk ha hb

theorem Cuts.nodup (h : Cuts packet metadata records)
    (hj : records[j]? = some record) (hk : records[k]? = some record) : j = k :=
  (h.index j record hj).symm.trans (h.index k record hk)

theorem Cuts.fresh {pre rest : List Record}
    (h : Cuts packet metadata (pre ++ record :: rest)) : record ∉ pre := by
  intro hmem
  obtain ⟨k, hk, hg⟩ := getElem_of_mem hmem
  have hj : (pre ++ record :: rest)[k]? = some record := by
    rw [getElem?_append_left hk, getElem?_eq_getElem hk, hg]
  have hat : (pre ++ record :: rest)[pre.length]? = some record := by
    rw [getElem?_append_right (Nat.le_refl _), Nat.sub_self]
    rfl
  exact absurd (h.nodup hj hat) (Nat.ne_of_lt hk)

theorem Cuts.apart (hc : Cuts packet metadata records)
    {a b : Record} (ha : records[j]? = some a) (hb : records[k]? = some b) (hne : j ≠ k) :
    a.header.offset.toNat + a.data.length ≤ b.header.offset.toNat ∨
      b.header.offset.toNat + b.data.length ≤ a.header.offset.toNat := by
  rcases Nat.lt_or_gt_of_ne hne with hlt | hgt
  · exact .inl (hc.sorted j k a b hlt ha hb)
  · exact .inr (hc.sorted k j b a hgt hb ha)

end Fragment
end WgFrag.Data
