import WgFrag.Basic
import WgFrag.Lib.Eff

/-! DATA records: the fixed header, its encoding, and the strict parser of a carrier payload. -/
namespace WgFrag.Data
open WgFrag.Lib List

def headerSize : ℕ := 12
def minRecordSize : ℕ := headerSize + 1
def maxUint16 : ℕ := 65535

structure Header where
  fragmentIndex : UInt8
  fragmentCount : UInt8
  laneID : UInt8
  dataSessionID : UInt16
  laneSequence : UInt32
  offset : UInt16
  deriving DecidableEq, Repr

structure Record where
  header : Header
  data : Bytes
  deriving DecidableEq, Repr

inductive RecordError where
  | headerTooShort
  | recordTruncated
  | invalidRecordLength
  | invalidFragment
  | invalidDataSessionID
  | invalidRange
  deriving DecidableEq, Repr

/-- The first check that a header with `dataLen` bytes of data fails. -/
def validate (header : Header) (dataLen : ℕ) : Except RecordError Unit :=
  if header.fragmentCount < 1 ∨ 16 < header.fragmentCount ∨
      header.fragmentCount ≤ header.fragmentIndex then .error .invalidFragment
  else if header.dataSessionID = 0 then .error .invalidDataSessionID
  else if dataLen < 1 ∨ maxUint16 - headerSize < dataLen then .error .invalidRecordLength
  else if maxUint16 < header.offset.toNat + dataLen then .error .invalidRange
  else .ok ()

/-! ### Big-endian words -/

def putUint16 (n : ℕ) : Bytes := [UInt8.ofNat (n / 256), UInt8.ofNat n]

def putUint32 (n : ℕ) : Bytes := putUint16 (n / 65536) ++ putUint16 n

def uint16 (b0 b1 : UInt8) : ℕ := b0.toNat * 256 + b1.toNat

def uint32 (b0 b1 b2 b3 : UInt8) : ℕ := uint16 b0 b1 * 65536 + uint16 b2 b3

theorem uint16_put (n : ℕ) (h : n < 65536) :
    uint16 (UInt8.ofNat (n / 256)) (UInt8.ofNat n) = n := by
  simp only [uint16, UInt8.toNat_ofNat']
  omega

theorem uint32_put (n : ℕ) (h : n < 4294967296) :
    uint32 (UInt8.ofNat (n / 65536 / 256)) (UInt8.ofNat (n / 65536)) (UInt8.ofNat (n / 256))
      (UInt8.ofNat n) = n := by
  simp only [uint32, uint16, UInt8.toNat_ofNat']
  omega

/-! ### One record -/

def fragmentByte (header : Header) : UInt8 :=
  header.fragmentIndex <<< 4 ||| (header.fragmentCount - 1)

def encodeRecord (r : Record) : Bytes :=
  putUint16 (headerSize + r.data.length) ++ [fragmentByte r.header, r.header.laneID] ++
    putUint16 r.header.dataSessionID.toNat ++ putUint32 r.header.laneSequence.toNat ++
    putUint16 r.header.offset.toNat ++ r.data

inductive MarshalError where
  | record (e : RecordError)
  | shortBuffer
  deriving DecidableEq, Repr

/-- Encode into a buffer with `room` bytes left. -/
def marshalTo (room : ℕ) (header : Header) (data : Bytes) : Except MarshalError Bytes :=
  match validate header data.length with
  | .error e => .error (.record e)
  | .ok () =>
    if room < headerSize + data.length then .error .shortBuffer
    else .ok (encodeRecord ⟨header, data⟩)

/-- The first record of `src` and the bytes it takes. -/
def decodeRecord (src : Bytes) : Except RecordError (Record × ℕ) :=
  match src with
  | l0 :: l1 :: fragment :: lane :: s0 :: s1 :: q0 :: q1 :: q2 :: q3 :: o0 :: o1 :: rest =>
    let recordLen := uint16 l0 l1
    if recordLen < minRecordSize then .error .invalidRecordLength
    else if src.length < recordLen then .error .recordTruncated
    else
      let header : Header := {
        fragmentIndex := fragment >>> 4
        fragmentCount := (fragment &&& 0x0f) + 1
        laneID := lane
        dataSessionID := UInt16.ofNat (uint16 s0 s1)
        laneSequence := UInt32.ofNat (uint32 q0 q1 q2 q3)
        offset := UInt16.ofNat (uint16 o0 o1) }
      let data := rest.take (recordLen - headerSize)
      match validate header data.length with
      | .error e => .error e
      | .ok () => .ok (⟨header, data⟩, recordLen)
  | _ => .error .headerTooShort

def Record.Valid (r : Record) : Prop := validate r.header r.data.length = .ok ()

instance (r : Record) : Decidable r.Valid := inferInstanceAs (Decidable (_ = _))

structure Record.Ranges (r : Record) : Prop where
  count : 1 ≤ r.header.fragmentCount.toNat ∧ r.header.fragmentCount.toNat ≤ 16
  index : r.header.fragmentIndex.toNat < r.header.fragmentCount.toNat
  session : r.header.dataSessionID ≠ 0
  data : 1 ≤ r.data.length ∧ headerSize + r.data.length ≤ maxUint16
  range : r.header.offset.toNat + r.data.length ≤ maxUint16

theorem Record.valid_iff (r : Record) : r.Valid ↔ r.Ranges := by
  unfold Record.Valid validate
  constructor
  · intro h
    split_ifs at h with hf hs hl hr
    simp only [not_or, UInt8.lt_iff_toNat_lt, UInt8.le_iff_toNat_le, UInt8.reduceToNat] at hf
    simp only [maxUint16, headerSize] at hl hr
    refine ⟨by omega, by omega, hs, ?_, ?_⟩
    · simp only [maxUint16, headerSize]
      omega
    · simp only [maxUint16]
      omega
  · rintro ⟨_, _, hs, hl, hr⟩
    simp only [maxUint16, headerSize] at hl hr
    rw [if_neg, if_neg hs, if_neg, if_neg]
    · simp only [maxUint16]
      omega
    · simp only [maxUint16, headerSize]
      omega
    · simp only [not_or, UInt8.lt_iff_toNat_lt, UInt8.le_iff_toNat_le, UInt8.reduceToNat]
      omega

private theorem fragmentByte_decode {header : Header} (hc : 1 ≤ header.fragmentCount.toNat)
    (hc' : header.fragmentCount.toNat ≤ 16)
    (hi : header.fragmentIndex.toNat < header.fragmentCount.toNat) :
    fragmentByte header >>> 4 = header.fragmentIndex ∧
      (fragmentByte header &&& 0x0f) + 1 = header.fragmentCount := by
  have ha : ∀ i : Fin 16, ∀ c : Fin 16,
      (UInt8.ofNat i.val <<< 4 ||| (UInt8.ofNat (c.val + 1) - 1)) >>> 4 = UInt8.ofNat i.val ∧
      ((UInt8.ofNat i.val <<< 4 ||| (UInt8.ofNat (c.val + 1) - 1)) &&& 0x0f) + 1 =
        UInt8.ofNat (c.val + 1) := by decide
  have h := ha ⟨header.fragmentIndex.toNat, by omega⟩ ⟨header.fragmentCount.toNat - 1, by omega⟩
  have hcn : header.fragmentCount.toNat - 1 + 1 = header.fragmentCount.toNat := by omega
  simp only [hcn, UInt8.ofNat_toNat] at h
  exact h

theorem length_encodeRecord (r : Record) :
    (encodeRecord r).length = headerSize + r.data.length := by
  simp [encodeRecord, putUint16, putUint32, headerSize]
  omega

/-- A valid record is read back whatever follows it. -/
theorem decodeRecord_encodeRecord {r : Record} (hr : r.Valid) (rest : Bytes) :
    decodeRecord (encodeRecord r ++ rest) = .ok (r, headerSize + r.data.length) := by
  obtain ⟨⟨hc, hc'⟩, hi, -, ⟨hd, hd'⟩, _⟩ := r.valid_iff.mp hr
  obtain ⟨hid, hcn⟩ := fragmentByte_decode hc hc' hi
  obtain ⟨⟨index, count, lane, session, sequence, offset⟩, data⟩ := r
  have hse : UInt16.ofNat (uint16 (UInt8.ofNat (session.toNat / 256))
      (UInt8.ofNat session.toNat)) = session := by
    rw [uint16_put _ session.toNat_lt, UInt16.ofNat_toNat]
  have ho : UInt16.ofNat (uint16 (UInt8.ofNat (offset.toNat / 256))
      (UInt8.ofNat offset.toNat)) = offset := by
    rw [uint16_put _ offset.toNat_lt, UInt16.ofNat_toNat]
  have hs : UInt32.ofNat (uint32 (UInt8.ofNat (sequence.toNat / 65536 / 256))
      (UInt8.ofNat (sequence.toNat / 65536)) (UInt8.ofNat (sequence.toNat / 256))
      (UInt8.ofNat sequence.toNat)) = sequence := by
    rw [uint32_put _ sequence.toNat_lt, UInt32.ofNat_toNat]
  have hre : uint16 (UInt8.ofNat ((headerSize + data.length) / 256))
      (UInt8.ofNat (headerSize + data.length)) = headerSize + data.length :=
    uint16_put _ (Nat.lt_succ_of_le hd')
  have ht : (data ++ rest).take (headerSize + data.length - headerSize) = data := by
    rw [Nat.add_sub_cancel_left]
    exact take_left
  have hmin : ¬ headerSize + data.length < minRecordSize := by
    have hd : 1 ≤ data.length := hd
    simp only [minRecordSize]
    omega
  simp only [encodeRecord, putUint16, putUint32, cons_append, nil_append,
    decodeRecord, hre, hse, ho, hs, ht, hid, hcn]
  rw [if_neg hmin, if_neg]
  · have hv : validate ⟨index, count, lane, session, sequence, offset⟩ data.length = .ok () := hr
    simp only [hv]
  · simp only [length_cons, length_append, headerSize]
    omega

/-- What is decoded is valid, is at least a header and a byte, and lies within the source. -/
theorem decodeRecord_ok {src : Bytes} {r : Record} {consumed : ℕ}
    (h : decodeRecord src = .ok (r, consumed)) :
    r.Valid ∧ minRecordSize ≤ consumed ∧ consumed ≤ src.length := by
  unfold decodeRecord at h
  split at h
  · dsimp only at h
    split_ifs at h with hmin hlen
    split at h
    · cases h
    · rename_i hv
      cases h
      exact ⟨hv, Nat.le_of_not_lt hmin, Nat.le_of_not_lt hlen⟩
  · cases h

/-! ### A carrier payload -/

section
variable {σ ε : Type} (visit : Record → Eff σ ε Unit) (fail : RecordError → ε)
variable {records : List Record}

/-- The records of a payload in order, until it is used up or something fails. -/
def parseLoop : ℕ → Bytes → Eff σ ε Unit
  | 0, _ => pure ()
  | k + 1, payload =>
    if payload = [] then pure ()
    else
      match decodeRecord payload with
      | .error e => throw (fail e)
      | .ok (record, consumed) => do
        visit record
        parseLoop k (payload.drop consumed)

/-- Every record takes at least thirteen bytes, so the loop ends within the payload's length. -/
def parse (payload : Bytes) : Eff σ ε Unit :=
  if payload = [] then throw (fail .headerTooShort)
  else parseLoop visit fail payload.length payload

/-- Visit records in order until a visit fails. -/
def visitAll : List Record → Eff σ ε Unit
  | [] => pure ()
  | r :: rs => do
    visit r
    visitAll rs

private theorem parseLoop_encode (hv : ∀ r ∈ records, r.Valid) {k : ℕ}
    (hk : (records.flatMap encodeRecord).length ≤ k) :
    parseLoop visit fail k (records.flatMap encodeRecord) = visitAll visit records := by
  induction records generalizing k with
  | nil => cases k <;> rfl
  | cons r rs ih =>
    have hlen := length_encodeRecord r
    rw [flatMap_cons, length_append, hlen] at hk
    obtain ⟨k, rfl⟩ : ∃ j, k = j + 1 := ⟨k - 1, by simp only [headerSize] at hk; omega⟩
    have hne : encodeRecord r ++ rs.flatMap encodeRecord ≠ [] := by
      intro h
      have := congrArg List.length h
      simp [hlen, headerSize] at this
    have hd : (encodeRecord r ++ rs.flatMap encodeRecord).drop (headerSize + r.data.length) =
        rs.flatMap encodeRecord := by
      rw [← hlen]
      exact drop_left
    rw [flatMap_cons, parseLoop, if_neg hne,
      decodeRecord_encodeRecord (hv r mem_cons_self)]
    dsimp only
    rw [hd, ih (fun r hr => hv r (mem_cons_of_mem _ hr))
      (by simp only [headerSize] at hk; omega)]
    rfl

theorem parse_encode (hv : ∀ r ∈ records, r.Valid) (hne : records ≠ []) :
    parse visit fail (records.flatMap encodeRecord) = visitAll visit records := by
  have hp : records.flatMap encodeRecord ≠ [] := by
    obtain ⟨_, _, rfl⟩ := exists_cons_of_ne_nil hne
    intro h
    have := congrArg List.length h
    simp [length_encodeRecord, headerSize] at this
  rw [parse, if_neg hp]
  exact parseLoop_encode visit fail hv (Nat.le_refl _)

theorem visitAll_append (records records' : List Record) : visitAll visit (records ++ records') =
    visitAll visit records >>= fun _ => visitAll visit records' := by
  induction records with
  | nil => rfl
  | cons record _ ih =>
    funext s
    rw [cons_append, visitAll, visitAll, ih, Eff.bind_apply, Eff.bind_apply, Eff.bind_apply]
    generalize visit record s = out
    obtain ⟨res, _⟩ := out
    cases res with
    | ok | error => rfl

theorem visitAll_preserves {I : σ → Prop}
    (hv : ∀ record ∈ records, ∀ s, I s → I (visit record s).2) {s : σ} (hs : I s) :
    I (visitAll visit records s).2 := by
  induction records generalizing s with
  | nil => exact hs
  | cons record _ ih =>
    have hst := hv record (mem_cons_self ..) s hs
    rw [visitAll, Eff.bind_apply]
    generalize visit record s = out at hst
    obtain ⟨res, _⟩ := out
    cases res with
    | error => exact hst
    | ok => exact ih (fun other ho => hv other (mem_cons_of_mem _ ho)) hst

/-- What every visit preserves holds after a payload of any bytes, and the only errors are those
of a visit or of the decoder. -/
theorem parse_preserves {I : σ → Prop} {E : ε → Prop}
    (hv : ∀ record s, I s → I (visit record s).2 ∧ ∀ e, (visit record s).1 = .error e → E e)
    (hf : ∀ e, E (fail e)) (payload : Bytes) {s : σ} (hs : I s) :
    I (parse visit fail payload s).2 ∧ ∀ e, (parse visit fail payload s).1 = .error e → E e := by
  have hl : ∀ k (payload : Bytes) (s : σ), I s → I (parseLoop visit fail k payload s).2 ∧
      ∀ e, (parseLoop visit fail k payload s).1 = .error e → E e := by
    intro k
    induction k with
    | zero => exact fun _ _ hs => ⟨hs, fun _ h => by cases h⟩
    | succ _ ih =>
      intro payload s hs
      unfold parseLoop
      split
      · exact ⟨hs, fun _ h => by cases h⟩
      cases decodeRecord payload with
      | error e => exact ⟨hs, fun e h => by cases h; exact hf _⟩
      | ok decoded =>
        obtain ⟨record, _⟩ := decoded
        have hst := hv record s hs
        dsimp only
        rw [Eff.bind_apply]
        generalize visit record s = out at hst
        obtain ⟨res, t⟩ := out
        cases res with
        | error => exact hst
        | ok => exact ih _ t hst.1
  unfold parse
  split
  · exact ⟨hs, fun e h => by cases h; exact hf _⟩
  · exact hl _ _ _ hs

end

/-- The records follow one another without a gap from `start` to `stop`. -/
def Tiled : List Record → ℕ → ℕ → Prop
  | [], start, stop => start = stop
  | record :: records, start, stop =>
    record.header.offset.toNat = start ∧ Tiled records (start + record.data.length) stop

end WgFrag.Data
