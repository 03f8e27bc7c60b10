import Mathlib.Data.List.Forall2
import WgFrag.Data.Record
import WgFrag.Wire.Message

/-! The grammar of DATA payloads: the strict parser accepts the concatenations of encoded records
and nothing else, and no CONTROL frame is one of them. -/
namespace WgFrag.Data
open WgFrag.Lib List

/-! ### Reading a record and encoding it again -/

theorem uint16_lt (b0 b1 : UInt8) : uint16 b0 b1 < 65536 := by
  have h0 := b0.toNat_lt
  have h1 := b1.toNat_lt
  unfold uint16
  omega

private theorem putUint16_uint16 (b0 b1 : UInt8) : putUint16 (uint16 b0 b1) = [b0, b1] := by
  have h1 := b1.toNat_lt
  have hhi : uint16 b0 b1 / 256 = b0.toNat := by
    unfold uint16
    omega
  have hl : UInt8.ofNat (uint16 b0 b1) = b1 := by
    apply UInt8.toNat_inj.mp
    rw [UInt8.toNat_ofNat']
    unfold uint16
    omega
  rw [putUint16, hhi, hl, UInt8.ofNat_toNat]

private theorem uint32_lt (b0 b1 b2 b3 : UInt8) : uint32 b0 b1 b2 b3 < 4294967296 := by
  have h0 := uint16_lt b0 b1
  have h1 := uint16_lt b2 b3
  unfold uint32
  omega

private theorem putUint16_mod (n : ℕ) : putUint16 (n % 65536) = putUint16 n := by
  have hhi : UInt8.ofNat (n % 65536 / 256) = UInt8.ofNat (n / 256) := by
    apply UInt8.toNat_inj.mp
    rw [UInt8.toNat_ofNat', UInt8.toNat_ofNat']
    omega
  have hl : UInt8.ofNat (n % 65536) = UInt8.ofNat n := by
    apply UInt8.toNat_inj.mp
    rw [UInt8.toNat_ofNat', UInt8.toNat_ofNat']
    omega
  rw [putUint16, putUint16, hhi, hl]

private theorem putUint32_uint32 (b0 b1 b2 b3 : UInt8) :
    putUint32 (uint32 b0 b1 b2 b3) = [b0, b1, b2, b3] := by
  have hlt := uint16_lt b2 b3
  have hhi : uint32 b0 b1 b2 b3 / 65536 = uint16 b0 b1 := by
    unfold uint32
    omega
  have hl : uint32 b0 b1 b2 b3 % 65536 = uint16 b2 b3 := by
    unfold uint32
    omega
  rw [putUint32, hhi, putUint16_uint16, ← putUint16_mod, hl, putUint16_uint16]
  rfl

private theorem fragmentByte_nibbles (b : UInt8) :
    (b >>> 4) <<< 4 ||| ((b &&& 0x0f) + 1 - 1) = b := by
  have ha : ∀ n : Fin 256, (UInt8.ofNat n.val >>> 4) <<< 4 |||
      ((UInt8.ofNat n.val &&& 0x0f) + 1 - 1) = UInt8.ofNat n.val := by decide +kernel
  have h := ha ⟨b.toNat, b.toNat_lt⟩
  simp only [UInt8.ofNat_toNat] at h
  exact h

private theorem toNat_uint16 (b0 b1 : UInt8) : (UInt16.ofNat (uint16 b0 b1)).toNat = uint16 b0 b1 :=
  UInt16.toNat_ofNat_of_lt (uint16_lt b0 b1)

private theorem toNat_uint32 (b0 b1 b2 b3 : UInt8) :
    (UInt32.ofNat (uint32 b0 b1 b2 b3)).toNat = uint32 b0 b1 b2 b3 :=
  UInt32.toNat_ofNat_of_lt (uint32_lt b0 b1 b2 b3)

theorem decodeRecord_encodes {src : Bytes} {r : Record} {consumed : ℕ}
    (h : decodeRecord src = .ok (r, consumed)) : src = encodeRecord r ++ src.drop consumed := by
  unfold decodeRecord at h
  split at h
  · next l0 l1 fragment lane s0 s1 q0 q1 q2 q3 o0 o1 rest =>
    dsimp only at h
    split_ifs at h with hmin hlen
    split at h
    · cases h
    cases h
    simp only [minRecordSize, headerSize] at hmin
    have ht : (rest.take (uint16 l0 l1 - headerSize)).length = uint16 l0 l1 - headerSize := by
      rw [length_take]
      simp only [length_cons] at hlen
      simp only [headerSize]
      omega
    have hr : headerSize + (uint16 l0 l1 - headerSize) = uint16 l0 l1 := by
      simp only [headerSize]
      omega
    obtain ⟨_, hk⟩ : ∃ k, uint16 l0 l1 = k + 12 := ⟨uint16 l0 l1 - 12, by omega⟩
    have hd : (l0 :: l1 :: fragment :: lane :: s0 :: s1 :: q0 :: q1 :: q2 :: q3 :: o0 :: o1 ::
        rest).drop (uint16 l0 l1) = rest.drop (uint16 l0 l1 - headerSize) := by
      rw [hk]
      rfl
    rw [hd]
    simp only [encodeRecord, fragmentByte, ht, hr, putUint16_uint16, putUint32_uint32,
      toNat_uint16, toNat_uint32, fragmentByte_nibbles, append_assoc,
      take_append_drop]
    rfl
  · cases h

/-! ### Payloads -/

/-- The payload is the encodings of the records, one after the other. -/
def Concatenates (payload : Bytes) (records : List Record) : Prop :=
  records ≠ [] ∧ ∃ chunks : List Bytes, chunks.flatten = payload ∧
    List.Forall₂ (fun r chunk => ∃ room, marshalTo room r.header r.data = .ok chunk) records chunks

private theorem marshalTo_iff {r : Record} {chunk : Bytes} :
    (∃ room, marshalTo room r.header r.data = .ok chunk) ↔ r.Valid ∧ chunk = encodeRecord r := by
  unfold marshalTo Record.Valid
  constructor
  · rintro ⟨room, h⟩
    split at h
    · cases h
    rename_i hv
    split_ifs at h
    cases h
    exact ⟨hv, rfl⟩
  · rintro ⟨hv, rfl⟩
    refine ⟨headerSize + r.data.length, ?_⟩
    rw [hv]
    rw [if_neg (Nat.lt_irrefl _)]

theorem concatenates_iff {payload : Bytes} {records : List Record} :
    Concatenates payload records ↔
      records ≠ [] ∧ (∀ r ∈ records, r.Valid) ∧ records.flatMap encodeRecord = payload := by
  have hch : ∀ {records : List Record} {chunks : List Bytes}, List.Forall₂ (fun r chunk =>
      ∃ room, marshalTo room r.header r.data = .ok chunk) records chunks ↔
      (∀ r ∈ records, r.Valid) ∧ chunks = records.map encodeRecord := by
    intro records
    induction records with
    | nil =>
      intro chunks
      rw [forall₂_nil_left_iff]
      exact ⟨fun h => ⟨fun _ hr => absurd hr not_mem_nil, h⟩, fun h => h.2⟩
    | cons _ _ ih =>
      intro chunks
      rw [forall₂_cons_left_iff]
      constructor
      · rintro ⟨_, _, hc, hre, rfl⟩
        obtain ⟨hv, rfl⟩ := marshalTo_iff.mp hc
        obtain ⟨ha, rfl⟩ := ih.mp hre
        exact ⟨forall_mem_cons.mpr ⟨hv, ha⟩, rfl⟩
      · rintro ⟨ha, rfl⟩
        obtain ⟨hv, ha⟩ := forall_mem_cons.mp ha
        exact ⟨_, _, marshalTo_iff.mpr ⟨hv, rfl⟩, ih.mpr ⟨ha, rfl⟩, rfl⟩
  unfold Concatenates
  constructor
  · rintro ⟨hne, _, rfl, h⟩
    obtain ⟨ha, rfl⟩ := hch.mp h
    exact ⟨hne, ha, flatMap_def ..⟩
  · rintro ⟨hne, ha, rfl⟩
    exact ⟨hne, _, (flatMap_def ..).symm, hch.mpr ⟨ha, rfl⟩⟩

section
variable {σ ε : Type} {visit : Record → Eff σ ε Unit} {fail : RecordError → ε}
variable {payload : Bytes}

private theorem parseLoop_ok {k : ℕ} {s : σ} (hk : payload.length ≤ k)
    (h : (parseLoop visit fail k payload s).1 = .ok ()) :
    ∃ records : List Record, (∀ r ∈ records, r.Valid) ∧ records.flatMap encodeRecord = payload := by
  induction k generalizing payload s with
  | zero =>
    obtain rfl := eq_nil_of_length_eq_zero (Nat.le_zero.mp hk)
    exact ⟨[], fun _ hr => absurd hr not_mem_nil, rfl⟩
  | succ k ih =>
    unfold parseLoop at h
    split_ifs at h with he
    · subst he
      exact ⟨[], fun _ hr => absurd hr not_mem_nil, rfl⟩
    cases hd : decodeRecord payload with
    | error =>
      rw [hd] at h
      cases h
    | ok decoded =>
      obtain ⟨r, consumed⟩ := decoded
      obtain ⟨hv, hmin, _⟩ := decodeRecord_ok hd
      rw [hd] at h
      dsimp only at h
      rw [Eff.bind_apply] at h
      generalize visit r s = out at h
      obtain ⟨res, _⟩ := out
      cases res with
      | error => cases h
      | ok =>
        have hre : (payload.drop consumed).length ≤ k := by
          rw [length_drop]
          simp only [minRecordSize, headerSize] at hmin
          omega
        obtain ⟨records, ha, hflat⟩ := ih hre h
        refine ⟨r :: records, forall_mem_cons.mpr ⟨hv, ha⟩, ?_⟩
        rw [flatMap_cons, hflat]
        exact (decodeRecord_encodes hd).symm

/-- What the parser accepts, whatever its visitor does, is a payload of records. -/
theorem parse_ok {s : σ} (h : (parse visit fail payload s).1 = .ok ()) :
    ∃ records, Concatenates payload records := by
  unfold parse at h
  split_ifs at h with he
  obtain ⟨records, ha, hflat⟩ := parseLoop_ok (Nat.le_refl _) h
  refine ⟨records, concatenates_iff.mpr ⟨?_, ha, hflat⟩⟩
  rintro rfl
  exact he hflat.symm

theorem Concatenates.parse {records : List Record} (h : Concatenates payload records) :
    parse visit fail payload = visitAll visit records := by
  obtain ⟨hne, ha, rfl⟩ := concatenates_iff.mp h
  exact parse_encode visit fail ha hne

/-- A visitor that updates a state and returns nil. -/
def visitor (f : Record → σ → σ) (r : Record) : Eff σ ε Unit := modify (f r)

private theorem visitAll_visitor (f : Record → σ → σ) (records : List Record) (s : σ) :
    visitAll (visitor (ε := ε) f) records s = (.ok (), records.foldl (fun s r => f r s) s) := by
  induction records generalizing s with
  | nil => rfl
  | cons r _ ih => exact ih (f r s)

theorem visitAll_collect (records visited : List Record) :
    visitAll (visitor (ε := ε) fun r visited => visited ++ [r]) records visited =
      (.ok (), visited ++ records) := by
  induction records generalizing visited with
  | nil => rw [append_nil, visitAll, Eff.pure_apply]
  | cons r _ ih =>
    rw [append_cons]
    exact ih (visited ++ [r])

end

/-! ### DATA and CONTROL -/

/-- A DATA payload starts with the length of its first record, which is not the CONTROL marker. -/
theorem Concatenates.not_control {payload frame : Bytes} {records : List Record}
    (h : Concatenates payload records) : payload ≠ Wire.encodeFrame frame := by
  obtain ⟨hne, ha, rfl⟩ := concatenates_iff.mp h
  obtain ⟨r, _, rfl⟩ := exists_cons_of_ne_nil hne
  have hr := r.valid_iff.mp (ha r mem_cons_self)
  have hp := uint16_put (headerSize + r.data.length) (Nat.lt_succ_of_le hr.data.2)
  intro heq
  have hhi : UInt8.ofNat ((headerSize + r.data.length) / 256) = 0 := (List.cons.inj heq).1
  have hl : UInt8.ofNat (headerSize + r.data.length) = 0 :=
    (List.cons.inj (List.cons.inj heq).2).1
  rw [hhi, hl] at hp
  have hpos : 0 < headerSize := by decide
  have hz : uint16 0 0 = 0 := rfl
  omega

/-- The parser of DATA payloads with a visitor `f` that returns nil: it succeeds exactly on the
concatenations of encoded records and visits these; no codec of CONTROL frames accepts such a
payload, and no parser of DATA payloads accepts a frame. -/
theorem payload_grammar {σ ε : Type} (f : Record → σ → σ) (fail : RecordError → ε)
    (payload : Bytes) (s : σ) :
    ((parse (visitor f) fail payload s).1 = .ok () ↔ ∃ records, Concatenates payload records) ∧
    (∀ records, Concatenates payload records →
      parse (visitor f) fail payload s = (.ok (), records.foldl (fun s r => f r s) s) ∧
      (parse (visitor fun r visited => visited ++ [r]) fail payload []).2 = records ∧
      (records.map encodeRecord).flatten = payload) ∧
    ∀ c : Wire.Codec,
      ((parse (visitor f) fail payload s).1 = .ok () → ∃ e, c.parse payload = .error e) ∧
      ((∃ body, c.parse payload = .ok body) →
        ∃ e, (parse (visitor f) fail payload s).1 = .error e) := by
  have hcon : ∀ {c : Wire.Codec} {body : Bytes}, c.parse payload = .ok body →
      (parse (visitor f) fail payload s).1 ≠ .ok () := by
    intro c body hbody hok
    obtain ⟨records, hrec⟩ := parse_ok hok
    exact hrec.not_control (Wire.Codec.parse_ok hbody)
  refine ⟨⟨parse_ok, fun ⟨records, h⟩ => ?_⟩, fun records h => ⟨?_, ?_, ?_⟩,
    fun c => ⟨fun hok => ?_, fun ⟨body, hbody⟩ => ?_⟩⟩
  · rw [h.parse, visitAll_visitor]
  · rw [h.parse, visitAll_visitor]
  · rw [h.parse, visitAll_collect]
    rfl
  · obtain ⟨-, -, hflat⟩ := concatenates_iff.mp h
    rw [← hflat]
    exact (flatMap_def ..).symm
  · cases hpar : c.parse payload with
    | error e => exact ⟨e, rfl⟩
    | ok => exact absurd hok (hcon hpar)
  · cases hpar : (parse (visitor f) fail payload s).1 with
    | error e => exact ⟨e, rfl⟩
    | ok => exact absurd hpar (hcon hbody)

end WgFrag.Data
