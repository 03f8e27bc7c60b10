import WgFrag.Wire.Message

/-! The deterministic protobuf encoding of CONTROL messages and its inverse, as an instance
of the codec parameter. Every scalar field is written, as the engine's builders set them. -/
namespace WgFrag.Wire.Protobuf
open List

/-- Base-128 groups, low first; the first argument bounds the continuation bytes. -/
def varintGroups : ℕ → ℕ → Bytes
  | 0, n => [UInt8.ofNat n]
  | k + 1, n =>
    if n < 128 then [UInt8.ofNat n]
    else UInt8.ofNat (n % 128 + 128) :: varintGroups k (n / 128)

def varint (n : ℕ) : Bytes := varintGroups n n

def readGroups : ℕ → Bytes → Option (ℕ × Bytes)
  | _, [] => none
  | 0, b :: rest => if b < 128 then some (b.toNat, rest) else none
  | k + 1, b :: rest =>
    if b < 128 then some (b.toNat, rest)
    else (readGroups k rest).map fun r => (b.toNat - 128 + 128 * r.1, r.2)

def readVarint (bytes : Bytes) : Option (ℕ × Bytes) := readGroups bytes.length bytes

/-- A varint field with the given key. -/
def scalar (key n : ℕ) : Bytes := varint key ++ varint n

/-- A length-delimited field with the given key. -/
def delimited (key : ℕ) (bytes : Bytes) : Bytes := varint key ++ (varint bytes.length ++ bytes)

def readScalar (key : ℕ) (bytes : Bytes) : Option (ℕ × Bytes) := do
  let (k, rest) ← readVarint bytes
  if k = key then readVarint rest else none

def readDelimited (bytes : Bytes) : Option (ℕ × Bytes × Bytes) := do
  let (key, rest) ← readVarint bytes
  let (length, rest) ← readVarint rest
  if length ≤ rest.length then some (key, rest.take length, rest.drop length) else none

def resultCode : ResultCode → ℕ
  | .unspecified => 0
  | .accepted => 1
  | .incompatibleVersion => 2
  | .missingRequiredFeature => 3
  | .invalidParameter => 4
  | .sessionCollision => 5
  | .unknown => 6

def readResultCode : ℕ → ResultCode
  | 0 => .unspecified
  | 1 => .accepted
  | 2 => .incompatibleVersion
  | 3 => .missingRequiredFeature
  | 4 => .invalidParameter
  | 5 => .sessionCollision
  | _ => .unknown

def syncReason : SyncReason → ℕ
  | .unspecified => 0
  | .unknownDataSession => 1
  | .unknown => 2

def readSyncReason : ℕ → SyncReason
  | 0 => .unspecified
  | 1 => .unknownDataSession
  | _ => .unknown

/-- The field number of a body and its encoding. -/
def encodeBody : Body → ℕ × Bytes
  | .capabilitiesHello h =>
    (10, scalar 8 h.dataProtocolVersion.toNat ++ (scalar 16 h.maxFragments.toNat ++
      (scalar 24 h.maxCarrierPayload.toNat ++ (scalar 32 h.supportedFeatureBits.toNat ++
      (scalar 40 h.requiredFeatureBits.toNat ++ scalar 48 h.reassemblyLifetimeMs.toNat)))))
  | .mtuProbe => (11, [])
  | .mtuProbeAck size => (12, scalar 8 size.toNat)
  | .ping sequence => (13, scalar 8 sequence.toNat)
  | .pong sequence => (14, scalar 8 sequence.toNat)
  | .capabilitiesAck a =>
    (15, scalar 8 a.selectedDataProtocolVersion.toNat ++ (scalar 16 a.selectedFeatureBits.toNat ++
      scalar 24 (resultCode a.result)))
  | .resetSequence session => (16, scalar 8 session.toNat)
  | .resetSequenceAck a =>
    (17, scalar 8 a.dataSessionID.toNat ++ (scalar 16 (resultCode a.result) ++
      match a.lastReceivedCarrierPayload with
      | some payload => scalar 24 payload.toNat
      | none => []))
  | .peerMTU mtu => (18, scalar 8 mtu.toNat)
  | .peerMTUAck a => (19, scalar 8 a.innerMTU.toNat ++ scalar 16 (resultCode a.result))
  | .stateSyncRequired s =>
    (20, scalar 8 (syncReason s.reason) ++ scalar 16 s.observedDataSessionID.toNat)

variable (bytes : Bytes)

def readHello : Option Body := do
  let (version, bytes) ← readScalar 8 bytes
  let (fragments, bytes) ← readScalar 16 bytes
  let (payload, bytes) ← readScalar 24 bytes
  let (supported, bytes) ← readScalar 32 bytes
  let (required, bytes) ← readScalar 40 bytes
  let (lifetime, _) ← readScalar 48 bytes
  some (.capabilitiesHello ⟨UInt32.ofNat version, UInt32.ofNat fragments, UInt32.ofNat payload,
    UInt64.ofNat supported, UInt64.ofNat required, UInt32.ofNat lifetime⟩)

def readCapabilitiesAck : Option Body := do
  let (version, bytes) ← readScalar 8 bytes
  let (features, bytes) ← readScalar 16 bytes
  let (result, _) ← readScalar 24 bytes
  some (.capabilitiesAck ⟨UInt32.ofNat version, UInt64.ofNat features, readResultCode result⟩)

def readResetSequenceAck : Option Body := do
  let (session, bytes) ← readScalar 8 bytes
  let (result, bytes) ← readScalar 16 bytes
  let hint := (readScalar 24 bytes).map fun r => UInt32.ofNat r.1
  some (.resetSequenceAck ⟨UInt32.ofNat session, readResultCode result, hint⟩)

def readPeerMTUAck : Option Body := do
  let (mtu, bytes) ← readScalar 8 bytes
  let (result, _) ← readScalar 16 bytes
  some (.peerMTUAck ⟨UInt32.ofNat mtu, readResultCode result⟩)

def readStateSync : Option Body := do
  let (reason, bytes) ← readScalar 8 bytes
  let (session, _) ← readScalar 16 bytes
  some (.stateSyncRequired ⟨readSyncReason reason, UInt32.ofNat session⟩)

/-- A body made of one 32-bit field. -/
def readWord (body : UInt32 → Body) (bytes : Bytes) : Option Body :=
  (readScalar 8 bytes).map fun r => body (UInt32.ofNat r.1)

def readBody (number : ℕ) (bytes : Bytes) : Option Body :=
  match number with
  | 10 => readHello bytes
  | 11 => some .mtuProbe
  | 12 => readWord .mtuProbeAck bytes
  | 13 => readWord .ping bytes
  | 14 => readWord .pong bytes
  | 15 => readCapabilitiesAck bytes
  | 16 => readWord .resetSequence bytes
  | 17 => readResetSequenceAck bytes
  | 18 => readWord .peerMTU bytes
  | 19 => readPeerMTUAck bytes
  | 20 => readStateSync bytes
  | _ => none

def encodeTail (m : Control) : Bytes :=
  match m.body with
  | some body => delimited ((encodeBody body).1 * 8 + 2) (encodeBody body).2
  | none => []

def encodePadding (m : Control) : Bytes :=
  match m.padding with
  | some padding => delimited 34 padding
  | none => []

def encode (m : Control) : Bytes :=
  scalar 8 m.messageID.toNat ++ (scalar 16 m.replyTo.toNat ++
    (scalar 24 m.controlEpoch.toNat ++ (encodePadding m ++ encodeTail m)))

/-- The body field at the end of a message, if there is one. -/
def readTail (bytes : Bytes) : Option (Option Body) :=
  if bytes = [] then some none
  else do
    let (key, payload, _) ← readDelimited bytes
    (readBody (key / 8) payload).map some

def decodeMessage (bytes : Bytes) : Option Control := do
  let (messageID, bytes) ← readScalar 8 bytes
  let (replyTo, bytes) ← readScalar 16 bytes
  let (epoch, bytes) ← readScalar 24 bytes
  let message := fun padding body => ⟨UInt64.ofNat messageID, UInt64.ofNat replyTo,
    UInt64.ofNat epoch, padding, body⟩
  match readDelimited bytes with
  | some (34, padding, rest) => (readTail rest).map (message (some padding))
  | _ => (readTail bytes).map (message none)

def proto : Proto where
  marshal := encode
  unmarshal := decodeMessage

/-! ### Round trip -/

/-- The groups are read back whatever follows them, if the reader may take that many. -/
theorem readGroups_varintGroups {k n fuel : ℕ} (rest : Bytes) (hn : n ≤ k)
    (hf : (varintGroups k n).length ≤ fuel + 1) :
    readGroups fuel (varintGroups k n ++ rest) = some (n, rest) := by
  induction k generalizing n fuel with
  | zero =>
    obtain rfl : n = 0 := Nat.le_zero.mp hn
    cases fuel <;> simp [varintGroups, readGroups]
  | succ k ih =>
    unfold varintGroups at hf ⊢
    split_ifs at hf ⊢ with hs
    · have hbyte : (UInt8.ofNat n).toNat = n := by
        simp only [UInt8.toNat_ofNat']
        omega
      have hlt : UInt8.ofNat n < 128 := by
        rw [UInt8.lt_iff_toNat_lt, hbyte]
        exact hs
      cases fuel <;> simp [readGroups, hlt, hbyte]
    · have hbyte : (UInt8.ofNat (n % 128 + 128)).toNat = n % 128 + 128 := by
        simp only [UInt8.toNat_ofNat']
        omega
      have hge : ¬ UInt8.ofNat (n % 128 + 128) < 128 := by
        rw [UInt8.lt_iff_toNat_lt, hbyte]
        simp
      have hpos : 0 < (varintGroups k (n / 128)).length := by
        cases k <;> unfold varintGroups
        · simp
        · split <;> simp
      obtain ⟨f, rfl⟩ : ∃ f, fuel = f + 1 := by
        refine ⟨fuel - 1, ?_⟩
        simp only [length_cons] at hf
        omega
      have hr : readGroups f (varintGroups k (n / 128) ++ rest) = some (n / 128, rest) := by
        apply ih
        · omega
        · simp only [length_cons] at hf
          omega
      simp only [cons_append, readGroups, if_neg hge, hr, Option.map_some, hbyte]
      congr 2
      omega

theorem readVarint_varint (n : ℕ) (rest : Bytes) :
    readVarint (varint n ++ rest) = some (n, rest) := by
  apply readGroups_varintGroups rest (Nat.le_refl n)
  rw [length_append, varint]
  omega

theorem readScalar_scalar (key n : ℕ) (rest : Bytes) :
    readScalar key (scalar key n ++ rest) = some (n, rest) := by
  rw [scalar, append_assoc, readScalar, readVarint_varint]
  simp [readVarint_varint]

theorem readScalar_last (key n : ℕ) : readScalar key (scalar key n) = some (n, []) := by
  have h := readScalar_scalar key n []
  rwa [append_nil] at h

private theorem readScalar_nil (key : ℕ) : readScalar key [] = none := rfl

theorem readDelimited_delimited (key : ℕ) (bytes rest : Bytes) :
    readDelimited (delimited key bytes ++ rest) = some (key, bytes, rest) := by
  rw [delimited, append_assoc, append_assoc, readDelimited, readVarint_varint]
  simp [readVarint_varint]

theorem readResultCode_resultCode (r : ResultCode) : readResultCode (resultCode r) = r := by
  cases r <;> rfl

private theorem readSyncReason_syncReason (r : SyncReason) : readSyncReason (syncReason r) = r := by
  cases r <;> rfl

private theorem readBody_encodeBody (body : Body) :
    readBody (encodeBody body).1 (encodeBody body).2 = some body := by
  cases body with
  | capabilitiesHello => simp [encodeBody, readBody, readHello, readScalar_scalar, readScalar_last]
  | mtuProbe => rfl
  | mtuProbeAck | ping | pong | resetSequence | peerMTU =>
    simp [encodeBody, readBody, readWord, readScalar_last]
  | capabilitiesAck =>
    simp [encodeBody, readBody, readCapabilitiesAck, readScalar_scalar, readScalar_last,
      readResultCode_resultCode]
  | resetSequenceAck ack =>
    obtain ⟨_, _, hint⟩ := ack
    cases hint with
    | none =>
      simp [encodeBody, readBody, readResetSequenceAck, readScalar_scalar, readScalar_last,
        readScalar_nil, readResultCode_resultCode]
    | some =>
      simp [encodeBody, readBody, readResetSequenceAck, readScalar_scalar, readScalar_last,
        readResultCode_resultCode]
  | peerMTUAck =>
    simp [encodeBody, readBody, readPeerMTUAck, readScalar_scalar, readScalar_last,
      readResultCode_resultCode]
  | stateSyncRequired =>
    simp [encodeBody, readBody, readStateSync, readScalar_scalar, readScalar_last,
      readSyncReason_syncReason]

private theorem encodeBody_number (body : Body) : (encodeBody body).1 * 8 + 2 ≠ 34 := by
  cases body <;> simp [encodeBody]

theorem varint_ne_nil (n : ℕ) : varint n ≠ [] := by
  intro h
  have hr := readVarint_varint n []
  rw [h] at hr
  cases hr

private theorem delimited_ne_nil (key : ℕ) (bytes : Bytes) : delimited key bytes ≠ [] := by
  simp [delimited, varint_ne_nil]

private theorem readTail_encodeTail (m : Control) : readTail (encodeTail m) = some m.body := by
  unfold encodeTail
  cases m.body with
  | none => rfl
  | some body =>
    have hr := readDelimited_delimited ((encodeBody body).1 * 8 + 2) (encodeBody body).2 []
    rw [append_nil] at hr
    have hn : ((encodeBody body).1 * 8 + 2) / 8 = (encodeBody body).1 := by omega
    simp [readTail, delimited_ne_nil, hr, hn, readBody_encodeBody]

/-- A message without padding does not start with the key of a padding. -/
theorem readDelimited_encodeTail (m : Control) :
    ∀ padding rest, readDelimited (encodeTail m) ≠ some (34, padding, rest) := by
  intro padding rest h
  unfold encodeTail at h
  cases hb : m.body with
  | none =>
    rw [hb] at h
    cases h
  | some body =>
    have hr := readDelimited_delimited ((encodeBody body).1 * 8 + 2) (encodeBody body).2 []
    rw [append_nil] at hr
    simp only [hb, hr, Option.some.injEq, Prod.mk.injEq] at h
    exact encodeBody_number body h.1

theorem lawful : proto.Lawful := by
  intro m
  have ht := readTail_encodeTail m
  show decodeMessage (encode m) = some m
  obtain ⟨id, replyTo, epoch, padding, body⟩ := m
  cases padding with
  | some =>
    simp [decodeMessage, encode, encodePadding, readScalar_scalar, readDelimited_delimited, ht]
  | none =>
    -- so the padding branch is not taken
    have hn := readDelimited_encodeTail ⟨id, replyTo, epoch, none, body⟩
    simp [decodeMessage, encode, encodePadding, readScalar_scalar, ht]

end WgFrag.Wire.Protobuf
