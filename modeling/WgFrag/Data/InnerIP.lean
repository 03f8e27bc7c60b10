import WgFrag.Data.Record

/-! The checks of an inner IP datagram: its lengths, and that it is not a native fragment. -/
namespace WgFrag.Data
open List

/-- An address as `netip.Addr` has it. -/
inductive Addr where
  | invalid
  | v4 (bytes : Bytes)
  | v6 (bytes : Bytes) (zone : String)
  deriving DecidableEq, Repr

def Addr.bytes : Addr → Bytes
  | .invalid => []
  | .v4 bytes => bytes
  | .v6 bytes _ => bytes

def Addr.is4 : Addr → Bool
  | .v4 _ => true
  | _ => false

def Addr.is6 : Addr → Bool
  | .v6 _ _ => true
  | _ => false

/-- An IPv4 address mapped to IPv6. -/
def Addr.is4In6 : Addr → Bool
  | .v6 bytes _ => bytes.take 12 == [0, 0, 0, 0, 0, 0, 0, 0, 0, 0, 0xff, 0xff]
  | _ => false

def Addr.unmap (a : Addr) : Addr := if a.is4In6 then .v4 (a.bytes.drop 12) else a

def Addr.isLinkLocalUnicast (a : Addr) : Bool :=
  match a.unmap with
  | .v4 bytes => bytes.getD 0 0 == 169 && bytes.getD 1 0 == 254
  | .v6 bytes _ => bytes.getD 0 0 == 0xfe && bytes.getD 1 0 &&& 0xc0 == 0x80
  | .invalid => false

namespace InnerIP

inductive Error where
  | tooShort
  | unsupportedIP
  | invalidIPv4
  | invalidIPv6
  | trailingData
  | nativeFragment
  deriving DecidableEq, Repr

/-- A checked datagram; its data ends at the total length of the IP header. -/
structure Packet where
  version : ℕ
  source : Addr
  destination : Addr
  data : Bytes
  deriving DecidableEq, Repr

variable (packet : Bytes)

/-- A byte of the datagram. The lengths are checked before any byte is read. -/
def byte (i : ℕ) : UInt8 := packet.getD i 0

def slice (start stop : ℕ) : Bytes := (packet.drop start).take (stop - start)

def ipv4Length : ℕ := uint16 (byte packet 2) (byte packet 3)

def ipv6Length : ℕ := 40 + uint16 (byte packet 4) (byte packet 5)

def ipv4Fragmented : Except Error Bool :=
  if packet.length < 20 then .error .tooShort
  else
    let headerLen := (byte packet 0 &&& 0x0f).toNat * 4
    if headerLen < 20 ∨ packet.length < headerLen then .error .invalidIPv4
    else if ipv4Length packet < headerLen ∨ packet.length < ipv4Length packet then
      .error .invalidIPv4
    else
      let flagsOffset := UInt16.ofNat (uint16 (byte packet 6) (byte packet 7))
      .ok (flagsOffset &&& 0x2000 != 0 || flagsOffset &&& 0x1fff != 0)

/-- The walk over extension headers; the first argument counts those still allowed. -/
def ipv6Extensions (packet : Bytes) : ℕ → UInt8 → ℕ → Except Error Bool
  | 0, _, _ => .error .invalidIPv6
  | k + 1, next, offset =>
    if next = 44 then
      if packet.length < offset + 8 then .error .invalidIPv6 else .ok true
    else if next = 0 ∨ next = 43 ∨ next = 60 ∨ next = 51 then
      if packet.length < offset + 2 then .error .invalidIPv6
      else
        -- The Authentication Header counts its length in words, less two.
        let headerLen := if next = 51 then ((byte packet (offset + 1)).toNat + 2) * 4
          else ((byte packet (offset + 1)).toNat + 1) * 8
        if headerLen < 8 ∨ packet.length < offset + headerLen then .error .invalidIPv6
        else ipv6Extensions packet k (byte packet offset) (offset + headerLen)
    else .ok false

def ipv6Fragmented : Except Error Bool :=
  if packet.length < 40 then .error .tooShort
  else if packet.length ≠ ipv6Length packet then .error .invalidIPv6
  else ipv6Extensions packet 4 (byte packet 6) 40

def hasNativeFragment : Except Error Bool :=
  if packet.length = 0 then .error .tooShort
  else if byte packet 0 >>> 4 = 4 then ipv4Fragmented packet
  else if byte packet 0 >>> 4 = 6 then ipv6Fragmented packet
  else .error .unsupportedIP

def parse : Except Error Packet :=
  match hasNativeFragment packet with
  | .error e => .error e
  | .ok true => .error .nativeFragment
  | .ok false =>
    if byte packet 0 >>> 4 = 4 then
      .ok ⟨4, .v4 (slice packet 12 16), .v4 (slice packet 16 20),
        packet.take (ipv4Length packet)⟩
    else if byte packet 0 >>> 4 = 6 then
      .ok ⟨6, .v6 (slice packet 8 24) "", .v6 (slice packet 24 40) "",
        packet.take (ipv6Length packet)⟩
    else .error .unsupportedIP

def parseExact : Except Error Packet :=
  match parse packet with
  | .error e => .error e
  | .ok parsed => if parsed.data.length ≠ packet.length then .error .trailingData else .ok parsed

/-! ### Trimming -/

variable {packet} {n : ℕ}
variable {parsed : Packet} {b : Bool}

theorem byte_take {i : ℕ} (h : i < n) : byte (packet.take n) i = byte packet i := by
  unfold byte
  rw [getD_eq_getElem?_getD, getD_eq_getElem?_getD, getElem?_take, if_pos h]

theorem slice_take {start stop : ℕ} (h : stop ≤ n) :
    slice (packet.take n) start stop = slice packet start stop := by
  unfold slice
  rw [drop_take, take_take]
  congr 1
  omega

private theorem ipv4Fragmented_ok (h : ipv4Fragmented packet = .ok b) :
    20 ≤ ipv4Length packet ∧ ipv4Length packet ≤ packet.length := by
  unfold ipv4Fragmented at h
  dsimp only at h
  split_ifs at h with hsh hh ht
  omega

/-- An IPv4 datagram cut at its total length has the same header. -/
theorem ipv4Fragmented_take (h20 : 20 ≤ ipv4Length packet)
    (hlen : ipv4Length packet ≤ packet.length) (h : ipv4Fragmented packet = .ok b) :
    ipv4Fragmented (packet.take (ipv4Length packet)) = .ok b := by
  have hl : ipv4Length (packet.take (ipv4Length packet)) = ipv4Length packet := by
    rw [ipv4Length, byte_take (by omega), byte_take (by omega)]
    rfl
  have ht : (packet.take (ipv4Length packet)).length = ipv4Length packet := by
    rw [length_take]
    omega
  unfold ipv4Fragmented at h ⊢
  rw [hl, ht, byte_take (by omega), byte_take (by omega), byte_take (by omega)]
  dsimp only at h ⊢
  split_ifs at h with hsh hh hto
  rw [if_neg (by omega), if_neg (by omega), if_neg (by omega)]
  exact h

theorem ipv6Fragmented_ok (h : ipv6Fragmented packet = .ok b) :
    40 ≤ packet.length ∧ packet.length = ipv6Length packet := by
  unfold ipv6Fragmented at h
  split_ifs at h with hsh hlen
  omega

theorem parse_cases (h : parse packet = .ok parsed) :
    (byte packet 0 >>> 4 = 4 ∧ ipv4Fragmented packet = .ok false ∧
      parsed = ⟨4, .v4 (slice packet 12 16), .v4 (slice packet 16 20),
        packet.take (ipv4Length packet)⟩) ∨
    (byte packet 0 >>> 4 = 6 ∧ ipv6Fragmented packet = .ok false ∧
      parsed = ⟨6, .v6 (slice packet 8 24) "", .v6 (slice packet 24 40) "",
        packet.take (ipv6Length packet)⟩) := by
  unfold parse at h
  split at h
  · cases h
  · cases h
  rename_i hn
  unfold hasNativeFragment at hn
  split_ifs at h hn with h4 he h6
  · exact .inl ⟨h4, hn, (Except.ok.inj h).symm⟩
  · exact .inr ⟨h6, hn, (Except.ok.inj h).symm⟩

theorem parse_ipv4 (h4 : byte packet 0 >>> 4 = 4) (hf : ipv4Fragmented packet = .ok false) :
    parse packet = .ok ⟨4, .v4 (slice packet 12 16), .v4 (slice packet 16 20),
      packet.take (ipv4Length packet)⟩ := by
  have hlen := ipv4Fragmented_ok hf
  unfold parse hasNativeFragment
  rw [if_neg (by omega), if_pos h4, hf]
  rw [if_pos h4]

theorem parse_ipv6 (h6 : byte packet 0 >>> 4 = 6) (hf : ipv6Fragmented packet = .ok false) :
    parse packet = .ok ⟨6, .v6 (slice packet 8 24) "", .v6 (slice packet 24 40) "",
      packet.take (ipv6Length packet)⟩ := by
  have hlen := ipv6Fragmented_ok hf
  have h4 : byte packet 0 >>> 4 ≠ 4 := by
    rw [h6]
    decide
  unfold parse hasNativeFragment
  rw [if_neg (by omega), if_neg h4, if_pos h6, hf]
  rw [if_neg h4, if_pos h6]

/-- What `parse` accepts is a datagram of its own once it is cut at its total length. -/
theorem parseExact_data (h : parse packet = .ok parsed) :
    parseExact parsed.data = .ok parsed ∧ 20 ≤ parsed.data.length := by
  rcases parse_cases h with ⟨h4, hf, rfl⟩ | ⟨h6, hf, rfl⟩
  · -- An IPv4 packet may be longer than its datagram.
    obtain ⟨h20, hlen⟩ := ipv4Fragmented_ok hf
    have hl : (packet.take (ipv4Length packet)).length = ipv4Length packet := by
      rw [length_take]
      omega
    have heq : ipv4Length (packet.take (ipv4Length packet)) = ipv4Length packet := by
      rw [ipv4Length, byte_take (by omega), byte_take (by omega)]
      rfl
    have hv : byte (packet.take (ipv4Length packet)) 0 >>> 4 = 4 := by
      rw [byte_take (by omega)]
      exact h4
    have hp := parse_ipv4 hv (ipv4Fragmented_take h20 hlen hf)
    rw [slice_take (by omega), slice_take (by omega), heq, take_take, Nat.min_self] at hp
    refine ⟨?_, by rw [hl]; exact h20⟩
    unfold parseExact
    rw [hp]
    simp
  · obtain ⟨_, hlen⟩ := ipv6Fragmented_ok hf
    have ha : packet.take (ipv6Length packet) = packet := by rw [← hlen, take_length]
    have hp := parse_ipv6 h6 hf
    rw [ha] at hp ⊢
    refine ⟨?_, show 20 ≤ packet.length by omega⟩
    unfold parseExact
    rw [hp]
    simp

/-- An IPv4 packet cut at its total length; other packets stay as they are. -/
def trim (packet : Bytes) : Bytes :=
  if byte packet 0 >>> 4 = 4 then packet.take (ipv4Length packet) else packet

theorem trim_eq (h : parse packet = .ok parsed) : trim packet = parsed.data := by
  unfold trim
  rcases parse_cases h with ⟨h4, hf, rfl⟩ | ⟨h6, hf, rfl⟩
  · rw [if_pos h4]
  · rw [if_neg (by rw [h6]; decide)]
    exact (take_of_length_le (Nat.le_of_eq (ipv6Fragmented_ok hf).2)).symm

theorem parse_take (h : parse packet = .ok parsed) : ∃ n, parsed.data = packet.take n := by
  rcases parse_cases h with ⟨-, -, rfl⟩ | ⟨-, -, rfl⟩
  · exact ⟨_, rfl⟩
  · exact ⟨_, rfl⟩

private theorem ipv6Extensions_error {k : ℕ} {next : UInt8} {offset : ℕ} {e : Error}
    (h : ipv6Extensions packet k next offset = .error e) : e = .invalidIPv6 := by
  induction k generalizing next offset with
  | zero =>
    cases h
    rfl
  | succ k ih =>
    unfold ipv6Extensions at h
    dsimp only at h
    split_ifs at h
    · cases h
      rfl
    · cases h
      rfl
    · cases h
      rfl
    · exact ih h
    · cases h
      rfl
    · exact ih h

/-- Only the exact parser reports bytes after the packet. -/
theorem parse_error {e : Error} (h : parse packet = .error e) : e ≠ .trailingData := by
  have hfr : ∀ {e}, hasNativeFragment packet = .error e → e ≠ .trailingData := by
    intro e hf
    unfold hasNativeFragment ipv4Fragmented ipv6Fragmented at hf
    dsimp only at hf
    split_ifs at hf <;> first | (cases hf; simp) | (rw [ipv6Extensions_error hf]; simp)
  unfold parse at h
  split at h
  · next hf =>
    cases h
    exact hfr hf
  · cases h
    simp
  · split_ifs at h
    cases h
    simp

theorem parseExact_eq (h : parseExact packet = .ok parsed) : parsed.data = packet := by
  unfold parseExact at h
  split at h
  · cases h
  rename_i q hq
  split_ifs at h with hlen
  obtain rfl := Except.ok.inj h
  obtain ⟨n, hn⟩ := parse_take hq
  rw [hn, length_take] at hlen
  rw [hn]
  exact take_of_length_le (by omega)

end InnerIP
end WgFrag.Data
