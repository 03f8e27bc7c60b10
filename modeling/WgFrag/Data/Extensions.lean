import WgFrag.Data.Lane
import WgFrag.Data.PacketTooBig

/-! The extension headers of an IPv6 packet. The source walks over them in three places; a chain
says what each of them should find. -/
namespace WgFrag.Data
open InnerIP
variable {packet : Bytes}

/-! ### Chains -/

/-- Hop-by-Hop, Routing, Destination Options and Authentication headers. -/
def IsExtension (next : UInt8) : Prop := next = 0 ∨ next = 43 ∨ next = 60 ∨ next = 51

def extensionLen (packet : Bytes) (next : UInt8) (offset : ℕ) : ℕ :=
  if next = 51 then ((byte packet (offset + 1)).toNat + 2) * 4
  else ((byte packet (offset + 1)).toNat + 1) * 8

/-- From the protocol number `next` at an offset, `n` extension headers inside the packet lead to
the protocol number `last` at the offset `stop`. -/
inductive Chain (packet : Bytes) : UInt8 → ℕ → ℕ → UInt8 → ℕ → Prop
  | stop {next : UInt8} {offset : ℕ} : ¬ IsExtension next → Chain packet next offset 0 next offset
  | header {next last : UInt8} {offset n stop : ℕ} : IsExtension next →
    offset + 2 ≤ packet.length → offset + extensionLen packet next offset ≤ packet.length →
    Chain packet (byte packet offset) (offset + extensionLen packet next offset) n last stop →
    Chain packet next offset (n + 1) last stop

section Chains
variable {packet : Bytes} {next last : UInt8} {offset n k stop : ℕ}

theorem Chain.unique {n' stop' : ℕ} {last' : UInt8} (h : Chain packet next offset n last stop)
    (h' : Chain packet next offset n' last' stop') : n' = n ∧ last' = last ∧ stop' = stop := by
  induction h generalizing n' with
  | stop hl =>
    cases h' with
    | stop => exact ⟨rfl, rfl, rfl⟩
    | header he => exact absurd he hl
  | header he _ _ _ ih =>
    cases h' with
    | stop hl => exact absurd he hl
    | header _ _ _ hr =>
      obtain ⟨hn, hl, hs⟩ := ih hr
      exact ⟨congrArg (· + 1) hn, hl, hs⟩

theorem Chain.inside (h : Chain packet next offset n last stop) (ho : offset ≤ packet.length) :
    stop ≤ packet.length := by
  induction h with
  | stop => exact ho
  | header _ _ hf _ ih => exact ih hf

/-! ### The three walks -/

/-- The check for native fragments accepts a packet with a chain that it can finish and that does
not stop at a Fragment header. -/
theorem ipv6Extensions_chain (h : ipv6Extensions packet k next offset = .ok false) :
    ∃ n last stop, Chain packet next offset n last stop ∧ n < k ∧ last ≠ 44 := by
  induction k generalizing next offset with
  | zero => cases h
  | succ k ih =>
    have hlen : (if next = 51 then ((byte packet (offset + 1)).toNat + 2) * 4
        else ((byte packet (offset + 1)).toNat + 1) * 8) = extensionLen packet next offset := rfl
    unfold ipv6Extensions at h
    dsimp only at h
    rw [hlen] at h
    split at h
    · split at h <;> cases h
    rename_i hf
    split at h
    · next he =>
      have he' : IsExtension next := he
      split at h
      · cases h
      rename_i hsh
      split at h
      · cases h
      rename_i hlong
      obtain ⟨n, last, stop, hch, hn, hl⟩ := ih h
      rw [not_or] at hlong
      refine ⟨n + 1, last, stop, .header he' (Nat.not_lt.mp hsh) ?_ hch, by omega, hl⟩
      exact Nat.not_lt.mp hlong.2
    · next hno => exact ⟨0, next, offset, .stop hno, by omega, hf⟩

theorem ipv6Fragmented_chain (h : ipv6Fragmented packet = .ok false) :
    ∃ n last stop, Chain packet (byte packet 6) 40 n last stop ∧ n < 4 ∧ last ≠ 44 := by
  have hlen := ipv6Fragmented_ok h
  unfold ipv6Fragmented at h
  rw [if_neg (by omega), if_neg (not_not.mpr hlen.2)] at h
  exact ipv6Extensions_chain h

theorem skipExtensions_chain (h : Chain packet next offset n last stop) (hn : n < k) :
    Lane.skipExtensions packet k next offset = some (last, stop) := by
  induction h generalizing k with
  | @stop _ _ hl =>
    obtain ⟨k, rfl⟩ : ∃ k', k = k' + 1 := ⟨k - 1, by omega⟩
    unfold IsExtension at hl
    unfold Lane.skipExtensions
    rw [if_neg (by tauto), if_neg (by tauto)]
  | @header next last offset n stop he hsh hf _ ih =>
    obtain ⟨k, rfl⟩ : ∃ k', k = k' + 1 := ⟨k - 1, by omega⟩
    have hr := ih (k := k) (by omega)
    unfold extensionLen at hf hr
    unfold Lane.skipExtensions
    by_cases h51 : next = 51
    · subst h51
      rw [if_pos rfl] at hf hr
      rw [if_neg (by decide), if_pos rfl, if_neg (by omega), if_neg (by omega)]
      exact hr
    · rw [if_neg h51] at hf hr
      rw [if_pos (by unfold IsExtension at he; tauto), if_neg (by omega), if_neg (by omega)]
      exact hr

/-- What the end of a chain says about suppression. -/
def endsInError (packet : Bytes) (last : UInt8) (stop : ℕ) : Bool :=
  last == 58 && (decide (packet.length ≤ stop) || decide (byte packet stop < 128))

private theorem suppressChain_chain (h : Chain packet next offset n last stop) (hn : n < k) :
    PacketTooBig.suppressChain packet k next offset = endsInError packet last stop := by
  induction h generalizing k with
  | @stop next offset hl =>
    obtain ⟨k, rfl⟩ : ∃ k', k = k' + 1 := ⟨k - 1, by omega⟩
    unfold IsExtension at hl
    unfold PacketTooBig.suppressChain endsInError
    by_cases h58 : next = 58
    · rw [if_pos h58, h58]
      rfl
    · rw [if_neg h58, if_neg (by tauto), if_neg (by tauto), beq_false_of_ne h58]
      rfl
  | @header next last offset n stop he hsh hf _ ih =>
    obtain ⟨k, rfl⟩ : ∃ k', k = k' + 1 := ⟨k - 1, by omega⟩
    have hr := ih (k := k) (by omega)
    have h58 : next ≠ 58 := by
      rintro rfl
      revert he
      unfold IsExtension
      decide
    unfold extensionLen at hf hr
    unfold PacketTooBig.suppressChain
    rw [if_neg h58]
    by_cases h51 : next = 51
    · subst h51
      rw [if_pos rfl] at hf hr
      rw [if_neg (by decide), if_pos rfl, if_neg (by omega), if_neg (by omega)]
      exact hr
    · rw [if_neg h51] at hf hr
      rw [if_pos (by unfold IsExtension at he; tauto), if_neg (by omega), if_neg (by omega)]
      exact hr

end Chains

/-! ### Accepted packets -/

/-- The addresses for which no error may be sent. -/
def SilentAddresses (packet : Bytes) : Prop :=
  (Addr.v6 (slice packet 8 24) "").isUnspecified = true ∨
  (Addr.v6 (slice packet 8 24) "").isMulticast = true ∨
  (Addr.v6 (slice packet 24 40) "").isMulticast = true

/-- The payload of an ICMPv6 packet for which no error may be sent: it is empty or an error. -/
def SilentPayload (payload : Bytes) : Prop :=
  payload = [] ∨ ∃ type, payload.head? = some type ∧ type < 128

private theorem endsInError_iff {last : UInt8} {stop : ℕ} :
    endsInError packet last stop = true ↔ last = 58 ∧ SilentPayload (packet.drop stop) := by
  unfold endsInError SilentPayload
  by_cases he : packet.length ≤ stop
  · simp [he]
  have hg : packet[stop]? = some (byte packet stop) := by
    rw [byte, List.getD_eq_getElem?_getD, List.getElem?_eq_getElem (Nat.not_le.mp he)]
    rfl
  simp [he, hg]

theorem suppressIPv6_iff {n stop : ℕ} {last : UInt8}
    (h : Chain packet (byte packet 6) 40 n last stop) (hn : n < 4) :
    PacketTooBig.suppressIPv6 packet = true ↔
      SilentAddresses packet ∨ last = 58 ∧ SilentPayload (packet.drop stop) := by
  have hwalk := suppressChain_chain h hn
  unfold PacketTooBig.suppressIPv6 SilentAddresses
  dsimp only
  rw [hwalk, ← endsInError_iff]
  generalize endsInError packet last stop = silent
  generalize Addr.isUnspecified _ = unspecified
  generalize Addr.isMulticast _ = source
  generalize Addr.isMulticast _ = destination
  revert silent unspecified source destination
  decide

private theorem suppressed_ipv6 {buf : Bytes} {source : Addr} {mtu : ℤ}
    (h6 : byte packet 0 >>> 4 = 6)
    (h : PacketTooBig.buildPacketTooBig buf packet source mtu = .error .suppressed) :
    PacketTooBig.suppressIPv6 packet = true := by
  unfold PacketTooBig.buildPacketTooBig PacketTooBig.buildIPv6 at h
  rw [if_neg (show ¬ byte packet 0 >>> 4 = 4 by rw [h6]; decide), if_pos h6] at h
  by_contra hn
  rw [if_neg hn] at h
  dsimp only at h
  split_ifs at h <;> cases h

/-- The three walks over the extension headers of an accepted IPv6 packet agree. -/
theorem extension_walks_agree {packet : Bytes} {parsed : Packet}
    (h : InnerIP.parse packet = .ok parsed) (hversion : parsed.version = 6) :
    ∃ n last stop, Chain packet (byte packet 6) 40 n last stop ∧
      (∀ n' last' stop', Chain packet (byte packet 6) 40 n' last' stop' →
        n' = n ∧ last' = last ∧ stop' = stop) ∧
      n ≤ 3 ∧ stop ≤ packet.length ∧ last ≠ 44 ∧
      (∀ hash, (Lane.writeAddresses hash packet).2 = some (last, packet.drop stop)) ∧
      ∀ buf source mtu, PacketTooBig.buildPacketTooBig buf packet source mtu = .error .suppressed →
        SilentAddresses packet ∨ last = 58 ∧ SilentPayload (packet.drop stop) := by
  rcases parse_cases h with ⟨-, -, rfl⟩ | ⟨h6, hfrag, rfl⟩
  · cases hversion
  obtain ⟨h40, _⟩ := ipv6Fragmented_ok hfrag
  obtain ⟨n, last, stop, hch, hn, hlast⟩ := ipv6Fragmented_chain hfrag
  refine ⟨n, last, stop, hch, fun _ _ _ h' => hch.unique h', by omega, hch.inside h40,
    hlast, fun hash => ?_, fun buf source mtu hsup => ?_⟩
  · unfold Lane.writeAddresses
    rw [if_neg (by omega), if_neg (by rw [h6]; decide), if_pos h6, if_neg (by omega),
      skipExtensions_chain hch hn]
  · exact (suppressIPv6_iff hch hn).mp (suppressed_ipv6 h6 hsup)

/-- An echo request behind a Hop-by-Hop and an Authentication header. -/
def sampleExtended : Bytes :=
  [0x60, 0, 0, 0, 0, 28, 0, 64] ++ ([0xfd] ++ List.replicate 14 0 ++ [1]) ++
    ([0xfd] ++ List.replicate 14 0 ++ [2]) ++ [51, 0, 1, 4, 0, 0, 0, 0] ++
    [58, 1, 0, 0, 0, 0, 0, 1, 0, 0, 0, 1] ++ [128, 0, 0, 0, 0, 1, 0, 1]

theorem extension_walks_agree_sample : ∃ parsed, InnerIP.parse sampleExtended = .ok parsed ∧
    parsed.version = 6 ∧ ∃ n last stop,
      Chain sampleExtended (byte sampleExtended 6) 40 n last stop ∧ n ≤ 3 ∧
      (Lane.writeAddresses [] sampleExtended).2 = some (last, sampleExtended.drop stop) := by
  have h6 : byte sampleExtended 0 >>> 4 = 6 := by decide
  have hpar := parse_ipv6 h6 (by decide)
  refine ⟨_, hpar, rfl, ?_⟩
  obtain ⟨n, last, stop, hch, -, hn, -, -, hlane, -⟩ := extension_walks_agree hpar rfl
  exact ⟨n, last, stop, hch, hn, hlane []⟩

end WgFrag.Data
