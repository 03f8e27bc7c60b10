import WgFrag.Data.Extensions
import WgFrag.Data.Grammar
import WgFrag.Lib.OnesComplement

/-! The messages that `buildPacketTooBig` leaves in a buffer: their bytes, their checksums, and
what they quote. -/
namespace WgFrag.Data
open InnerIP Lib.OnesComplement List

/-! ### Checksums -/

def words : Bytes → List ℕ
  | b0 :: b1 :: data => uint16 b0 b1 :: words data
  | [b] => [b.toNat * 256]
  | [] => []

theorem words_append {before : Bytes} (h : before.length % 2 = 0) (after : Bytes) :
    words (before ++ after) = words before ++ words after := by
  fun_induction words before with
  | case1 b0 b1 data ih =>
    have hd : data.length % 2 = 0 := by
      simp only [length_cons] at h
      omega
    show uint16 b0 b1 :: words (data ++ after) = uint16 b0 b1 :: (words data ++ words after)
    rw [ih hd]
  | case2 => simp at h
  | case3 => rfl

theorem words_le (data : Bytes) : ∀ w ∈ words data, w ≤ 65535 := by
  fun_induction words data with
  | case1 b0 b1 data ih =>
    have hword := uint16_lt b0 b1
    intro w hw
    rcases mem_cons.mp hw with rfl | hw
    · omega
    · exact ih w hw
  | case2 b =>
    have hbyte := b.toNat_lt
    intro w hw
    obtain rfl := mem_singleton.mp hw
    omega
  | case3 => exact fun w hw => absurd hw not_mem_nil

theorem words_length (data : Bytes) : (words data).length ≤ data.length := by
  fun_induction words data with
  | case1 b0 b1 data ih =>
    simp only [length_cons]
    omega
  | case2 => exact Nat.le_refl 1
  | case3 => exact Nat.le_refl 0

@[simp] theorem putUint16_length (n : ℕ) : (putUint16 n).length = 2 := rfl

@[simp] theorem putUint32_length (n : ℕ) : (putUint32 n).length = 4 := rfl

theorem words_putUint16 {n : ℕ} (h : n < 65536) : words (putUint16 n) = [n] := by
  unfold putUint16 words
  rw [uint16_put n h]
  rfl

namespace PacketTooBig
variable {i : ℕ} {after before : Bytes}

theorem sumWords_eq {data : Bytes} {sum : ℕ} (h : sum < 4294967296) :
    sumWords data sum = (sum + total (words data)) % 4294967296 := by
  fun_induction sumWords data sum with
  | case1 b0 b1 data sum ih =>
    rw [ih (Nat.mod_lt _ (by omega)), words, total, Nat.mod_add_mod, Nat.add_assoc]
  | case2 b sum => rw [words, total, total, Nat.add_zero]
  | case3 sum => exact (Nat.mod_eq_of_lt h).symm

private theorem foldCarries_eq {rounds sum : ℕ} (h : sum ≤ rounds) :
    foldCarries rounds sum = residue sum := by
  induction rounds generalizing sum with
  | zero =>
    obtain rfl : sum = 0 := by omega
    rfl
  | succ _ ih =>
    unfold foldCarries
    split
    · rw [ih (by omega), residue_fold]
    · exact (residue_small (by omega)).symm

private theorem checksum_eq {data : Bytes} {initial : ℕ}
    (h : initial + total (words data) < 4294967296) :
    checksum data initial = 65535 - residue (initial + total (words data)) := by
  unfold checksum
  rw [sumWords_eq (by omega), Nat.mod_eq_of_lt h, foldCarries_eq (Nat.le_refl _)]

private theorem checksum_lt (data : Bytes) (initial : ℕ) : checksum data initial < 65536 := by
  unfold checksum
  omega

/-- A message with a checksum between two parts. -/
def stamped (before after : Bytes) (c : ℕ) : Bytes := before ++ (putUint16 c ++ after)

theorem stamped_length (c : ℕ) :
    (stamped before after c).length = before.length + 2 + after.length := by
  unfold stamped
  rw [length_append, length_append, putUint16_length, Nat.add_assoc]

private theorem words_stamped (h : before.length % 2 = 0) (after : Bytes) {c : ℕ}
    (hc : c < 65536) : words (stamped before after c) = words before ++ c :: words after := by
  unfold stamped
  rw [words_append h, words_append (by rw [putUint16_length]), words_putUint16 hc]
  rfl

/-- A checksum in the place of a zero makes a message verify, together with a pseudo-header whose
sum it starts from. -/
theorem checksum_verifies {pseudo : Bytes} (hp : pseudo.length % 2 = 0)
    (hb : before.length % 2 = 0) (hsh : pseudo.length + before.length + after.length ≤ 2000) :
    Verifies (words (pseudo ++
      stamped before after (checksum (stamped before after 0) (total (words pseudo))))) := by
  have hs : total (words pseudo) + total (words (stamped before after 0)) =
      total ((words pseudo ++ words before) ++ words after) := by
    rw [words_stamped hb after (by omega), total_append, total_append, total_append, total]
    omega
  have hbo : total ((words pseudo ++ words before) ++ words after) < 4294967296 := by
    have h1 := total_le (words_le pseudo)
    have h2 := total_le (words_le before)
    have h3 := total_le (words_le after)
    have hlen1 := words_length pseudo
    have hlen2 := words_length before
    have hlen3 := words_length after
    rw [total_append, total_append]
    omega
  rw [words_append hp, words_stamped hb after (checksum_lt _ _),
    checksum_eq (by rw [hs]; exact hbo), hs, ← append_assoc]
  refine verifies_complement (fun v hv => ?_) (words_le after)
  rcases mem_append.mp hv with hv | hv
  · exact words_le pseudo v hv
  · exact words_le before v hv

theorem checksum_verifies_alone (hb : before.length % 2 = 0)
    (hsh : before.length + after.length ≤ 2000) :
    Verifies (words (stamped before after (checksum (stamped before after 0) 0))) := by
  have h : Verifies (words ([] ++
      stamped before after (checksum (stamped before after 0) (total (words []))))) :=
    checksum_verifies rfl hb (by rw [length_nil]; omega)
  exact h

/-! ### Writing -/

/-- The writes follow each other without a gap. -/
def Contiguous : ℕ → List (ℕ × Bytes) → Prop
  | _, [] => True
  | i, (j, bytes) :: fields => i = j ∧ Contiguous (i + bytes.length) fields

def contents (fields : List (ℕ × Bytes)) : Bytes := fields.flatMap Prod.snd

theorem putAll_contiguous {done rest : Bytes} {fields : List (ℕ × Bytes)}
    (hi : done.length = i) (h : Contiguous i fields) :
    putAll (done ++ rest) fields =
      done ++ (contents fields ++ rest.drop (contents fields).length) := by
  induction fields generalizing done rest i with
  | nil => simp [putAll, contents]
  | cons field _ ih =>
    obtain ⟨_, bytes⟩ := field
    obtain ⟨rfl, hr⟩ := h
    have hp : put (done ++ rest) i bytes = (done ++ bytes) ++ rest.drop bytes.length := by
      subst hi
      unfold put
      rw [take_left', drop_append]
      · simp
      · rfl
    have hd : (done ++ bytes).length = i + bytes.length := by rw [length_append, hi]
    unfold putAll
    rw [hp, ih hd hr, drop_drop]
    simp [contents]

theorem putAll_start {buf : Bytes} {fields : List (ℕ × Bytes)} (h : Contiguous 0 fields) :
    putAll buf fields = contents fields ++ buf.drop (contents fields).length :=
  putAll_contiguous length_nil h

theorem put_stamped {done : Bytes} (h : (done ++ before).length = i) (rest : Bytes) (c : ℕ) :
    put (done ++ (stamped before after 0 ++ rest)) i (putUint16 c) =
      done ++ (stamped before after c ++ rest) := by
  have hs : done ++ (stamped before after 0 ++ rest) =
      (done ++ before) ++ (putUint16 0 ++ (after ++ rest)) := by
    simp only [stamped, append_assoc]
  have hd : (putUint16 0 ++ (after ++ rest)).drop (putUint16 c).length = after ++ rest := rfl
  subst h
  unfold put
  rw [hs, take_left' rfl, drop_append, drop_of_length_le (by omega),
    Nat.add_sub_cancel_left, hd]
  simp only [stamped, append_assoc, nil_append]

theorem slice_middle {middle : Bytes} {j : ℕ} (hi : before.length = i)
    (hj : before.length + middle.length = j) :
    slice (before ++ (middle ++ after)) i j = middle := by
  subst hi hj
  unfold slice
  rw [drop_left' rfl, Nat.add_sub_cancel_left, take_left' rfl]

theorem slice_length {packet : Bytes} {j : ℕ} (h : j ≤ packet.length) :
    (slice packet i j).length = j - i := by
  unfold slice
  rw [length_take, length_drop]
  omega

/-- The first ten bytes of an IPv4 header. -/
def ipv4Head (quote : ℕ) : Bytes :=
  [0x45] ++ ([0] ++ (putUint16 (20 + 8 + quote) ++ (putUint32 0 ++ ([64] ++ [1]))))

theorem ipv4Head_length (quote : ℕ) : (ipv4Head quote).length = 10 := rfl

def ipv4Header (original : Bytes) (source : Addr) (quote c : ℕ) : Bytes :=
  stamped (ipv4Head quote) (source.bytes ++ slice original 12 16) c

def icmpMessage (original : Bytes) (quote mtu c : ℕ) : Bytes :=
  stamped ([3] ++ [4]) (putUint16 0 ++ (putUint16 mtu ++ original.take quote)) c

section IPv4
variable {buf original : Bytes} {source : Addr} {quote mtu : ℕ}
  (hsource : source.bytes.length = 4) (horiginal : 20 ≤ original.length)
  (hquote : quote ≤ original.length)

include hsource horiginal in
theorem ipv4Header_length (c : ℕ) : (ipv4Header original source quote c).length = 20 := by
  unfold ipv4Header
  rw [stamped_length, length_append, hsource, slice_length (by omega)]
  rfl

include hquote in
theorem icmpMessage_length (c : ℕ) : (icmpMessage original quote mtu c).length = 8 + quote := by
  unfold icmpMessage
  rw [stamped_length]
  simp only [length_append, length_take, putUint16_length, length_singleton]
  omega

include hsource horiginal in
private theorem writeIPv4_header : putAll buf (ipv4Fields original source (20 + 8 + quote)) =
    ipv4Header original source quote 0 ++ buf.drop 20 := by
  have hf : Contiguous 0 (ipv4Fields original source (20 + 8 + quote)) := by
    simp [Contiguous, ipv4Fields, hsource]
  have hh : contents (ipv4Fields original source (20 + 8 + quote)) =
      ipv4Header original source quote 0 := by
    simp [contents, ipv4Fields, ipv4Header, ipv4Head, stamped]
  rw [putAll_start hf, hh, ipv4Header_length hsource horiginal]

include hquote in
private theorem writeIPv4_message {done : Bytes} (hd : done.length = 20) (rest : Bytes) :
    putAll (done ++ rest) (icmpFields original quote mtu) =
      done ++ (icmpMessage original quote mtu 0 ++ rest.drop (8 + quote)) := by
  have hf : Contiguous 20 (icmpFields original quote mtu) := by simp [Contiguous, icmpFields]
  have hm : contents (icmpFields original quote mtu) = icmpMessage original quote mtu 0 := by
    simp [contents, icmpFields, icmpMessage, stamped]
  rw [putAll_contiguous hd hf, hm, icmpMessage_length hquote]

include hsource horiginal hquote in
theorem writeIPv4_eq : writeIPv4 buf original source quote mtu =
    ipv4Header original source quote (checksum (ipv4Header original source quote 0) 0) ++
    (icmpMessage original quote mtu (checksum (icmpMessage original quote mtu 0) 0) ++
      buf.drop (20 + 8 + quote)) := by
  have hlen : ∀ c, (ipv4Header original source quote c).length = 20 :=
    ipv4Header_length hsource horiginal
  have hh : slice ([] ++ (ipv4Header original source quote 0 ++ buf.drop 20)) 0 20 =
      ipv4Header original source quote 0 := by
    refine slice_middle rfl ?_
    rw [hlen]
    rfl
  have hf : ∀ c, put ([] ++ (ipv4Header original source quote 0 ++ buf.drop 20)) 10
      (putUint16 c) = [] ++ (ipv4Header original source quote c ++ buf.drop 20) :=
    put_stamped rfl (buf.drop 20)
  have hm : ∀ c, (ipv4Header original source quote c).length +
      (icmpMessage original quote mtu 0).length = 20 + 8 + quote := by
    intro c
    rw [hlen, icmpMessage_length hquote]
    omega
  have hb : ∀ c, (ipv4Header original source quote c ++ ([3] ++ [4])).length = 22 := by
    intro c
    rw [length_append, hlen]
    rfl
  rw [nil_append] at hh
  unfold writeIPv4
  dsimp only
  rw [writeIPv4_header hsource horiginal, hh, ← nil_append (ipv4Header _ _ _ 0 ++ _),
    hf, nil_append, writeIPv4_message hquote (hlen _),
    slice_middle (hlen _) (hm _)]
  unfold icmpMessage
  rw [put_stamped (hb _), drop_drop, ← Nat.add_assoc]

include hsource horiginal hquote in
theorem parseExact_ipv4 (hsh : quote ≤ 1232) {c c' : ℕ} {message : Bytes}
    (hm : ipv4Header original source quote c ++ icmpMessage original quote mtu c' = message) :
    parseExact message =
      .ok ⟨4, .v4 source.bytes, .v4 (slice original 12 16), message⟩ := by
  have hs := slice_length (i := 12) (show 16 ≤ original.length by omega)
  have hlen : message.length = 20 + 8 + quote := by
    rw [← hm, length_append, ipv4Header_length hsource horiginal, icmpMessage_length hquote]
    omega
  have hpi : message = (ipv4Head quote ++ putUint16 c) ++ (source.bytes ++
      (slice original 12 16 ++ icmpMessage original quote mtu c')) := by
    rw [← hm]
    simp only [ipv4Header, stamped, append_assoc]
  have hsr : slice message 12 16 = source.bytes := by
    rw [hpi]
    exact slice_middle rfl (by rw [hsource]; rfl)
  have hd : slice message 16 20 = slice original 12 16 := by
    rw [hpi, ← append_assoc]
    exact slice_middle (by rw [length_append, hsource]; rfl)
      (by rw [length_append, hsource, hs]; rfl)
  have ht : ipv4Length message = 20 + 8 + quote := by
    rw [← hm]
    exact uint16_put (20 + 8 + quote) (by omega)
  have hfs : byte message 0 = 0x45 := by
    rw [← hm]
    rfl
  have hf : byte message 6 = 0 ∧ byte message 7 = 0 := by
    rw [← hm]
    exact ⟨rfl, rfl⟩
  have hfr : ipv4Fragmented message = .ok false := by
    have hh : ((0x45 : UInt8) &&& 0x0f).toNat * 4 = 20 := by decide
    unfold ipv4Fragmented
    rw [hfs, hh, ht, hf.1, hf.2, if_neg (by omega)]
    dsimp only
    rw [if_neg (by omega), if_neg (by omega)]
    rfl
  have hp := parse_ipv4 (by rw [hfs]; decide) hfr
  rw [hsr, hd, ht, ← hlen, take_length] at hp
  unfold parseExact
  rw [hp]
  simp

end IPv4

/-! ### IPv6 -/

/-- The first eight bytes of an IPv6 header. -/
def ipv6Head (quote : ℕ) : Bytes :=
  [0x60] ++ ([0, 0, 0] ++ (putUint16 (8 + quote) ++ ([58] ++ [64])))

def ipv6Addresses (original : Bytes) (source : Addr) : Bytes := source.bytes ++ slice original 8 24

def ipv6Header (original : Bytes) (source : Addr) (quote : ℕ) : Bytes :=
  ipv6Head quote ++ ipv6Addresses original source

def icmpv6Message (original : Bytes) (quote mtu c : ℕ) : Bytes :=
  stamped ([2] ++ [0]) (putUint32 mtu ++ original.take quote) c

/-- The pseudo-header of an ICMPv6 message of a length. -/
def pseudoHeader (addresses : Bytes) (length : ℕ) : Bytes :=
  addresses ++ (putUint32 length ++ [0, 0, 0, 58])

private theorem total_pseudoHeader {addresses : Bytes} (h : addresses.length % 2 = 0) {length : ℕ}
    (hlen : length < 65536) :
    total (words (pseudoHeader addresses length)) = total (words addresses) + length + 58 := by
  have hhi : length / 65536 = 0 := Nat.div_eq_of_lt hlen
  have hl : words [0, 0, 0, 58] = [0, 58] := rfl
  unfold pseudoHeader putUint32
  rw [words_append h, total_append, words_append (by simp), total_append,
    words_append (by simp), total_append, words_putUint16 (by omega), words_putUint16 hlen,
    hhi, hl]
  simp only [total]
  omega

section IPv6
variable {buf original : Bytes} {source : Addr} {quote mtu : ℕ}
  (hsource : source.bytes.length = 16) (horiginal : 40 ≤ original.length)
  (hquote : quote ≤ original.length)

include hsource horiginal in
theorem ipv6Addresses_length : (ipv6Addresses original source).length = 32 := by
  unfold ipv6Addresses
  rw [length_append, hsource, slice_length (by omega)]

include hsource horiginal in
theorem ipv6Header_length : (ipv6Header original source quote).length = 40 := by
  rw [ipv6Header, length_append, ipv6Addresses_length hsource horiginal]
  rfl

include hquote in
theorem icmpv6Message_length (c : ℕ) : (icmpv6Message original quote mtu c).length = 8 + quote := by
  unfold icmpv6Message
  rw [stamped_length]
  simp only [length_append, length_take, putUint32_length, length_singleton]
  omega

include hsource horiginal hquote in
private theorem writeIPv6_fields :
    putAll (putAll buf (ipv6Fields original source quote)) (icmpv6Fields original quote mtu) =
      ipv6Header original source quote ++
        (icmpv6Message original quote mtu 0 ++ buf.drop (40 + 8 + quote)) := by
  have hf : Contiguous 0 (ipv6Fields original source quote) := by
    simp [Contiguous, ipv6Fields, hsource]
  have hs : Contiguous 40 (icmpv6Fields original quote mtu) := by
    simp [Contiguous, icmpv6Fields]
  have hh : contents (ipv6Fields original source quote) = ipv6Header original source quote := by
    simp [contents, ipv6Fields, ipv6Header, ipv6Head, ipv6Addresses]
  have hm : contents (icmpv6Fields original quote mtu) = icmpv6Message original quote mtu 0 := by
    simp [contents, icmpv6Fields, icmpv6Message, stamped]
  have hlen : (ipv6Header original source quote).length = 40 :=
    ipv6Header_length hsource horiginal
  rw [putAll_start hf, hh, putAll_contiguous hlen hs, hm, hlen,
    icmpv6Message_length hquote, drop_drop, ← Nat.add_assoc]

include hsource horiginal hquote in
theorem writeIPv6_eq (hsh : quote ≤ 1232) : writeIPv6 buf original source quote mtu =
    ipv6Header original source quote ++ (icmpv6Message original quote mtu
      (checksum (icmpv6Message original quote mtu 0)
        (total (words (pseudoHeader (ipv6Addresses original source) (8 + quote))))) ++
      buf.drop (40 + 8 + quote)) := by
  have ha := ipv6Addresses_length hsource horiginal
  have hlen : (ipv6Header original source quote).length = 40 :=
    ipv6Header_length hsource horiginal
  have hs : ∀ rest, slice (ipv6Header original source quote ++ rest) 8 40 =
      ipv6Addresses original source := by
    intro rest
    rw [ipv6Header, append_assoc]
    refine slice_middle rfl ?_
    rw [ha]
    rfl
  have hm : (ipv6Header original source quote).length +
      (icmpv6Message original quote mtu 0).length = 40 + 8 + quote := by
    rw [hlen, icmpv6Message_length hquote]
    omega
  have hb : (ipv6Header original source quote ++ ([2] ++ [0])).length = 42 := by
    rw [length_append, hlen]
    rfl
  have hp : (sumWords (ipv6Addresses original source) 0 + (40 + 8 + quote - 40) + 58) %
      4294967296 = total (words (pseudoHeader (ipv6Addresses original source) (8 + quote))) := by
    have hle := total_le (words_le (ipv6Addresses original source))
    have hw := words_length (ipv6Addresses original source)
    rw [sumWords_eq (by omega), total_pseudoHeader (by rw [ha]) (by omega)]
    omega
  unfold writeIPv6
  dsimp only
  rw [writeIPv6_fields hsource horiginal hquote, hs, hp, slice_middle hlen hm]
  unfold icmpv6Message
  rw [put_stamped hb]

include hsource horiginal hquote in
theorem parseExact_ipv6 (hsh : quote ≤ 1232) {c : ℕ} {message : Bytes}
    (hm : ipv6Header original source quote ++ icmpv6Message original quote mtu c = message) :
    parseExact message =
      .ok ⟨6, .v6 source.bytes "", .v6 (slice original 8 24) "", message⟩ := by
  have hs := slice_length (i := 8) (show 24 ≤ original.length by omega)
  have hlen : message.length = 40 + (8 + quote) := by
    rw [← hm, length_append, ipv6Header_length hsource horiginal, icmpv6Message_length hquote]
  have hpi : message = ipv6Head quote ++ (source.bytes ++
      (slice original 8 24 ++ icmpv6Message original quote mtu c)) := by
    rw [← hm]
    simp only [ipv6Header, ipv6Addresses, append_assoc]
  have hsr : slice message 8 24 = source.bytes := by
    rw [hpi]
    exact slice_middle rfl (by rw [hsource]; rfl)
  have hd : slice message 24 40 = slice original 8 24 := by
    rw [hpi, ← append_assoc]
    exact slice_middle (by rw [length_append, hsource]; rfl)
      (by rw [length_append, hsource, hs]; rfl)
  have ht : ipv6Length message = 40 + (8 + quote) := by
    rw [← hm]
    exact congrArg (40 + ·) (uint16_put (8 + quote) (by omega))
  have hfs : byte message 0 = 0x60 := by
    rw [← hm]
    rfl
  have hnx : byte message 6 = 58 := by
    rw [← hm]
    rfl
  have hf : ipv6Fragmented message = .ok false := by
    unfold ipv6Fragmented
    rw [if_neg (by omega), if_neg (by omega), hnx]
    rfl
  have hp := parse_ipv6 (by rw [hfs]; decide) hf
  rw [hsr, hd, ht, ← hlen, take_length] at hp
  unfold parseExact
  rw [hp]
  simp

end IPv6

/-! ### Well-formed errors -/

def ipv4HeaderLen (packet : Bytes) : ℕ := (byte packet 0 &&& 0x0f).toNat * 4

/-- The message for an IPv4 packet: both checksums verify, it quotes the header of the packet and
up to eight bytes after it, and the packet is not an ICMP error. -/
structure ErrorIPv4 (original message : Bytes) : Prop where
  headerChecksum : Verifies (words (message.take 20))
  checksum : Verifies (words (message.drop 20))
  quote : message.drop 28 = (trim original).take (ipv4HeaderLen original + 8)
  header : ipv4HeaderLen original ≤ (trim original).length
  notError : byte original 9 = 1 → ∀ type, (trim original)[ipv4HeaderLen original]? = some type →
    type ∉ ([3, 4, 5, 11, 12] : List UInt8)

/-- The message for an IPv6 packet: the checksum verifies together with the pseudo-header, it
quotes as much of the packet as fits, and the packet is not an ICMPv6 error. -/
structure ErrorIPv6 (original message : Bytes) : Prop where
  checksum : Verifies (words (pseudoHeader (slice message 8 40) (message.length - 40) ++
    message.drop 40))
  quote : message.drop 48 = original.take (maxPacketTooBigSize - 48)
  notError : ∀ n stop, Chain original (byte original 6) 40 n 58 stop →
    ∃ type, original[stop]? = some type ∧ 128 ≤ type

section Sound
variable {buf original out : Bytes} {source : Addr} {n mtu : ℕ}

theorem ipv4HeaderLen_le (original : Bytes) : ipv4HeaderLen original ≤ 60 := by
  have hle : (byte original 0 &&& 0x0f).toNat ≤ 15 := by exact Nat.and_le_right
  unfold ipv4HeaderLen
  omega

structure BuiltIPv4 (buf original : Bytes) (source : Addr) (mtu n : ℕ) (out : Bytes) : Prop where
  header : 20 ≤ ipv4HeaderLen original ∧ ipv4HeaderLen original ≤ ipv4Length original
  total : ipv4Length original ≤ original.length
  allowed : suppressIPv4 (original.take (ipv4Length original)) (ipv4HeaderLen original) = false
  written : ∃ quote, quote = min (ipv4Length original) (ipv4HeaderLen original + 8) ∧
    n = 20 + 8 + quote ∧
    out = writeIPv4 buf (original.take (ipv4Length original)) source quote mtu

theorem buildIPv4_ok (h : buildIPv4 buf original source mtu = .ok (n, out)) :
    BuiltIPv4 buf original source mtu n out := by
  have hh : (byte original 0 &&& 0x0f).toNat * 4 = ipv4HeaderLen original := rfl
  unfold buildIPv4 at h
  dsimp only at h
  rw [hh] at h
  split at h
  · cases h
  split at h
  · cases h
  split at h
  · cases h
  rename_i hsh hb ht
  have hlen : (original.take (ipv4Length original)).length = ipv4Length original := by
    rw [length_take]
    omega
  rw [hlen] at h
  split at h
  · cases h
  rename_i ha
  have hquote : (if ipv4Length original < ipv4HeaderLen original + 8 then
      ipv4Length original else ipv4HeaderLen original + 8) =
      min (ipv4Length original) (ipv4HeaderLen original + 8) := by
    split <;> omega
  rw [hquote] at h
  split at h
  · cases h
  · cases h
    exact ⟨by omega, by omega, Bool.eq_false_iff.mpr ha, _, rfl, rfl, rfl⟩

theorem suppressIPv4_notError {data : Bytes} {headerLen : ℕ}
    (h : suppressIPv4 data headerLen = false) (hicmp : byte data 9 = 1) {type : UInt8}
    (htype : data[headerLen]? = some type) : type ∉ ([3, 4, 5, 11, 12] : List UInt8) := by
  have hlt := lt_of_get htype
  have hbyte : byte data headerLen = type := by
    rw [byte, getD_eq_getElem?_getD, htype]
    rfl
  unfold suppressIPv4 at h
  dsimp only at h
  split at h
  · cases h
  split at h
  · cases h
  rw [if_pos ⟨hicmp, hlt⟩, hbyte] at h
  intro hmem
  rw [contains_iff_mem.mpr hmem] at h
  cases h

/-- What a message of `n` bytes leaves in the buffer. -/
structure Leaves (buf : Bytes) (source target : Addr) (version n : ℕ) (out : Bytes) : Prop where
  short : n ≤ maxPacketTooBigSize
  length : (out.take n).length = n
  rest : out.drop n = buf.drop n
  accepted : parseExact (out.take n) = .ok ⟨version, source, target, out.take n⟩

theorem take_written {message rest : Bytes} (h : out = message ++ rest) (hn : message.length = n) :
    out.take n = message ∧ out.drop n = rest := by
  subst h hn
  exact ⟨take_left' rfl, drop_left' rfl⟩

private theorem writeIPv4_leaves {data : Bytes} {quote : ℕ} (hsource : source.bytes.length = 4)
    (hd : 20 ≤ data.length) (hquote : quote ≤ data.length) (hsh : quote ≤ 1232)
    (ho : out = writeIPv4 buf data source quote mtu) (hn : n = 20 + 8 + quote) :
    Leaves buf (.v4 source.bytes) (.v4 (slice data 12 16)) 4 n out ∧
      Verifies (words ((out.take n).take 20)) ∧ Verifies (words ((out.take n).drop 20)) ∧
      (out.take n).drop 28 = data.take quote := by
  rw [writeIPv4_eq hsource hd hquote, ← append_assoc] at ho
  have hh : ∀ c, (ipv4Header data source quote c).length = 20 := ipv4Header_length hsource hd
  have hlen : ∀ c c', (ipv4Header data source quote c ++ icmpMessage data quote mtu c').length =
      n := by
    intro c c'
    rw [length_append, hh, icmpMessage_length hquote, hn, Nat.add_assoc]
  obtain ⟨ht, hdr⟩ := take_written ho (hlen _ _)
  have hs := take_written (n := 20) ht (hh _)
  rw [hs.1, hs.2]
  refine ⟨⟨?_, ?_, ?_, ?_⟩, ?_, ?_, ?_⟩
  · unfold maxPacketTooBigSize
    omega
  · rw [ht]
    exact hlen _ _
  · rw [hdr, hn]
  · exact parseExact_ipv4 hsource hd hquote hsh ht.symm
  · refine checksum_verifies_alone (by rw [ipv4Head_length]) ?_
    rw [ipv4Head_length, length_append, hsource, slice_length (by omega)]
    decide
  · refine checksum_verifies_alone rfl ?_
    simp only [length_append, length_take, putUint16_length, length_singleton]
    omega
  · rw [show 28 = 20 + 8 from rfl, ← drop_drop, hs.2]
    rfl

theorem BuiltIPv4.sound (h : BuiltIPv4 buf original source mtu n out)
    (h4 : byte original 0 >>> 4 = 4) (hsource : source.bytes.length = 4) :
    Leaves buf (.v4 source.bytes) (.v4 (slice original 12 16)) 4 n out ∧
      ErrorIPv4 original (out.take n) := by
  obtain ⟨⟨_, _⟩, _, ha, _, _, hn, ho⟩ := h
  have hsm := ipv4HeaderLen_le original
  have htrim : original.take (ipv4Length original) = trim original := by
    unfold trim
    rw [if_pos h4]
  have hsl : slice (trim original) 12 16 = slice original 12 16 := by
    rw [← htrim]
    exact slice_take (by omega)
  have hicmp : byte (trim original) 9 = byte original 9 := by
    rw [← htrim]
    exact byte_take (by omega)
  have hd : (trim original).length = ipv4Length original := by
    rw [← htrim, length_take]
    omega
  rw [htrim] at ha ho
  obtain ⟨hl, hf, hs, hq⟩ := writeIPv4_leaves hsource (by omega) (by omega)
    (by omega) ho hn
  rw [hsl] at hl
  refine ⟨hl, hf, hs, ?_, by omega, fun h1 type htype => ?_⟩
  · rw [hq, take_eq_take_iff]
    omega
  · rw [← hicmp] at h1
    exact suppressIPv4_notError ha h1 htype

structure BuiltIPv6 (buf original : Bytes) (source : Addr) (mtu n : ℕ) (out : Bytes) : Prop where
  length : 40 ≤ original.length
  allowed : suppressIPv6 original = false
  written : ∃ quote, quote = min original.length 1232 ∧ n = 40 + 8 + quote ∧
    out = writeIPv6 buf original source quote mtu

theorem buildIPv6_ok (h : buildIPv6 buf original source mtu = .ok (n, out)) :
    BuiltIPv6 buf original source mtu n out := by
  unfold buildIPv6 maxPacketTooBigSize at h
  split at h
  · cases h
  rename_i hlen
  split at h
  · cases h
  split at h
  · cases h
  rename_i ha
  have hquote : (if 1280 - 40 - 8 < original.length then 1280 - 40 - 8
      else original.length) = min original.length 1232 := by
    split <;> omega
  dsimp only at h
  rw [hquote] at h
  split at h
  · cases h
  · cases h
    exact ⟨by omega, Bool.eq_false_iff.mpr ha, _, rfl, rfl, rfl⟩

private theorem writeIPv6_leaves {quote : ℕ} (hsource : source.bytes.length = 16)
    (horiginal : 40 ≤ original.length) (hquote : quote ≤ original.length) (hsh : quote ≤ 1232)
    (ho : out = writeIPv6 buf original source quote mtu) (hn : n = 40 + 8 + quote) :
    Leaves buf (.v6 source.bytes "") (.v6 (slice original 8 24) "") 6 n out ∧
      Verifies (words (pseudoHeader (slice (out.take n) 8 40) ((out.take n).length - 40) ++
        (out.take n).drop 40)) ∧
      (out.take n).drop 48 = original.take quote := by
  rw [writeIPv6_eq hsource horiginal hquote hsh, ← append_assoc] at ho
  have ha := ipv6Addresses_length hsource horiginal
  have hh : (ipv6Header original source quote).length = 40 :=
    ipv6Header_length hsource horiginal
  have hlen : ∀ c, (ipv6Header original source quote ++
      icmpv6Message original quote mtu c).length = n := by
    intro c
    rw [length_append, hh, icmpv6Message_length hquote, hn, Nat.add_assoc]
  obtain ⟨ht, hd⟩ := take_written ho (hlen _)
  have hsp := take_written ht hh
  have hs : slice (out.take n) 8 40 = ipv6Addresses original source := by
    rw [ht, ipv6Header, append_assoc]
    refine slice_middle rfl ?_
    rw [ha]
    rfl
  have hm : (out.take n).length - 40 = 8 + quote := by
    rw [ht, hlen, hn]
    omega
  rw [hs, hm, hsp.2]
  refine ⟨⟨?_, ?_, ?_, ?_⟩, ?_, ?_⟩
  · unfold maxPacketTooBigSize
    omega
  · rw [ht]
    exact hlen _
  · rw [hd, hn]
  · exact parseExact_ipv6 hsource horiginal hquote hsh ht.symm
  · have hp : (pseudoHeader (ipv6Addresses original source) (8 + quote)).length = 40 := by
      unfold pseudoHeader
      rw [length_append, ha]
      rfl
    refine checksum_verifies (by rw [hp]) rfl ?_
    simp only [hp, length_append, length_take, putUint32_length, length_singleton]
    omega
  · rw [show 48 = 40 + 8 from rfl, ← drop_drop, hsp.2]
    rfl

theorem BuiltIPv6.sound (h : BuiltIPv6 buf original source mtu n out)
    (hf : ipv6Fragmented original = .ok false) (hsource : source.bytes.length = 16) :
    Leaves buf (.v6 source.bytes "") (.v6 (slice original 8 24) "") 6 n out ∧
      ErrorIPv6 original (out.take n) := by
  obtain ⟨hlen, ha, _, _, hn, ho⟩ := h
  obtain ⟨hl, hc, hq⟩ := writeIPv6_leaves hsource hlen (by omega) (by omega)
    ho hn
  refine ⟨hl, hc, ?_, fun k stop hch => ?_⟩
  · rw [hq, take_eq_take_iff]
    unfold maxPacketTooBigSize
    omega
  · obtain ⟨_, _, _, hch', hk, -⟩ := ipv6Fragmented_chain hf
    obtain ⟨rfl, rfl, rfl⟩ := hch'.unique hch
    have hno : ¬ SilentPayload (original.drop stop) := by
      intro hs
      rw [(suppressIPv6_iff hch hk).mpr (.inr ⟨rfl, hs⟩)] at ha
      cases ha
    unfold SilentPayload at hno
    rw [not_or, head?_drop, drop_eq_nil_iff, Nat.not_le] at hno
    have hg := getElem?_eq_getElem hno.1
    exact ⟨_, hg, UInt8.not_lt.mp fun hlt => hno.2 ⟨_, hg, hlt⟩⟩

/-- Every Packet Too Big message for an accepted packet is a well-formed error to its sender. -/
theorem packetTooBig_wellFormed {parsed : Packet} {mtu : ℤ}
    (hparse : InnerIP.parse original = .ok parsed) (hsource : source.Sized)
    (h : buildPacketTooBig buf original source mtu = .ok (n, out)) :
    Leaves buf source parsed.source parsed.version n out ∧
      (parsed.version = 4 → ErrorIPv4 original (out.take n)) ∧
      (parsed.version = 6 → ErrorIPv6 original (out.take n)) := by
  unfold buildPacketTooBig at h
  split at h
  · cases h
  split at h
  · cases h
  rcases parse_cases hparse with ⟨h4, -, rfl⟩ | ⟨h6, hfrag, rfl⟩
  · rw [if_pos h4] at h
    split at h
    · cases h
    rename_i hfam
    cases source with
    | v4 =>
      obtain ⟨hlea, herr⟩ := (buildIPv4_ok h).sound h4 hsource
      exact ⟨hlea, fun _ => herr, nofun⟩
    | invalid | v6 => exact absurd rfl hfam
  · rw [if_neg (by rw [h6]; decide), if_pos h6] at h
    split at h
    · cases h
    rename_i hfam
    cases source with
    | v6 _ zone =>
      have hzone : zone = "" := by
        by_contra hne
        apply hfam
        rw [Addr.zone, bne_iff_ne.mpr hne, Bool.or_true]
      subst hzone
      obtain ⟨hlea, herr⟩ := (buildIPv6_ok h).sound hfrag hsource
      exact ⟨hlea, nofun, fun _ => herr⟩
    | invalid | v4 => exact absurd rfl hfam

end Sound

/-- A packet of 44 bytes with four bytes of padding, in a buffer that is not empty. -/
def sampleOriginal : Bytes :=
  [0x45, 0, 0, 44, 0, 0, 0x40, 0, 64, 17, 0, 0, 10, 0, 0, 1, 10, 0, 0, 2] ++ List.replicate 28 7

theorem packetTooBig_wellFormed_sample : ∃ n out,
    buildPacketTooBig (List.replicate 100 9) sampleOriginal (.v4 [10, 0, 0, 9]) 1400 =
      .ok (n, out) ∧ n = 56 ∧ ErrorIPv4 sampleOriginal (out.take n) := by
  have h4 : byte sampleOriginal 0 >>> 4 = 4 := by decide
  have hpar := parse_ipv4 h4 (by decide)
  have hbui : (buildPacketTooBig (List.replicate 100 9) sampleOriginal (.v4 [10, 0, 0, 9])
      1400).map Prod.fst = .ok 56 := by decide +kernel
  cases hres : buildPacketTooBig (List.replicate 100 9) sampleOriginal (.v4 [10, 0, 0, 9])
      1400 with
  | error e =>
    rw [hres] at hbui
    cases hbui
  | ok r =>
    rw [hres] at hbui
    obtain ⟨n, out⟩ := r
    have hsource : (Addr.v4 [10, 0, 0, 9]).Sized := (rfl : [10, 0, 0, 9].length = 4)
    exact ⟨n, out, rfl, Except.ok.inj hbui, (packetTooBig_wellFormed hpar hsource hres).2.1 rfl⟩

end PacketTooBig
end WgFrag.Data
