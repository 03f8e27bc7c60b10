import WgFrag.Data.InnerIP

/-! The Packet Too Big errors that are returned to inner senders. The message is written piece by
piece over the old contents of a buffer. -/
namespace WgFrag.Data

/-! ### Addresses -/

/-- An address as `netip` has it: four or sixteen bytes. -/
def Addr.Sized : Addr → Prop
  | .invalid => True
  | .v4 bytes => bytes.length = 4
  | .v6 bytes _ => bytes.length = 16

def Addr.zone : Addr → String
  | .v6 _ zone => zone
  | _ => ""

def Addr.isUnspecified (a : Addr) : Bool :=
  a == .v4 [0, 0, 0, 0] || a == .v6 (List.replicate 16 0) ""

def Addr.isMulticast (a : Addr) : Bool :=
  match a.unmap with
  | .v4 bytes => bytes.getD 0 0 &&& 0xf0 == 0xe0
  | .v6 bytes _ => bytes.getD 0 0 == 0xff
  | .invalid => false

def Addr.isLoopback (a : Addr) : Bool :=
  match a.unmap with
  | .v4 bytes => bytes.getD 0 0 == 127
  | .v6 bytes _ => bytes == List.replicate 15 0 ++ [1]
  | .invalid => false

def Addr.isPrivate (a : Addr) : Bool :=
  match a.unmap with
  | .v4 bytes => bytes.getD 0 0 == 10 || (bytes.getD 0 0 == 172 && bytes.getD 1 0 &&& 0xf0 == 16) ||
      (bytes.getD 0 0 == 192 && bytes.getD 1 0 == 168)
  | .v6 bytes _ => bytes.getD 0 0 &&& 0xfe == 0xfc
  | .invalid => false

def Addr.isGlobalUnicast (a : Addr) : Bool :=
  match a.unmap with
  | .invalid => false
  | b => b != .v4 [0, 0, 0, 0] && b != .v4 [255, 255, 255, 255] &&
      b != .v6 (List.replicate 16 0) "" && !b.isLoopback && !b.isMulticast && !b.isLinkLocalUnicast

namespace PacketTooBig
open InnerIP (byte slice ipv4Length)
open Limits (minInnerMTU maxInnerMTU)

inductive Error where
  | shortBuffer
  | suppressed
  | badOriginal
  | badSource
  | invalidMTU
  deriving DecidableEq, Repr

def maxPacketTooBigSize : ℕ := 1280

/-! ### Suppression -/

def suppressIPv4 (original : Bytes) (headerLen : ℕ) : Bool :=
  let src := Addr.v4 (slice original 12 16)
  let dst := Addr.v4 (slice original 16 20)
  if !src.isGlobalUnicast && !src.isPrivate && !src.isLinkLocalUnicast then true
  else if dst.isMulticast || dst == .v4 [255, 255, 255, 255] then true
  else if byte original 9 = 1 ∧ headerLen < original.length then
    [3, 4, 5, 11, 12].contains (byte original headerLen)
  else false

/-- The walk over extension headers; the first argument counts those still allowed. -/
def suppressChain (original : Bytes) : ℕ → UInt8 → ℕ → Bool
  | 0, _, _ => true
  | k + 1, next, offset =>
    if next = 58 then decide (original.length ≤ offset) || decide (byte original offset < 128)
    else if next = 0 ∨ next = 43 ∨ next = 60 then
      if original.length < offset + 2 then true
      else
        let headerLen := ((byte original (offset + 1)).toNat + 1) * 8
        if original.length < offset + headerLen then true
        else suppressChain original k (byte original offset) (offset + headerLen)
    else if next = 51 then
      if original.length < offset + 2 then true
      else
        let headerLen := ((byte original (offset + 1)).toNat + 2) * 4
        if original.length < offset + headerLen then true
        else suppressChain original k (byte original offset) (offset + headerLen)
    else false

def suppressIPv6 (original : Bytes) : Bool :=
  let src := Addr.v6 (slice original 8 24) ""
  let dst := Addr.v6 (slice original 24 40) ""
  if src.isUnspecified || src.isMulticast then true
  else if dst.isMulticast then true
  else suppressChain original 4 (byte original 6) 40

/-! ### Checksums -/

/-- The sum of big-endian words in 32 bits; a last odd byte is the high half of a word. -/
def sumWords : Bytes → ℕ → ℕ
  | b0 :: b1 :: data, sum => sumWords data ((sum + uint16 b0 b1) % 4294967296)
  | [b], sum => (sum + b.toNat * 256) % 4294967296
  | [], sum => sum

/-- The carries of a sum are added until none is left. A round lowers the sum, which bounds the
rounds. -/
def foldCarries : ℕ → ℕ → ℕ
  | 0, sum => sum
  | rounds + 1, sum =>
    if sum / 65536 ≠ 0 then foldCarries rounds (sum % 65536 + sum / 65536) else sum

def checksum (data : Bytes) (initial : ℕ) : ℕ :=
  65535 - foldCarries (sumWords data initial) (sumWords data initial)

/-! ### Messages -/

/-- Overwrite the bytes of a buffer from an index on. -/
def put (buf : Bytes) (i : ℕ) (bytes : Bytes) : Bytes :=
  buf.take i ++ bytes ++ buf.drop (i + bytes.length)

def putAll (buf : Bytes) : List (ℕ × Bytes) → Bytes
  | [] => buf
  | (i, bytes) :: fields => putAll (put buf i bytes) fields

variable (buf original : Bytes) (source : Addr) (quote mtu : ℕ)

def ipv4Fields (total : ℕ) : List (ℕ × Bytes) :=
  [(0, [0x45]), (1, [0]), (2, putUint16 total), (4, putUint32 0), (8, [64]), (9, [1]),
    (10, putUint16 0), (12, source.bytes), (16, slice original 12 16)]

/-- Destination Unreachable, Fragmentation Needed and DF set. -/
def icmpFields : List (ℕ × Bytes) :=
  [(20, [3]), (21, [4]), (22, putUint16 0), (24, putUint16 0), (26, putUint16 mtu),
    (28, original.take quote)]

def writeIPv4 : Bytes :=
  let total := 20 + 8 + quote
  let buf := putAll buf (ipv4Fields original source total)
  let buf := put buf 10 (putUint16 (checksum (slice buf 0 20) 0))
  let buf := putAll buf (icmpFields original quote mtu)
  put buf 22 (putUint16 (checksum (slice buf 20 total) 0))

def buildIPv4 : Except Error (ℕ × Bytes) :=
  if original.length < 20 then .error .badOriginal
  else
    let headerLen := (byte original 0 &&& 0x0f).toNat * 4
    if headerLen < 20 ∨ original.length < headerLen then .error .badOriginal
    else
      let totalLen := ipv4Length original
      if totalLen < headerLen ∨ original.length < totalLen then .error .badOriginal
      else
        let original := original.take totalLen
        if suppressIPv4 original headerLen then .error .suppressed
        else
          let quote := if original.length < headerLen + 8 then original.length else headerLen + 8
          if buf.length < 20 + 8 + quote then .error .shortBuffer
          else .ok (20 + 8 + quote, writeIPv4 buf original source quote mtu)

def ipv6Fields : List (ℕ × Bytes) :=
  [(0, [0x60]), (1, [0, 0, 0]), (4, putUint16 (8 + quote)), (6, [58]), (7, [64]),
    (8, source.bytes), (24, slice original 8 24)]

/-- Packet Too Big. -/
def icmpv6Fields : List (ℕ × Bytes) :=
  [(40, [2]), (41, [0]), (42, putUint16 0), (44, putUint32 mtu), (48, original.take quote)]

def writeIPv6 : Bytes :=
  let total := 40 + 8 + quote
  let buf := putAll buf (ipv6Fields original source quote)
  let buf := putAll buf (icmpv6Fields original quote mtu)
  -- the pseudo-header: both addresses, the length of the message and its protocol
  let pseudo := (sumWords (slice buf 8 40) 0 + (total - 40) + 58) % 4294967296
  put buf 42 (putUint16 (checksum (slice buf 40 total) pseudo))

def buildIPv6 : Except Error (ℕ × Bytes) :=
  if original.length < 40 then .error .badOriginal
  else if uint16 (byte original 4) (byte original 5) ≠ original.length - 40 then
    .error .badOriginal
  else if suppressIPv6 original then .error .suppressed
  else
    let maxSize := maxPacketTooBigSize - 40 - 8
    let quote := if maxSize < original.length then maxSize else original.length
    if buf.length < 40 + 8 + quote then .error .shortBuffer
    else .ok (40 + 8 + quote, writeIPv6 buf original source quote mtu)

/-- The length of the message and the buffer. -/
def buildPacketTooBig (mtu : ℤ) : Except Error (ℕ × Bytes) :=
  if original.length = 0 then .error .badOriginal
  else if mtu < minInnerMTU ∨ maxInnerMTU < mtu then .error .invalidMTU
  else if byte original 0 >>> 4 = 4 then
    if !source.is4 || source.zone != "" then .error .badSource
    else buildIPv4 buf original source mtu.toNat
  else if byte original 0 >>> 4 = 6 then
    if !source.is6 || source.is4In6 || source.zone != "" then .error .badSource
    else buildIPv6 buf original source mtu.toNat
  else .error .badOriginal

end PacketTooBig
end WgFrag.Data
