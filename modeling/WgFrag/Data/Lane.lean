import WgFrag.Data.InnerIP

/-! The flow key of an inner packet, from which its lane is derived. The hash is the list of the
bytes that are written to it. -/
namespace WgFrag.Data.Lane
open InnerIP (byte slice)

/-- The walk over extension headers to the transport protocol and the offset of its payload. -/
def skipExtensions (packet : Bytes) : ℕ → UInt8 → ℕ → Option (UInt8 × ℕ)
  | 0, _, _ => none
  | k + 1, next, offset =>
    if next = 0 ∨ next = 43 ∨ next = 60 then
      if packet.length < offset + 2 then none
      else
        let headerLen := ((byte packet (offset + 1)).toNat + 1) * 8
        if packet.length < offset + headerLen then none
        else skipExtensions packet k (byte packet offset) (offset + headerLen)
    else if next = 51 then
      if packet.length < offset + 2 then none
      else
        let headerLen := ((byte packet (offset + 1)).toNat + 2) * 4
        if packet.length < offset + headerLen then none
        else skipExtensions packet k (byte packet offset) (offset + headerLen)
    else some (next, offset)

/-- The hash with the addresses and the protocol, and the transport protocol with its payload. -/
def writeAddresses (hash packet : Bytes) : Bytes × Option (UInt8 × Bytes) :=
  if packet.length = 0 then (hash, none)
  else if byte packet 0 >>> 4 = 4 then
    if packet.length < 20 then (hash, none)
    else
      let headerLen := (byte packet 0 &&& 0x0f).toNat * 4
      if headerLen < 20 ∨ packet.length < headerLen then (hash, none)
      else (hash ++ slice packet 12 20 ++ [byte packet 9],
        some (byte packet 9, packet.drop headerLen))
  else if byte packet 0 >>> 4 = 6 then
    if packet.length < 40 then (hash, none)
    else
      match skipExtensions packet 4 (byte packet 6) 40 with
      | none => (hash ++ slice packet 8 40, none)
      | some (next, offset) =>
        (hash ++ slice packet 8 40 ++ [next], some (next, packet.drop offset))
  else (hash, none)

end WgFrag.Data.Lane
