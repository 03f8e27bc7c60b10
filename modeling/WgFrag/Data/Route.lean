import WgFrag.Data.InnerIP

/-! The AllowedIPs table: tries over the bits of addresses that find the owner of the longest
prefix. -/
namespace WgFrag.Data.Route

/-- A node has a child per bit, by index, and the peer of the prefix that ends at it. -/
structure RouteNode where
  zero : Option ℕ := none
  one : Option ℕ := none
  peer : Option PeerID := none
  deriving DecidableEq, Repr

def RouteNode.child (node : RouteNode) (bit : Bool) : Option ℕ :=
  if bit then node.one else node.zero

def RouteNode.setChild (node : RouteNode) (bit : Bool) (index : ℕ) : RouteNode :=
  if bit then { node with one := some index } else { node with zero := some index }

structure RouteTrie where
  nodes : List RouteNode
  deriving DecidableEq, Repr

structure Snapshot where
  v4 : RouteTrie
  v6 : RouteTrie
  deriving DecidableEq, Repr

def byteBits (b : UInt8) : List Bool :=
  [7, 6, 5, 4, 3, 2, 1, 0].map fun k => b >>> k &&& 1 == 1

/-- The bits of an address, most significant first. -/
def addressBits (bytes : Bytes) : List Bool := bytes.flatMap byteBits

namespace RouteTrie
variable (t : RouteTrie)

def node (i : ℕ) : RouteNode := t.nodes.getD i {}

/-- Follow the bits from the node `i` on; `best` is the last peer met. -/
def lookupLoop : List Bool → ℕ → Option PeerID → Option PeerID
  | [], _, best => best
  | bit :: bits, i, best =>
    match (t.node i).child bit with
    | none => best
    | some j => lookupLoop bits j ((t.node j).peer.or best)

/-- `lookup4` and `lookup6` differ in the number of bits only. -/
def lookup (bytes : Bytes) : Option PeerID :=
  if t.nodes.length = 0 then none else t.lookupLoop (addressBits bytes) 0 (t.node 0).peer

/-! ### Insertion -/

def maxUint32 : ℕ := 4294967295

/-- The child of a node, which is added if it is missing; `none` if there are too many nodes. -/
def child (parent : ℕ) (bit : Bool) : Option (ℕ × RouteTrie) :=
  match (t.node parent).child bit with
  | some index => some (index, t)
  | none =>
    if maxUint32 ≤ t.nodes.length then none
    else some (t.nodes.length,
      ⟨(t.nodes ++ [({} : RouteNode)]).set parent ((t.node parent).setChild bit t.nodes.length)⟩)

def insertLoop : List Bool → ℕ → RouteTrie → Option (ℕ × RouteTrie)
  | [], i, t => some (i, t)
  | bit :: bits, i, t =>
    match t.child i bit with
    | none => none
    | some (j, t) => insertLoop bits j t

def insert (bits : List Bool) (peer : PeerID) : Option RouteTrie :=
  match insertLoop bits 0 t with
  | none => none
  | some (i, t) => some ⟨t.nodes.set i { t.node i with peer := some peer }⟩

end RouteTrie

/-- An IPv4 address in its IPv6 form `::ffff:a.b.c.d`. -/
def is4In6 (bytes : Bytes) : Bool := bytes.take 12 == [0, 0, 0, 0, 0, 0, 0, 0, 0, 0, 0xff, 0xff]

namespace Snapshot
variable (s : Snapshot)

/-- Invalid, scoped and IPv4-mapped addresses have no owner. -/
def lookupPeer : Addr → Option PeerID
  | .invalid => none
  | .v4 bytes => s.v4.lookup bytes
  | .v6 bytes zone => if zone ≠ "" ∨ is4In6 bytes then none else s.v6.lookup bytes

def validateSource (peer : PeerID) (source : Addr) : Bool := s.lookupPeer source == some peer

end Snapshot

/-! ### Construction -/

/-- A prefix as `netip.Prefix` has it: an invalid one has no length. -/
structure Prefix where
  addr : Addr
  bits : Option ℕ
  fits : ∀ n, bits = some n → n ≤ (addressBits addr.bytes).length

structure AllowedIP where
  ipPrefix : Prefix
  peerID : PeerID

/-- An address without a zone that is not an IPv4 address in IPv6 form. -/
def validLookupAddress : Addr → Bool
  | .invalid => false
  | .v4 _ => true
  | .v6 bytes zone => zone == "" && !is4In6 bytes

def validAllowedPrefix (p : Prefix) : Bool := p.bits.isSome && validLookupAddress p.addr

/-- A prefix without its host bits: the family, and the bits that it fixes. -/
structure Masked where
  is4 : Bool
  bits : List Bool
  deriving DecidableEq, Repr

def Prefix.masked (p : Prefix) : Masked :=
  ⟨p.addr.is4, (addressBits p.addr.bytes).take (p.bits.getD 0)⟩

inductive Error where
  | invalidAllowedIP (index : ℕ) (p : Prefix)
  | duplicateAllowedIP (p : Masked) (firstIndex secondIndex : ℕ) (firstPeer secondPeer : PeerID)
  | tooManyAllowedIPs (index : ℕ)

/-- A prefix met before, with its index and its peer. -/
structure Owner where
  masked : Masked
  index : ℕ
  peer : PeerID

def Snapshot.insert (s : Snapshot) (p : Masked) (peer : PeerID) : Option Snapshot :=
  if p.is4 then (s.v4.insert p.bits peer).map fun t => { s with v4 := t }
  else (s.v6.insert p.bits peer).map fun t => { s with v6 := t }

def newSnapshotLoop : List AllowedIP → ℕ → List Owner → Snapshot → Except Error Snapshot
  | [], _, _, s => .ok s
  | entry :: rest, index, seen, s =>
    if ¬ validAllowedPrefix entry.ipPrefix then .error (.invalidAllowedIP index entry.ipPrefix)
    else
      match seen.find? fun o => o.masked = entry.ipPrefix.masked with
      | some first => .error
        (.duplicateAllowedIP entry.ipPrefix.masked first.index index first.peer entry.peerID)
      | none =>
        match s.insert entry.ipPrefix.masked entry.peerID with
        | none => .error (.tooManyAllowedIPs index)
        | some s =>
          newSnapshotLoop rest (index + 1) (⟨entry.ipPrefix.masked, index, entry.peerID⟩ :: seen) s

def newSnapshot (allowed : List AllowedIP) : Except Error Snapshot :=
  newSnapshotLoop allowed 0 [] ⟨⟨[({} : RouteNode)]⟩, ⟨[({} : RouteNode)]⟩⟩

end WgFrag.Data.Route
