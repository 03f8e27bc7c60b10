import WgFrag.Wgbind.Receive

/-! The send side of the Linux bind. Adjacent datagrams are coalesced for UDP GSO, a message that
is refused with EMSGSIZE is skipped, and a kernel without GSO or sendmmsg gets the datagrams
otherwise. -/
namespace WgFrag.Wgbind
open WgFrag.Lib.Segments

def maxIPv4PayloadLen : ℕ := 65535 - 20 - 8
def maxIPv6PayloadLen : ℕ := 65535 - 8

inductive Errno where
  | emsgsize
  | enosys
  | eio
  | einval
  | enoprotoopt
  | eopnotsupp
  | other (code : ℕ)
  deriving DecidableEq, Repr

inductive SendError where
  | wrongEndpointType
  | closed
  | familyNotSupported
  | shortBuffer
  | invalidCount (n : ℤ)
  | noProgress
  | errno (e : Errno)
  deriving DecidableEq, Repr

/-- A message for sendmmsg: its buffers and the segment size of its ancillary data. -/
structure Outgoing where
  buffers : List Bytes
  gso : Option ℕ := none
  deriving DecidableEq, Repr

/-- The datagram size that EMSGSIZE is about. -/
def messageSize (m : Outgoing) : ℕ := (m.buffers.headD []).length

/-- What the bind asks of the operating system, in some state of it: `writeBatch` is sendmmsg on one
socket, `writeTo` sends one datagram and `drain` empties the error queue of the socket. -/
structure Kernel (σ : Type) where
  writeBatch : List Outgoing → σ → (ℤ × Option Errno) × σ
  writeTo : Bytes → σ → Option Errno × σ
  drain : σ → ℕ × σ

/-- The state of the kernel and the path events so far, each with its datagram size if known. -/
abbrev Net (σ : Type) := σ × List (Option ℕ)

variable {σ : Type} (K : Kernel σ)

/-- Empty the error queue after EMSGSIZE; each queued error is an event of unknown size. -/
def drainSendErrors (s : Net σ) : ℕ × Net σ :=
  let r := K.drain s.1
  (r.1, (r.2, s.2 ++ List.replicate r.1 none))

/-- The events of a refused datagram. -/
def reportRefused (size : Option ℕ) (s : Net σ) : Net σ :=
  let r := drainSendErrors K s
  match r.1, size with
  | 0, some size => (r.2.1, r.2.2 ++ [some size])
  | _, _ => r.2

/-- The loop of `sendBatchContext`: the messages sent so far and the error, if it ends within the
given rounds. -/
def sendLoop : ℕ → List Outgoing → ℕ → Net σ → Option ((ℕ × Option SendError) × Net σ)
  | _, [], sent, s => some ((sent, none), s)
  | 0, _ :: _, _, _ => none
  | rounds + 1, m :: msgs, sent, s =>
    let r := K.writeBatch (m :: msgs) s.1
    let n := r.1.1
    if ((m :: msgs).length : ℤ) < n then some ((sent, some (.invalidCount n)), (r.2, s.2))
    else
      let rest := (m :: msgs).drop n.toNat
      match r.1.2 with
      | none =>
        if 0 < n then sendLoop rounds rest (sent + n.toNat) (r.2, s.2)
        else some ((sent + n.toNat, some .noProgress), (r.2, s.2))
      | some .emsgsize =>
        sendLoop rounds (rest.drop 1) (sent + n.toNat)
          (reportRefused K (rest.head?.map messageSize) (r.2, s.2))
      | some e => some ((sent + n.toNat, some (.errno e)), (r.2, s.2))

/-- A round takes at least one message off, so there are no more rounds than messages. -/
def sendBatch (msgs : List Outgoing) (s : Net σ) : Option ((ℕ × Option SendError) × Net σ) :=
  sendLoop K msgs.length msgs 0 s

def writeSequential : List Bytes → Net σ → Option SendError × Net σ
  | [], s => (none, s)
  | packet :: packets, s =>
    match K.writeTo packet s.1 with
    | (none, k) => writeSequential packets (k, s.2)
    | (some .emsgsize, k) =>
      let r := drainSendErrors K (k, s.2)
      if r.1 = 0 then writeSequential packets (r.2.1, r.2.2 ++ [some packet.length])
      else
        match K.writeTo packet r.2.1 with
        | (none, k) => writeSequential packets (k, r.2.2)
        | (some .emsgsize, k) => writeSequential packets (k, r.2.2 ++ [some packet.length])
        | (some e, k) => (some (.errno e), (k, r.2.2))
    | (some e, k) => (some (.errno e), (k, s.2))

/-- A message is given its segment size once it has more than one datagram. -/
def finishMessage (buffers : List Bytes) (gsoSize dgramCount : ℕ) : Outgoing :=
  ⟨buffers, if 1 < dgramCount then some (gsoSize % 65536) else none⟩

/-- The loop of `coalesceMessages`, where `buffers` is the message that is being filled. -/
def coalesceLoop (maxPayloadLen : ℕ) :
    List Bytes → List Bytes → ℕ → ℕ → ℕ → Bool → List Outgoing
  | [], buffers, _, gsoSize, dgramCount, _ => [finishMessage buffers gsoSize dgramCount]
  | packet :: packets, buffers, baseLen, gsoSize, dgramCount, endBatch =>
    if packet.length + baseLen ≤ maxPayloadLen ∧ packet.length ≤ gsoSize ∧
        dgramCount < udpSegmentMaxDatagrams ∧ endBatch = false then
      coalesceLoop maxPayloadLen packets (buffers ++ [packet]) (baseLen + packet.length) gsoSize
        (dgramCount + 1) (packet.length < gsoSize)
    else
      finishMessage buffers gsoSize dgramCount ::
        coalesceLoop maxPayloadLen packets [packet] packet.length packet.length 1 false

def coalesceMessages (packets : List Bytes) (is6 : Bool) : List Outgoing :=
  match packets with
  | [] => []
  | packet :: packets =>
    coalesceLoop (if is6 then maxIPv6PayloadLen else maxIPv4PayloadLen) packets [packet]
      packet.length packet.length 1 false

def plainMessages (packets : List Bytes) : List Outgoing :=
  packets.map fun packet => ⟨[packet], none⟩

def shouldDisableUDPGSO (e : SendError) : Bool :=
  e == .errno .eio || e == .errno .einval || e == .errno .enoprotoopt || e == .errno .eopnotsupp

/-- An open socket has a flag that says whether UDP GSO is used. -/
structure Bind where
  isOpen : Bool
  ipv4 : Option Bool
  ipv6 : Option Bool
  pool : ℕ
  deriving DecidableEq, Repr

def Bind.socket (b : Bind) (is6 : Bool) : Option Bool := if is6 then b.ipv6 else b.ipv4

def Bind.setTxOffload (b : Bind) (is6 enabled : Bool) : Bind :=
  if is6 then { b with ipv6 := b.ipv6.map fun _ => enabled }
  else { b with ipv4 := b.ipv4.map fun _ => enabled }

/-- The datagrams in one message each, or one by one if there is no sendmmsg. -/
def sendPlain (packets : List Bytes) (s : Net σ) (always : Bool) :
    Option (Option SendError × Net σ) :=
  match sendBatch K (plainMessages packets) s with
  | none => none
  | some ((sent, err), s) =>
    if err = some (.errno .enosys) ∧ (always = true ∨ sent = 0) then
      some (writeSequential K packets s)
    else some (err, s)

/-- `is6` is the family of the endpoint, `none` for one of another type. The result is `none` if the
call does not end. -/
def Bind.send (b : Bind) (packets : List Bytes) (endpoint : Option Bool) (s : Net σ) :
    Option ((Option SendError × Bind) × Net σ) :=
  if packets = [] then some ((none, b), s)
  else
    match endpoint with
    | none => some ((some .wrongEndpointType, b), s)
    | some is6 =>
      if b.isOpen = false then some ((some .closed, b), s)
      else
        match b.socket is6 with
        | none => some ((some .familyNotSupported, b), s)
        | some offload =>
          if b.pool < packets.length then some ((some .shortBuffer, b), s)
          else if offload = false then
            (sendPlain K packets s true).map fun r => ((r.1, b), r.2)
          else
            match sendBatch K (coalesceMessages packets is6) s with
            | none => none
            | some ((_, none), s) => some ((none, b), s)
            | some ((sent, some err), s) =>
              if err = .errno .enosys ∧ sent = 0 then
                let r := writeSequential K packets s
                some ((r.1, b), r.2)
              else if shouldDisableUDPGSO err = false ∨ sent ≠ 0 then some ((some err, b), s)
              else
                -- the kernel refused the option, and nothing was sent
                (sendPlain K packets s false).map fun r => ((r.1, b.setTxOffload is6 false), r.2)

end WgFrag.Wgbind
