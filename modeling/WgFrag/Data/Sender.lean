import WgFrag.Data.Packetizer
import WgFrag.Data.Route
import Mathlib.Logic.Function.Basic

/-! The outbound DATA pipeline of one peer: the checks of inner packets, the choice of a lane, the
sequences of the lanes with their pause after a wrap, and packing. -/
namespace WgFrag.Data
open WgFrag.Lib Limits
open Fragment (Metadata Cuts)
open Packetizer (Appends Packed Packs)

/-- Nanoseconds since the Unix epoch. -/
abbrev UnixTime := ℤ

def ipv6HeaderSize : ℕ := 40

structure SenderConfig where
  dataSessionID : UInt16
  laneID : UInt8
  carrierPayload : ℕ
  minPack : ℕ
  remotePeerMTU : ℕ
  peerID : PeerID
  /-- without a table destinations are not checked -/
  allowedIPs : Option Route.Snapshot
  /-- without a classifier every packet goes on the fixed lane -/
  classifier : Option (Bytes → UInt8)
  initialSequences : Option (UInt8 → UInt32)
  initialWrapBlocks : Option (UInt8 → UnixTime)
  sequenceReuseLifetime : Duration

/-- The errors of the sink are passed on. -/
inductive SendError (ε : Type) where
  | invalidConfig
  | inner (e : InnerIP.Error)
  | innerDest
  | peerMTU
  | laneWrap
  | pack (e : PackError ε)
  deriving DecidableEq, Repr

/-- A pause of a lane lasts until its wrap block; zero means the lane is open. -/
structure Sender where
  config : SenderConfig
  packetizer : Packetizer
  sequences : UInt8 → UInt32
  wrapBlocks : UInt8 → UnixTime
  reuseWait : Duration

def SenderConfig.Valid (c : SenderConfig) : Prop :=
  c.dataSessionID ≠ 0 ∧ headerSize < c.carrierPayload ∧
    c.carrierPayload ≤ maxUint16 - ipv6HeaderSize ∧ 1 ≤ c.minPack ∧ ValidInnerMTU c.remotePeerMTU

instance SenderConfig.decidableValid (c : SenderConfig) : Decidable c.Valid :=
  inferInstanceAs (Decidable (_ ∧ _ ∧ _ ∧ _ ∧ _))

/-- A lifetime that is not given is the longest of the protocol. -/
def SenderConfig.reuseWait (c : SenderConfig) : Duration :=
  if c.sequenceReuseLifetime ≤ 0 then 60 * second else c.sequenceReuseLifetime

def newPayloadSender {ε : Type} (c : SenderConfig) : Except (SendError ε) Sender :=
  if ¬ c.Valid then .error .invalidConfig
  else
    match Packetizer.init c.carrierPayload c.carrierPayload c.minPack with
    | .error e => .error (.pack e)
    | .ok packetizer =>
      .ok {
        config := c
        packetizer := packetizer
        sequences := c.initialSequences.getD fun _ => 0
        wrapBlocks := c.initialWrapBlocks.getD fun _ => 0
        reuseWait := c.reuseWait }

namespace Sender
variable {τ ε : Type} (s : Sender)

/-- The checks of an inner packet, which is trimmed to the length in its header. -/
def inspect (packet : Bytes) : Except (SendError ε) Bytes :=
  match InnerIP.parse packet with
  | .error e => .error (.inner e)
  | .ok parsed =>
    if s.config.allowedIPs.any fun routes =>
        routes.lookupPeer parsed.destination != some s.config.peerID then .error .innerDest
    else if s.config.remotePeerMTU < parsed.data.length then .error .peerMTU
    else .ok parsed.data

def lane (data : Bytes) : UInt8 :=
  match s.config.classifier with
  | none => s.config.laneID
  | some classify => classify data

def unblock (lane : UInt8) : Sender :=
  { s with wrapBlocks := Function.update s.wrapBlocks lane 0 }

/-- The next sequence of the lane. After a wrap the lane pauses for a full lifetime. -/
def advance (now : UnixTime) (lane : UInt8) : Sender :=
  { s with
    sequences := Function.update s.sequences lane (s.sequences lane + 1)
    wrapBlocks := if s.sequences lane + 1 = 0
      then Function.update s.wrapBlocks lane (now + s.reuseWait) else s.wrapBlocks }

def metadata (lane : UInt8) : Metadata := ⟨s.config.dataSessionID, lane, s.sequences lane⟩

def onPacketizer {α : Type} (x : PackM τ ε α) :
    Eff (Sender × τ) (SendError ε) α := fun s =>
  match x (s.1.packetizer, s.2) with
  | (.ok a, t) => (.ok a, ({ s.1 with packetizer := t.1 }, t.2))
  | (.error e, t) => (.error (.pack e), ({ s.1 with packetizer := t.1 }, t.2))

variable (deliver : PeerID → Bytes → Eff τ ε Unit)

/-- The clock is read when a lane that was blocked is checked, and again after a wrap. -/
def add (now later : UnixTime) (packet : Bytes) : Eff (Sender × τ) (SendError ε) Unit := do
  let s ← get
  match s.1.inspect packet with
  | .error e => throw e
  | .ok data =>
    let lane := s.1.lane data
    if s.1.wrapBlocks lane ≠ 0 then
      if now < s.1.wrapBlocks lane then throw .laneWrap
      modify fun s => (s.1.unblock lane, s.2)
    onPacketizer (Packetizer.add (deliver s.1.config.peerID) data (s.1.metadata lane))
    modify fun s => (s.1.advance later lane, s.2)

def flush : Eff (Sender × τ) (SendError ε) Unit := do
  let s ← get
  onPacketizer (Packetizer.flush (deliver s.1.config.peerID))

def resetPending : Sender := { s with packetizer := s.packetizer.reset }

/-! ### What a call does -/

def Open (now : UnixTime) (lane : UInt8) : Prop :=
  s.wrapBlocks lane = 0 ∨ s.wrapBlocks lane ≤ now

/-- The sender on its way to pack a packet on the lane. -/
def opened (lane : UInt8) : Sender := if s.wrapBlocks lane ≠ 0 then s.unblock lane else s

section
variable (view : τ → List Bytes) (base : List Bytes) (records : List Record)
  (now later : UnixTime) (packet : Bytes) (s : Sender × τ)

/-- How a call of `add` ends: the packet is refused, or no split fits it, or the sink fails while
its fragments are packed, or all of them are packed and the sequence moves on. -/
inductive Adds : Except (SendError ε) Unit × (Sender × τ) → Prop
  | refused (e : SendError ε) : (∀ e', e ≠ .pack e') →
    Adds (.error e, s)
  | unsplit (data : Bytes) (e : Fragment.Error) :
    s.1.inspect packet = (.ok data : Except (SendError ε) Bytes) →
    s.1.Open now (s.1.lane data) →
    Fragment.split data (s.1.metadata (s.1.lane data)) ⟨s.1.packetizer.carrierPayload,
      s.1.packetizer.carrierPayload - s.1.packetizer.buffer.length, s.1.packetizer.minPack⟩
      maxFragments = .error e →
    Adds
      (.error (.pack (.fragment e)), (s.1.opened (s.1.lane data), s.2))
  | failed {p : Packetizer} {t : τ} (data : Bytes) (fs : List Record) (k : ℕ) (e : ε)
    (payload : Bytes) (u u' : τ) : s.1.inspect packet = (.ok data : Except (SendError ε) Bytes) →
    s.1.Open now (s.1.lane data) → Cuts data (s.1.metadata (s.1.lane data)) fs →
    deliver s.1.config.peerID payload u = (.error e, u') →
    payload.length ≤ s.1.packetizer.carrierPayload →
    p.carrierPayload = s.1.packetizer.carrierPayload → p.minPack = s.1.packetizer.minPack →
    Packed p.carrierPayload base (records ++ fs.take k) (view t) p.buffer →
    Adds (.error (.pack (.emit e)),
      ({ s.1.opened (s.1.lane data) with packetizer := p }, t))
  | sent {p : Packetizer} {t : τ} (data : Bytes) (fs : List Record) :
    s.1.inspect packet = (.ok data : Except (SendError ε) Bytes) →
    s.1.Open now (s.1.lane data) → Cuts data (s.1.metadata (s.1.lane data)) fs →
    p.carrierPayload = s.1.packetizer.carrierPayload → p.minPack = s.1.packetizer.minPack →
    Packed p.carrierPayload base (records ++ fs) (view t) p.buffer →
    Adds (.ok (),
      ({ s.1.opened (s.1.lane data) with packetizer := p }.advance later (s.1.lane data), t))

end

variable {deliver} {s : Sender} {view : τ → List Bytes} {base : List Bytes}
  {records : List Record} {packet : Bytes}
variable {later now : UnixTime} {st : Sender × τ}

theorem onPacketizer_eq {α : Type} {x : PackM τ ε α}
    {out : Except (PackError ε) α × Packetizer × τ} (h : x (st.1.packetizer, st.2) = out) :
    onPacketizer x st = (out.1.mapError .pack, ({ st.1 with packetizer := out.2.1 }, out.2.2)) := by
  unfold onPacketizer
  rw [h]
  obtain ⟨_ | _, _⟩ := out <;> rfl

theorem inspect_error {e : SendError ε} (h : s.inspect packet = .error e) : ∀ e', e ≠ .pack e' := by
  unfold inspect at h
  rintro _ rfl
  split at h
  · cases h
  · split_ifs at h
    · cases h
    · cases h

theorem add_refused {e : SendError ε} (h : st.1.inspect packet = .error e) :
    add deliver now later packet st = (.error e, st) := by
  unfold add
  rw [Eff.get_bind, h]
  rfl

theorem add_blocked {data : Bytes}
    (h : st.1.inspect packet = (.ok data : Except (SendError ε) Bytes))
    (hb : ¬ st.1.Open now (st.1.lane data)) :
    add deliver now later packet st = (.error .laneWrap, st) := by
  obtain ⟨hne, hlt⟩ := not_or.mp hb
  unfold add
  rw [Eff.get_bind, h]
  dsimp only
  rw [if_pos hne, if_pos (Int.not_le.mp hlt)]
  rfl

theorem add_open {data : Bytes} (h : st.1.inspect packet = (.ok data : Except (SendError ε) Bytes))
    (ho : st.1.Open now (st.1.lane data)) : add deliver now later packet st =
      ((onPacketizer (Packetizer.add (deliver st.1.config.peerID) data
        (st.1.metadata (st.1.lane data))) >>= fun _ =>
        modify fun s => (s.1.advance later (st.1.lane data), s.2) :
        Eff (Sender × τ) (SendError ε) PUnit)) (st.1.opened (st.1.lane data), st.2) := by
  unfold add opened
  rw [Eff.get_bind, h]
  dsimp only
  by_cases hz : st.1.wrapBlocks (st.1.lane data) = 0
  · rw [if_neg (not_not.mpr hz), if_neg (not_not.mpr hz)]
  · have hn : ¬ now < st.1.wrapBlocks (st.1.lane data) := Int.not_lt.mpr (ho.resolve_left hz)
    rw [if_pos hz, if_pos hz, if_neg hn]
    rfl

theorem opened_packetizer (lane : UInt8) : (s.opened lane).packetizer = s.packetizer ∧
    (s.opened lane).config = s.config ∧ (s.opened lane).sequences = s.sequences ∧
    (s.opened lane).reuseWait = s.reuseWait := by
  unfold opened
  split <;> exact ⟨rfl, rfl, rfl, rfl⟩

theorem add_adds (now later : UnixTime) (packet : Bytes)
    (ha : Appends (deliver st.1.config.peerID) view)
    (h : Packed st.1.packetizer.carrierPayload base records (view st.2) st.1.packetizer.buffer) :
    Adds deliver view base records now later packet st (add deliver now later packet st) := by
  cases hi : (st.1.inspect packet : Except (SendError ε) Bytes) with
  | error e =>
    rw [add_refused hi]
    exact .refused e (inspect_error hi)
  | ok data =>
    by_cases ho : st.1.Open now (st.1.lane data)
    · obtain ⟨hp, _, _, -⟩ := opened_packetizer (s := st.1) (st.1.lane data)
      rw [add_open hi ho, Eff.bind_apply]
      have hpa : Packed (st.1.opened (st.1.lane data)).packetizer.carrierPayload base records
          (view st.2) (st.1.opened (st.1.lane data)).packetizer.buffer := by
        rw [hp]
        exact h
      rcases Packetizer.add_spec (s := ((st.1.opened (st.1.lane data)).packetizer, st.2)) ha
        data (st.1.metadata (st.1.lane data)) hpa with ⟨e, hs, hrun⟩ | ⟨fs, hc, hpk⟩
      · rw [onPacketizer_eq hrun]
        rw [hp] at hs
        exact .unsplit data e hi ho hs
      · generalize hrun : Packetizer.add (deliver st.1.config.peerID) data
          (st.1.metadata (st.1.lane data)) ((st.1.opened (st.1.lane data)).packetizer, st.2) = out
          at hpk
        obtain ⟨res, p, _⟩ := out
        have hca : p.carrierPayload = st.1.packetizer.carrierPayload := by
          rw [← hp]
          exact hpk.carrierPayload
        have hmin : p.minPack = st.1.packetizer.minPack := by
          rw [← hp]
          exact hpk.minPack
        cases res with
        | error e =>
          rw [onPacketizer_eq hrun]
          obtain ⟨⟨e', payload, u, u', rfl, hf, hlen⟩, k, hr⟩ := hpk.error e rfl
          rw [hp] at hr hlen
          rw [← hca] at hr
          exact .failed data fs k e' payload u u' hi ho hc hf hlen hca hmin hr
        | ok =>
          rw [onPacketizer_eq hrun]
          have hr := hpk.ok rfl
          rw [hp, ← hca] at hr
          exact .sent data fs hi ho hc hca hmin hr
    · rw [add_blocked hi ho]
      exact .refused .laneWrap (by simp)

theorem flush_flushes (ha : Appends (deliver st.1.config.peerID) view)
    (h : Packed st.1.packetizer.carrierPayload base records (view st.2) st.1.packetizer.buffer) :
    (∃ t, flush deliver st = (.ok (), (st.1.resetPending, t)) ∧
      Packed st.1.packetizer.carrierPayload base records (view t) []) ∨
    ∃ e payload u u', flush deliver st = (.error (.pack (.emit e)), (st.1, u')) ∧
      deliver st.1.config.peerID payload u = (.error e, u') ∧ view u' = view st.2 ∧
      payload.length ≤ st.1.packetizer.carrierPayload := by
  have heq : flush deliver st =
      onPacketizer (Packetizer.flush (deliver st.1.config.peerID)) st := rfl
  rw [heq]
  unfold onPacketizer Packetizer.flush
  by_cases he : st.1.packetizer.buffer = []
  · rw [he] at h
    rw [if_pos he]
    refine .inl ⟨st.2, ?_, h⟩
    unfold resetPending
    rw [Packetizer.reset_eq he]
  rw [if_neg he]
  cases hem : deliver st.1.config.peerID st.1.packetizer.buffer st.2 with
  | mk res t =>
    cases res with
    | ok =>
      refine .inl ⟨t, rfl, ?_⟩
      rw [ha.ok hem]
      exact h.flushed he
    | error e => exact .inr ⟨e, _, _, t, rfl, hem, ha.error hem, h.length_le⟩

end Sender
end WgFrag.Data
