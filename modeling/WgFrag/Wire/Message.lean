import WgFrag.Basic

/-! CONTROL messages as the generated getters show them, the protobuf codec the
engine is linked with, and the frame around it. -/
namespace WgFrag.Wire

/-- The wire enum is open; the engine only tells a value outside the schema from the others. -/
inductive ResultCode where
  | unspecified
  | accepted
  | incompatibleVersion
  | missingRequiredFeature
  | invalidParameter
  | sessionCollision
  | unknown
  deriving DecidableEq, Repr

inductive SyncReason where
  | unspecified
  | unknownDataSession
  | unknown
  deriving DecidableEq, Repr

structure CapabilitiesHello where
  dataProtocolVersion : UInt32
  maxFragments : UInt32
  maxCarrierPayload : UInt32
  supportedFeatureBits : UInt64
  requiredFeatureBits : UInt64
  reassemblyLifetimeMs : UInt32
  deriving DecidableEq, Repr

structure CapabilitiesAck where
  selectedDataProtocolVersion : UInt32
  selectedFeatureBits : UInt64
  result : ResultCode
  deriving DecidableEq, Repr

/-- The last received carrier payload is an optional hint; its getter reads zero when unset. -/
structure ResetSequenceAck where
  dataSessionID : UInt32
  result : ResultCode
  lastReceivedCarrierPayload : Option UInt32
  deriving DecidableEq, Repr

structure PeerMTUAck where
  innerMTU : UInt32
  result : ResultCode
  deriving DecidableEq, Repr

structure StateSyncRequired where
  reason : SyncReason
  observedDataSessionID : UInt32
  deriving DecidableEq, Repr

inductive Body where
  | capabilitiesHello (hello : CapabilitiesHello)
  | mtuProbe
  | mtuProbeAck (receivedProbePayloadSize : UInt32)
  | ping (sequence : UInt32)
  | pong (sequence : UInt32)
  | capabilitiesAck (ack : CapabilitiesAck)
  | resetSequence (dataSessionID : UInt32)
  | resetSequenceAck (ack : ResetSequenceAck)
  | peerMTU (innerMTU : UInt32)
  | peerMTUAck (ack : PeerMTUAck)
  | stateSyncRequired (sync : StateSyncRequired)
  deriving DecidableEq, Repr

/-- A message without a recognised body has `body = none`; a cleared padding is `none`. -/
structure Control where
  messageID : UInt64
  replyTo : UInt64
  controlEpoch : UInt64
  padding : Option Bytes
  body : Option Body
  deriving DecidableEq, Repr

def Control.getPadding (m : Control) : Bytes := m.padding.getD []

/-- The protobuf library. `proto.Size` is the length of the deterministic encoding. -/
structure Proto where
  marshal : Control → Bytes
  unmarshal : Bytes → Option Control

/-- The documented round trip of the protobuf library. -/
def Proto.Lawful (P : Proto) : Prop := ∀ m, P.unmarshal (P.marshal m) = some m

def Proto.size (P : Proto) (m : Control) : ℕ := (P.marshal m).length

inductive FrameError where
  | invalidMaxFrameSize
  | frameTooShort
  | invalidMarker
  | unsupportedVersion
  | emptyPayload
  | frameTooLarge
  deriving DecidableEq, Repr

def headerSize : ℕ := 3
def protocolVersion : UInt8 := 1

/-- One complete CONTROL frame: marker, protocol version and the protobuf payload. -/
def encodeFrame (payload : Bytes) : Bytes := 0 :: 0 :: protocolVersion :: payload

/-- Frame codec with a limit on the complete frame, header included. -/
structure Codec where
  maxFrameSize : ℕ
  deriving DecidableEq, Repr

namespace Codec

/-- `MarshalTo` into a buffer of exactly the frame size. -/
def marshalTo (c : Codec) (payload : Bytes) : Except FrameError Bytes :=
  if payload.length = 0 then .error .emptyPayload
  else if c.maxFrameSize < headerSize + 1 then .error .invalidMaxFrameSize
  else if c.maxFrameSize - headerSize < payload.length then .error .frameTooLarge
  else .ok (encodeFrame payload)

def parse (c : Codec) (frame : Bytes) : Except FrameError Bytes :=
  match frame with
  | b0 :: b1 :: version :: payload =>
    if b0 ≠ 0 ∨ b1 ≠ 0 then .error .invalidMarker
    else if version ≠ protocolVersion then .error .unsupportedVersion
    else if c.maxFrameSize < headerSize + 1 then .error .invalidMaxFrameSize
    else if c.maxFrameSize < frame.length then .error .frameTooLarge
    else if payload = [] then .error .emptyPayload
    else .ok payload
  | _ => .error .frameTooShort

theorem marshalTo_ok {c : Codec} {payload frame : Bytes} (h : c.marshalTo payload = .ok frame) :
    frame = encodeFrame payload := by
  unfold marshalTo at h
  split_ifs at h
  exact (Except.ok.inj h).symm

/-- What a codec accepts is the payload of one frame, whatever its limit. -/
theorem parse_ok {c : Codec} {frame payload : Bytes} (h : c.parse frame = .ok payload) :
    frame = encodeFrame payload := by
  unfold parse at h
  split at h
  · rename_i b0 b1 version rest
    split_ifs at h with hm hv
    obtain ⟨rfl, rfl⟩ : b0 = 0 ∧ b1 = 0 := by simpa [not_or] using hm
    cases Except.ok.inj h
    simp only [ne_eq, not_not] at hv
    rw [hv, encodeFrame]
  · exact absurd h (by simp)

end Codec

/-- The `Control` message a codec reads from a frame, before any check on its fields. -/
def decode (P : Proto) (c : Codec) (frame : Bytes) : Option Control :=
  match c.parse frame with
  | .ok payload => P.unmarshal payload
  | .error _ => none

theorem decode_encodeFrame {P : Proto} (hP : P.Lawful) {c : Codec} {m m' : Control}
    (h : decode P c (encodeFrame (P.marshal m)) = some m') : m' = m := by
  unfold decode at h
  split at h
  · rename_i payload hp
    have he : P.marshal m = payload := by
      have := Codec.parse_ok hp
      simpa [encodeFrame] using this
    rw [← he, hP m] at h
    exact (Option.some.inj h).symm
  · exact absurd h (by simp)

end WgFrag.Wire
