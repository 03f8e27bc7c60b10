import Mathlib.Tactic.Common
import Mathlib.Data.Int.Notation

/-! Time, bytes and the wire-format limits shared by every component. -/
namespace WgFrag

/-- Nanoseconds since the zero instant of `time.Time`; zero is the zero instant itself. -/
abbrev Time := ℤ

/-- Nanoseconds. -/
abbrev Duration := ℤ

abbrev Bytes := List UInt8

abbrev PeerID := ℕ

def millisecond : Duration := 1000000

def second : Duration := 1000 * millisecond

def minute : Duration := 60 * second

theorem lt_of_get {α : Type} {l : List α} {i : ℕ} {a : α} (h : l[i]? = some a) : i < l.length :=
  (List.getElem?_eq_some_iff.mp h).1

namespace Limits

def dataHeaderSize : ℕ := 12
def maxFragments : ℕ := 16
def minInnerMTU : ℕ := 1280
def maxInnerMTU : ℕ := 9612
def defaultCarrierPayload : ℕ := 613

/-- The smallest carrier payload that carries `mtu` bytes in `maxFragments` records. -/
def minCarrierPayload (mtu : ℕ) : ℕ := (mtu + maxFragments - 1) / maxFragments + dataHeaderSize

def ValidInnerMTU (mtu : ℕ) : Prop := minInnerMTU ≤ mtu ∧ mtu ≤ maxInnerMTU

def ValidMinCarrierPayload (mtu payload : ℕ) : Prop :=
  ValidInnerMTU mtu ∧ max defaultCarrierPayload (minCarrierPayload mtu) ≤ payload

instance (mtu : ℕ) : Decidable (ValidInnerMTU mtu) := inferInstanceAs (Decidable (_ ∧ _))

instance (mtu payload : ℕ) : Decidable (ValidMinCarrierPayload mtu payload) :=
  inferInstanceAs (Decidable (_ ∧ _))

end Limits
end WgFrag
