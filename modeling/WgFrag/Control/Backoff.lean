import WgFrag.Control.Pair
import WgFrag.Control.Retirement
import WgFrag.Wire.Protobuf

/-! After a session collision the next exchange waits for its deadline. -/
namespace WgFrag.Control
open WgFrag.Lib WgFrag.Wire List

/-- The frame carries no request: its message names the one that it answers. -/
def Answering (P : Proto) (frame : Bytes) : Prop :=
  ∃ m, frame = encodeFrame (P.marshal m) ∧ m.replyTo ≠ 0

/-- An exchange that was restarted with a deadline, and all exchanges up to it. -/
structure Backoff where
  proto : Proto
  config : StateConfig
  epoch : UInt64
  deadline : Time
  exchanges : List LocalExchange

variable {b : Backoff}

/-- Nothing of the restarted exchange is confirmed. -/
structure Gates.Held (b : Backoff) (g : Gates) : Prop where
  config : g.config = b.config
  retryAt : g.retryAt = b.deadline
  exchanges : g.exchanges = b.exchanges
  closed : g.flags.localCapabilities = false
  pending : g.pendingAck = false

/-- The exchange waits for its deadline. -/
structure Core.Waiting (b : Backoff) (c : Core) : Prop where
  held : c.toGates.Held b
  epoch : c.epoch = b.epoch
  started : c.started = true
  slot : c.slot = none
  pmtu : c.pmtu = none
  replay : ∀ entry, some entry ∈ c.replay → Answering b.proto entry.frame

variable {P : Proto} {e t : Engine} {m : Control} {α : Type}

namespace Gates.Held
variable {g : Gates}

theorem hello (h : g.Held b) (epoch : UInt64) (x : CapabilitiesHello) :
    (g.hello epoch x).Held b := by
  unfold Gates.hello
  split
  · exact ⟨h.config, h.retryAt, h.exchanges, rfl, rfl⟩
  · refine ⟨h.config, h.retryAt, h.exchanges, ?_, h.pending⟩
    show (g.pendingAck && _) = false
    rw [h.pending]
    rfl

theorem sync (h : g.Held b) : g.sync.Held b :=
  ⟨h.config, h.retryAt, h.exchanges, rfl, rfl⟩

end Gates.Held

namespace Engine

/-- No reading of the clock has reached the deadline. -/
def Early (b : Backoff) (e : Engine) : Prop :=
  ∀ n < e.state.clockReads, b.config.clock n < b.deadline

/-- A call that ends before the deadline leaves the exchange waiting and only sends answers. -/
def Calm (b : Backoff) (out : Except EngineError (List Bytes) × Engine) : Prop :=
  out.2.Early b → out.2.core.Waiting b ∧
    ∀ frames, out.1 = .ok frames → ∀ f ∈ frames, Answering b.proto f

/-- The exchange goes on waiting, and a returned value satisfies `post`. -/
def Rests (b : Backoff) (x : EngineM α) (e : Engine) (post : α → Prop) : Prop :=
  (x e).2.core.Waiting b ∧ ∀ a, (x e).1 = .ok a → post a

theorem Rests.keeps {x : EngineM α} (h : e.core.Waiting b) (hx : Eff.Keeps core x) :
    Rests b x e fun _ => True := ⟨(hx e).symm ▸ h, fun _ _ => trivial⟩

theorem Rests.bind {β : Type} {x : EngineM α} {f : α → EngineM β} {mid : α → Prop}
    {post : β → Prop} (hx : Rests b x e mid)
    (hf : ∀ a t, t.core.Waiting b → mid a → Rests b (f a) t post) :
    Rests b (x >>= f) e post := by
  obtain ⟨hw, hm⟩ := hx
  unfold Rests
  rw [Eff.bind_apply]
  generalize x e = out at hw hm
  obtain ⟨r, t⟩ := out
  cases r with
  | ok a => exact hf a t hw (hm a rfl)
  | error => exact ⟨hw, nofun⟩

theorem Calm.bind {x : EngineM α} {f : α → EngineM (List Bytes)} {mid : α → Prop}
    (hx : Rests b x e mid)
    (hf : ∀ a t, t.core.Waiting b → mid a → Calm b (f a t)) :
    Calm b ((x >>= f) e) := by
  obtain ⟨hw, hm⟩ := hx
  rw [Eff.bind_apply]
  generalize x e = out at hw hm
  obtain ⟨r, t⟩ := out
  cases r with
  | ok a => exact hf a t hw (hm a rfl)
  | error => exact fun _ => ⟨hw, nofun⟩

theorem Calm.cons {x : EngineM (List Bytes)} {f : Bytes} (hx : Calm b (x e))
    (hf : Answering b.proto f) : Calm b ((x >>= fun rest => pure (f :: rest)) e) := by
  rw [Eff.bind_apply]
  generalize x e = out at hx
  obtain ⟨r, t⟩ := out
  cases r with
  | error => exact fun hE => ⟨(hx hE).1, nofun⟩
  | ok rest =>
    intro hE
    obtain ⟨hw, ho⟩ := hx hE
    refine ⟨hw, fun frames hfr => ?_⟩
    cases hfr
    exact forall_mem_cons.mpr ⟨hf, ho rest rfl⟩

section Waiting
variable (h : e.core.Waiting b)
include h

end Waiting

/-! ### From the restart on -/

/-- The exchange and the deadline that a session collision in this frame leads to. -/
def restarts (P : Proto) (frame : Bytes) (e : Engine) : Option (LocalExchange × Time) :=
  match e.intake P frame with
  | (.ok (.handled m (.resetSequenceAck ack)), t) =>
    match t.requireResponse m .reset with
    | .ok o =>
      let r := t.state.observeResetSequenceAck m o.messageID
      if validResultCode ack.result = true ∧ r.1 = .sessionCollision then
        match r.2.restartLocalExchange with
        | (.ok x, s) => some (x, s.localExchangeRetryAt)
        | _ => none
      else none
    | _ => none
  | _ => none

def sampleFrame (id replyTo epoch : UInt64) (body : Body) : Bytes :=
  encodeFrame (Protobuf.proto.marshal { buildControl replyTo epoch body with messageID := id })

/-- A Hello of the peer and its answer to the Hello of this side, newest first. -/
@[irreducible] def opening (remote epoch : UInt64) : List Call :=
  [.handleInbound (sampleFrame 2 1 epoch (.capabilitiesAck ⟨1, 0, .accepted⟩)),
    .handleInbound (sampleFrame 1 0 remote
      (.capabilitiesHello (Pair.sampleConfig 0).state.capabilities))]

@[irreducible] def collision (epoch : UInt64) (session : UInt32) : Bytes :=
  sampleFrame 3 2 epoch (.resetSequenceAck ⟨session, .sessionCollision, none⟩)

end Engine
end WgFrag.Control
