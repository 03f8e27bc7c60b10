import Mathlib.Tactic.Common

/-! Stateful computations that may fail, with rules for what they preserve.
A failing computation keeps the state it had reached. -/
namespace WgFrag.Lib

/-- A computation on states `σ` that returns a value or stops with an error. -/
def Eff (σ ε α : Type) : Type := σ → Except ε α × σ

namespace Eff
variable {σ τ ε α β : Type}

instance : Monad (Eff σ ε) where
  pure a := fun s => (.ok a, s)
  bind x f := fun s =>
    match x s with
    | (.ok a, t) => f a t
    | (.error e, t) => (.error e, t)

instance : MonadStateOf σ (Eff σ ε) where
  get := fun s => (.ok s, s)
  set t := fun _ => (.ok (), t)
  modifyGet f := fun s => (.ok (f s).1, (f s).2)

instance : MonadExceptOf ε (Eff σ ε) where
  throw e := fun s => (.error e, s)
  tryCatch x h := fun s =>
    match x s with
    | (.ok a, t) => (.ok a, t)
    | (.error e, t) => h e t

/-- Run a total update on a component of the state. -/
def onPart (view : σ → τ) (put : τ → σ → σ) (f : τ → α × τ) : Eff σ ε α := fun s =>
  (.ok (f (view s)).1, put (f (view s)).2 s)

@[simp] theorem pure_apply (a : α) (s : σ) : (pure a : Eff σ ε α) s = (.ok a, s) := rfl

@[simp] theorem get_apply (s : σ) : (get : Eff σ ε σ) s = (.ok s, s) := rfl

@[simp] theorem set_apply (s t : σ) : (set t : Eff σ ε PUnit) s = (.ok (), t) := rfl

@[simp] theorem modify_apply (f : σ → σ) (s : σ) :
    (modify f : Eff σ ε PUnit) s = (.ok (), f s) := rfl

@[simp] theorem throw_apply (e : ε) (s : σ) : (throw e : Eff σ ε α) s = (.error e, s) := rfl

theorem bind_apply (x : Eff σ ε α) (f : α → Eff σ ε β) (s : σ) :
    (x >>= f) s = match x s with
      | (.ok a, t) => f a t
      | (.error e, t) => (.error e, t) := rfl

theorem get_bind (f : σ → Eff σ ε β) (s : σ) : (get >>= f) s = f s s := rfl

theorem bind_ok {x : Eff σ ε α} {f : α → Eff σ ε β} {s u : σ} {b : β}
    (h : (x >>= f) s = (.ok b, u)) : ∃ a t, x s = (.ok a, t) ∧ f a t = (.ok b, u) := by
  rw [bind_apply] at h
  cases hx : x s with
  | mk r t =>
    rw [hx] at h
    cases r with
    | error => cases h
    | ok a => exact ⟨a, t, rfl, h⟩

theorem map_ok {x : Eff σ ε α} {f : α → β} {s t : σ} {a : α} (h : x s = (.ok a, t)) :
    (f <$> x) s = (.ok (f a), t) := by
  show (x >>= fun a => pure (f a)) s = _
  rw [bind_apply, h]
  rfl

/-- Whatever the computation returns, it leaves the states of `I` within `I`. -/
def Within (I : σ → Prop) (x : Eff σ ε α) : Prop := ∀ s, I s → I (x s).2

namespace Within
variable {I : σ → Prop}

theorem pure (a : α) : Within I (Pure.pure a : Eff σ ε α) := fun _ hs => hs

theorem throw (e : ε) : Within I (MonadExcept.throw e : Eff σ ε α) := fun _ hs => hs

theorem get : Within I (MonadState.get : Eff σ ε σ) := fun _ hs => hs

theorem modify {f : σ → σ} (h : ∀ s, I s → I (f s)) :
    Within I (modifyGet fun s => ((), f s) : Eff σ ε PUnit) := h

theorem bind {x : Eff σ ε α} {f : α → Eff σ ε β} (hx : Within I x) (hf : ∀ a, Within I (f a)) :
    Within I (x >>= f) := by
  intro s hs
  have hst := hx s hs
  rw [bind_apply]
  generalize x s = out at hst
  obtain ⟨res, t⟩ := out
  cases res with
  | ok a => exact hf a t hst
  | error => exact hst

theorem ite {p : Prop} [Decidable p] {x y : Eff σ ε α} (hx : Within I x) (hy : Within I y) :
    Within I (if p then x else y) := by
  split
  · exact hx
  · exact hy

end Within

/-- The computation succeeds, with a result and a final state of `post`. -/
def Succeeds (x : Eff σ ε α) (s : σ) (post : α → σ → Prop) : Prop :=
  ∃ a t, x s = (.ok a, t) ∧ post a t

namespace Succeeds
variable {s : σ} {x : Eff σ ε α} {post : α → σ → Prop}

theorem pure {a : α} (h : post a s) : Succeeds (Pure.pure a : Eff σ ε α) s post := ⟨a, s, rfl, h⟩

theorem modify {f : σ → σ} {post : PUnit → σ → Prop} (h : post ⟨⟩ (f s)) :
    Succeeds (modifyGet fun s => (⟨⟩, f s) : Eff σ ε PUnit) s post := ⟨⟨⟩, f s, rfl, h⟩

theorem bind {f : α → Eff σ ε β} {post : β → σ → Prop}
    (h : Succeeds x s fun a t => Succeeds (f a) t post) : Succeeds (x >>= f) s post := by
  obtain ⟨a, t, hx, b, u, hf, hp⟩ := h
  refine ⟨b, u, ?_, hp⟩
  rw [bind_apply, hx]
  exact hf

theorem get_bind {f : σ → Eff σ ε β} {post : β → σ → Prop} (h : Succeeds (f s) s post) :
    Succeeds (MonadState.get >>= f) s post := h

theorem mono {post' : α → σ → Prop} (h : Succeeds x s post)
    (hp : ∀ a t, post a t → post' a t) : Succeeds x s post' := by
  obtain ⟨a, t, hx, ha⟩ := h
  exact ⟨a, t, hx, hp a t ha⟩

end Succeeds

/-- Whatever the computation returns, it ends in a state of `post`. -/
def Ends (x : Eff σ ε α) (s : σ) (post : σ → Prop) : Prop := post (x s).2

namespace Ends
variable {s : σ} {x : Eff σ ε α} {post : σ → Prop}

theorem pure {a : α} (h : post s) : Ends (Pure.pure a : Eff σ ε α) s post := h

theorem bind {f : α → Eff σ ε β} (h : Succeeds x s fun a t => Ends (f a) t post) :
    Ends (x >>= f) s post := by
  obtain ⟨a, t, hx, hf⟩ := h
  unfold Ends
  rw [bind_apply, hx]
  exact hf

theorem bind_throw {e : ε} {f : α → Eff σ ε β} (h : post s) :
    Ends ((MonadExcept.throw e : Eff σ ε α) >>= f) s post := h

theorem get_bind {f : σ → Eff σ ε β} (h : Ends (f s) s post) :
    Ends (MonadState.get >>= f) s post := h

end Ends

end Eff
end WgFrag.Lib
