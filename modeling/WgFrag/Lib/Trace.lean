import WgFrag.Lib.Eff

/-! Labelled steps: chains of them, and effectful computations whose visible part moves
along such a chain. -/
namespace WgFrag.Lib

/-- Finitely many labelled steps. -/
inductive Chain {κ l : Type} (step : κ → l → κ → Prop) : κ → List l → κ → Prop
  | nil (c : κ) : Chain step c [] c
  | cons {c d f : κ} {a : l} {ls : List l} :
    step c a d → Chain step d ls f → Chain step c (a :: ls) f

namespace Chain
variable {κ l : Type} {step step' : κ → l → κ → Prop} {c d f : κ} {ls ls' : List l}

theorem single {a : l} (h : step c a d) : Chain step c [a] d := .cons h (.nil d)

theorem append (h : Chain step c ls d) (h' : Chain step d ls' f) : Chain step c (ls ++ ls') f := by
  induction h with
  | nil => exact h'
  | cons hs _ ih => exact .cons hs (ih h')

theorem mono (hsu : ∀ c a d, step c a d → step' c a d) (h : Chain step c ls d) :
    Chain step' c ls d := by
  induction h with
  | nil c => exact .nil c
  | cons hs _ ih => exact .cons (hsu _ _ _ hs) ih

theorem invariant {I : κ → Prop} (hst : ∀ c a d, step c a d → I c → I d)
    (h : Chain step c ls d) (hc : I c) : I d := by
  induction h with
  | nil => exact hc
  | cons hs _ ih => exact ih (hst _ _ _ hs hc)

/-- A map of views that commutes with the steps carries chains over. -/
theorem map (g : κ → κ) (hst : ∀ c a d, step c a d → step' (g c) a (g d))
    (h : Chain step c ls d) : Chain step' (g c) ls (g d) := by
  induction h with
  | nil c => exact .nil (g c)
  | cons hs _ ih => exact .cons (hst _ _ _ hs) ih

end Chain

namespace Eff
variable {σ κ l ε α β : Type} {view : σ → κ} {step step' : κ → l → κ → Prop}

/-- The view does not see the computation. -/
def Keeps (view : σ → κ) (x : Eff σ ε α) : Prop := ∀ s, view (x s).2 = view s

namespace Keeps
variable {x : Eff σ ε α}

theorem pure (a : α) : Keeps view (Pure.pure a : Eff σ ε α) := fun _ => rfl

theorem get : Keeps view (MonadState.get : Eff σ ε σ) := fun _ => rfl

theorem bind {f : α → Eff σ ε β} (hx : Keeps view x) (hf : ∀ a, Keeps view (f a)) :
    Keeps view (x >>= f) := by
  intro s
  have hs := hx s
  rw [bind_apply]
  cases h : x s with
  | mk r t =>
    rw [h] at hs
    cases r with
    | error => exact hs
    | ok a => exact (hf a t).trans hs

end Keeps

/-- From `s`, the view moves along some chain of steps, and a value returned satisfies
`post`. Nothing is said about an error except that its state was reached by the chain. -/
def Moves (view : σ → κ) (step : κ → l → κ → Prop) (x : Eff σ ε α) (s : σ)
    (post : List l → α → σ → Prop) : Prop :=
  ∃ ls, Chain step (view s) ls (view (x s).2) ∧ ∀ a, (x s).1 = .ok a → post ls a (x s).2

namespace Moves
variable {x : Eff σ ε α} {s : σ} {post post' : List l → α → σ → Prop}
variable {f : α → Eff σ ε β}

theorem stay (hv : view (x s).2 = view s) (h : ∀ a, (x s).1 = .ok a → post [] a (x s).2) :
    Moves view step x s post :=
  ⟨[], hv ▸ .nil _, h⟩

theorem one {a : l} (hs : step (view s) a (view (x s).2))
    (h : ∀ b, (x s).1 = .ok b → post [a] b (x s).2) : Moves view step x s post :=
  ⟨[a], .single hs, h⟩

theorem pure {a : α} (h : post [] a s) : Moves view step (Pure.pure a : Eff σ ε α) s post :=
  .stay rfl fun b hb => by cases hb; exact h

theorem throw {e : ε} : Moves view step (MonadExcept.throw e : Eff σ ε α) s post :=
  .stay rfl fun b hb => by cases hb

theorem mono (h : Moves view step x s post) (hp : ∀ ls a t, post ls a t → post' ls a t) :
    Moves view step x s post' := by
  obtain ⟨ls, hc, hq⟩ := h
  exact ⟨ls, hc, fun a ha => hp _ _ _ (hq a ha)⟩

theorem step_mono (h : Moves view step x s post) (hs : ∀ c a d, step c a d → step' c a d) :
    Moves view step' x s post := by
  obtain ⟨ls, hc, hq⟩ := h
  exact ⟨ls, hc.mono hs, hq⟩

variable {last : List l → β → σ → Prop}

theorem bind {mid : List l → α → σ → Prop} (h : Moves view step x s mid)
    (hf : ∀ ls a t, mid ls a t → Moves view step (f a) t fun ls' => last (ls ++ ls')) :
    Moves view step (x >>= f) s last := by
  obtain ⟨ls, hc, hm⟩ := h
  rw [Moves, bind_apply]
  cases hx : x s with
  | mk r t =>
    rw [hx] at hc hm
    cases r with
    | error => exact ⟨ls, hc, fun b hb => by cases hb⟩
    | ok a =>
      obtain ⟨ls', hc', hp⟩ := hf ls a t (hm a rfl)
      exact ⟨ls ++ ls', hc.append hc', hp⟩

theorem bind_stay (hv : view (x s).2 = view s)
    (hf : ∀ a t, view t = view s → x s = (.ok a, t) → Moves view step (f a) t last) :
    Moves view step (x >>= f) s last := by
  have hm : Moves view step x s fun ls a t => ls = [] ∧ view t = view s ∧ x s = (.ok a, t) :=
    .stay hv fun a ha => ⟨rfl, hv, Prod.ext ha rfl⟩
  refine hm.bind ?_
  rintro _ a t ⟨rfl, hv, ht⟩
  exact hf a t hv ht

theorem bind_keeps (hx : Keeps view x)
    (hf : ∀ a t, view t = view s → x s = (.ok a, t) → Moves view step (f a) t last) :
    Moves view step (x >>= f) s last := .bind_stay (hx s) hf

theorem bind_one {a : l} (hs : step (view s) a (view (x s).2))
    (hf : ∀ b, (x s).1 = .ok b → Moves view step (f b) (x s).2 fun ls => last (a :: ls)) :
    Moves view step (x >>= f) s last := by
  have hx : Moves view step x s fun ls b t => ls = [a] ∧ (x s).1 = .ok b ∧ t = (x s).2 :=
    .one hs fun b hb => ⟨rfl, hb, rfl⟩
  refine hx.bind ?_
  rintro _ b _ ⟨rfl, hb, rfl⟩
  exact hf b hb

theorem throw_bind {e : ε} : Moves view step (MonadExcept.throw e >>= f) s last :=
  .stay rfl fun b hb => by cases hb

theorem get_bind {f : σ → Eff σ ε β} (h : Moves view step (f s) s last) :
    Moves view step (get >>= f) s last := h

end Moves

/-- From `s`, a chain of steps leads to a good end, where `post` holds of its log, or to a state in
which a last step fails. -/
inductive Logged (step : σ → l → σ → Prop) (fails : σ → ε → σ → Prop) (s : σ)
    (post : List l → σ → Prop) : Except ε Unit × σ → Prop
  | ok {ls : List l} {t : σ} : Chain step s ls t → post ls t → Logged step fails s post (.ok (), t)
  | error {ls : List l} {t u : σ} {e : ε} : Chain step s ls t → fails t e u →
    Logged step fails s post (.error e, u)

namespace Logged
variable {step : σ → l → σ → Prop} {fails : σ → ε → σ → Prop} {s : σ} {x : Eff σ ε Unit}
  {post mid : List l → σ → Prop}
variable {t : σ}

theorem stay (h : post [] s) : Logged step fails s post (.ok (), s) := .ok (.nil s) h

theorem one {a : l} (hs : step s a t) (h : post [a] t) :
    Logged step fails s post (.ok (), t) := .ok (.single hs) h

theorem fail {e : ε} (h : fails s e t) : Logged step fails s post (.error e, t) :=
  .error (.nil s) h

theorem mono {out : Except ε Unit × σ} {post' : List l → σ → Prop}
    (h : Logged step fails s post out) (hp : ∀ ls t, post ls t → post' ls t) :
    Logged step fails s post' out := by
  cases h with
  | ok hc hpo => exact .ok hc (hp _ _ hpo)
  | error hc hf => exact .error hc hf

theorem after {ls : List l} {out : Except ε Unit × σ} (hc : Chain step s ls t)
    (h : Logged step fails t (fun ls' => post (ls ++ ls')) out) : Logged step fails s post out := by
  cases h with
  | ok hc' hp => exact .ok (hc.append hc') hp
  | error hc' hf => exact .error (hc.append hc') hf

theorem bind {f : Unit → Eff σ ε Unit} (h : Logged step fails s mid (x s))
    (hf : ∀ ls t, Chain step s ls t → mid ls t →
      Logged step fails t (fun ls' => post (ls ++ ls')) (f () t)) :
    Logged step fails s post ((x >>= f) s) := by
  rw [bind_apply]
  generalize x s = out at h
  cases h with
  | ok hc hm => exact (hf _ _ hc hm).after hc
  | error hc hfa => exact .error hc hfa

end Logged
end Eff
end WgFrag.Lib
