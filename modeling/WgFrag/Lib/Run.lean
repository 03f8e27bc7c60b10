import Mathlib.Tactic.Common

/-! Runs of a deterministic machine, and what has happened since a condition began to hold.
The inputs of a run are listed newest first. -/
namespace WgFrag.Lib

/-- A machine takes one step for every input. -/
structure Machine (σ ι : Type) where
  init : σ
  step : σ → ι → σ

namespace Machine
variable {σ ι : Type} (M : Machine σ ι)
variable {is : List ι}

def after : List ι → σ
  | [] => M.init
  | i :: is => M.step (after is) i

theorem invariant {I : σ → Prop} (hi : I M.init) (hst : ∀ s i, I s → I (M.step s i))
    (is : List ι) : I (M.after is) := by
  induction is with
  | nil => exact hi
  | cons i _ ih => exact hst _ i ih

/-- Every input was taken in a state that `Q` allows for it. -/
def Always (Q : σ → ι → Prop) : List ι → Prop
  | [] => True
  | i :: is => Q (M.after is) i ∧ Always Q is

instance Always.decide (Q : σ → ι → Prop) [∀ s i, Decidable (Q s i)] :
    ∀ is, Decidable (M.Always Q is)
  | [] => isTrue trivial
  | i :: is =>
    have := Always.decide Q is
    inferInstanceAs (Decidable (Q (M.after is) i ∧ M.Always Q is))

theorem always_invariant {Q : σ → ι → Prop} {I : σ → Prop} (hi : I M.init)
    (hst : ∀ s i, Q s i → I s → I (M.step s i)) (h : M.Always Q is) : I (M.after is) := by
  induction is with
  | nil => exact hi
  | cons i _ ih => exact hst _ i h.1 (ih h.2)

/-- `E` happened at some input, and `K` held after that input and after every later one. -/
def Since (K : σ → Prop) (E : List ι → ι → Prop) : List ι → Prop
  | [] => False
  | i :: is => K (M.after (i :: is)) ∧ (E is i ∨ Since K E is)

variable {M} {K : σ → Prop} {E E' : List ι → ι → Prop}

theorem Since.imp (h : ∀ is i, K (M.after (i :: is)) → E is i → E' is i)
    (hs : M.Since K E is) : M.Since K E' is := by
  induction is with
  | nil => exact hs.elim
  | cons i is ih => exact ⟨hs.1, hs.2.imp (h is i hs.1) ih⟩

theorem Since.era {K' : σ → Prop} (h : ∀ s, K s → K' s) (hs : M.Since K E is) :
    M.Since K' E is := by
  induction is with
  | nil => exact hs.elim
  | cons _ _ ih => exact ⟨h _ hs.1, hs.2.imp_right ih⟩

theorem Since.now (hs : M.Since K E is) : K (M.after is) := by
  cases is with
  | nil => exact hs.elim
  | cons => exact hs.1

theorem Since.mem (hs : M.Since K E is) : ∃ i ∈ is, ∃ older, E older i := by
  induction is with
  | nil => exact hs.elim
  | cons i is ih =>
    rcases hs.2 with he | hs
    · exact ⟨i, by simp, is, he⟩
    · obtain ⟨j, hj, he⟩ := ih hs
      exact ⟨j, by simp [hj], he⟩

/-- A gate that is closed at first, opens only at `E` and stays open only within one era was
opened by `E` in the present era. -/
theorem since_of_gate {G : σ → Prop} {K : σ → σ → Prop} (hK : ∀ s, K s s) (hi : ¬ G M.init)
    (hst : ∀ is i, G (M.after (i :: is)) → E is i ∨
      (G (M.after is) ∧ ∀ s, K (M.after is) s → K (M.after (i :: is)) s))
    (hG : G (M.after is)) : M.Since (K (M.after is)) E is := by
  induction is with
  | nil => exact absurd hG hi
  | cons i is ih =>
    refine ⟨hK _, (hst is i hG).imp_right ?_⟩
    rintro ⟨hG, he⟩
    exact (ih hG).era he

end Machine
end WgFrag.Lib
