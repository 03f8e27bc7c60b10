import Mathlib.Data.List.Nodup

/-! Singly linked lists threaded through numbered cells. -/
namespace WgFrag.Lib

/-- Following `next` from `head` visits exactly the cells `l`, in that order. -/
def Linked (next : ℕ → Option ℕ) (head : Option ℕ) : List ℕ → Prop
  | [] => head = none
  | i :: l => head = some i ∧ Linked next (next i) l

namespace Linked
variable {next next' : ℕ → Option ℕ} {head : Option ℕ} {l : List ℕ}

theorem congr (h : Linked next head l) (heq : ∀ i ∈ l, next' i = next i) : Linked next' head l := by
  induction l generalizing head with
  | nil => exact h
  | cons i l ih =>
    obtain ⟨hi, hl⟩ := h
    constructor
    · exact hi
    · rw [heq i (by simp)]
      exact ih hl fun j hj => heq j (by simp [hj])

theorem push {i : ℕ} (h : Linked next head l) (hi : next' i = head)
    (heq : ∀ j ∈ l, next' j = next j) : Linked next' (some i) (i :: l) := by
  constructor
  · rfl
  · rw [hi]
    exact h.congr heq

end Linked
end WgFrag.Lib
