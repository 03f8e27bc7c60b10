import Mathlib.Tactic.Common
import Mathlib.Data.Int.Notation

/-! Ones' complement arithmetic on words of sixteen bits. A list of words verifies if its sum is
the negative zero; every list verifies once the complement of its sum is put into it. -/
namespace WgFrag.Lib.OnesComplement
open List

/-- Addition with an end-around carry. -/
def add (a b : ℕ) : ℕ := if a + b < 65536 then a + b else a + b - 65535

def sum : List ℕ → ℕ
  | [] => 0
  | w :: ws => add w (sum ws)

def Verifies (ws : List ℕ) : Prop := sum ws = 65535

def total : List ℕ → ℕ
  | [] => 0
  | w :: ws => w + total ws

/-- The sixteen bits that are left of a number once its carries are added. -/
def residue (n : ℕ) : ℕ := if n = 0 then 0 else (n - 1) % 65535 + 1

variable {n w : ℕ} {ws before after : List ℕ}

theorem residue_small (h : n ≤ 65535) : residue n = n := by
  unfold residue
  split <;> omega

theorem residue_fold (n : ℕ) : residue (n % 65536 + n / 65536) = residue n := by
  unfold residue
  split_ifs <;> omega

theorem add_residue (h : w ≤ 65535) : add w (residue n) = residue (w + n) := by
  unfold add residue
  split_ifs <;> omega

theorem sum_eq (h : ∀ w ∈ ws, w ≤ 65535) : sum ws = residue (total ws) := by
  induction ws with
  | nil => rfl
  | cons w _ ih =>
    rw [sum, ih fun v hv => h v (mem_cons_of_mem _ hv)]
    exact add_residue (h w mem_cons_self)

theorem total_append (before after : List ℕ) :
    total (before ++ after) = total before + total after := by
  induction before with
  | nil => exact (Nat.zero_add _).symm
  | cons w before ih =>
    show w + total (before ++ after) = w + total before + total after
    rw [ih, Nat.add_assoc]

theorem total_le (h : ∀ w ∈ ws, w ≤ 65535) : total ws ≤ 65535 * ws.length := by
  induction ws with
  | nil => exact Nat.le_refl 0
  | cons w _ ih =>
    have hw := h w mem_cons_self
    have hr := ih fun v hv => h v (mem_cons_of_mem _ hv)
    rw [total, length_cons]
    omega

theorem residue_complement (n : ℕ) : residue (n + (65535 - residue n)) = 65535 := by
  unfold residue
  split_ifs <;> omega

/-- The complement of the sum of the other words makes a list verify. -/
theorem verifies_complement (hb : ∀ v ∈ before, v ≤ 65535) (ha : ∀ v ∈ after, v ≤ 65535) :
    Verifies (before ++ (65535 - residue (total (before ++ after))) :: after) := by
  have hw : ∀ v ∈ before ++ (65535 - residue (total (before ++ after))) :: after, v ≤ 65535 := by
    intro v hv
    rcases mem_append.mp hv with hv | hv
    · exact hb v hv
    · rcases mem_cons.mp hv with rfl | hv
      · exact Nat.sub_le _ _
      · exact ha v hv
  have hs := residue_complement (total before + total after)
  unfold Verifies
  rw [sum_eq hw, total_append, total, total_append, Nat.add_left_comm, Nat.add_comm]
  exact hs

end WgFrag.Lib.OnesComplement
