import Mathlib

/-! The order of a binary heap on the positions below `n`, and how sifting restores it. The rank of
the entry at each position is given by a function. -/
namespace WgFrag.Lib.Heap
variable {β : Type} [LinearOrder β] {rank : ℕ → β} {n : ℕ}
variable {hole : ℕ}

def parent (i : ℕ) : ℕ := (i - 1) / 2

theorem parent_lt {i : ℕ} (h : 0 < i) : parent i < i := by
  unfold parent
  omega

/-- No entry ranks below the one above it. -/
def Ordered (rank : ℕ → β) (n : ℕ) : Prop := ∀ i, 0 < i → i < n → rank (parent i) ≤ rank i

theorem Ordered.root_le (h : Ordered rank n) {i : ℕ} (hi : i < n) : rank 0 ≤ rank i := by
  induction i using Nat.strongRecOn with
  | ind i ih =>
    rcases Nat.eq_zero_or_pos i with rfl | hpos
    · exact le_rfl
    · have hlt := parent_lt hpos
      exact (ih _ hlt (by omega)).trans (h i hpos hi)

omit [LinearOrder β] in
theorem comp_swap (rank : ℕ → β) (a b : ℕ) : (rank ∘ Equiv.swap a b) a = rank b ∧
    (rank ∘ Equiv.swap a b) b = rank a ∧
    ∀ i, i ≠ a → i ≠ b → (rank ∘ Equiv.swap a b) i = rank i :=
  ⟨congrArg rank (Equiv.swap_apply_left ..), congrArg rank (Equiv.swap_apply_right ..),
    fun _ h1 h2 => congrArg rank (Equiv.swap_apply_of_ne_of_ne h1 h2)⟩

/-! ### Sifting up -/

/-- Only the entry at `hole` may rank below the one above it. -/
structure Rising (rank : ℕ → β) (n hole : ℕ) : Prop where
  others : ∀ i, 0 < i → i < n → i ≠ hole → rank (parent i) ≤ rank i
  below : 0 < hole → ∀ i, 0 < i → i < n → parent i = hole → rank (parent hole) ≤ rank i

theorem Ordered.rising (h : Ordered rank n) (hh : hole < n) : Rising rank n hole := by
  refine ⟨fun i hpos hi _ => h i hpos hi, fun hpos i hi0 hi hpi => ?_⟩
  have hold := h i hi0 hi
  rw [hpi] at hold
  exact (h hole hpos hh).trans hold

theorem Rising.stop (h : Rising rank n hole)
    (hs : 0 < hole → rank (parent hole) ≤ rank hole) : Ordered rank n := by
  intro i hpos hi
  by_cases heq : i = hole
  · subst heq
    exact hs hpos
  · exact h.others i hpos hi heq

theorem Rising.swap (h : Rising rank n hole) (hpos : 0 < hole) (hlt : hole < n)
    (hls : rank hole < rank (parent hole)) :
    Rising (rank ∘ Equiv.swap hole (parent hole)) n (parent hole) := by
  have hup := parent_lt hpos
  obtain ⟨hh, hp, hat⟩ := comp_swap rank hole (parent hole)
  constructor
  · intro i hi0 hi hne
    by_cases hih : i = hole
    · subst hih
      rw [hh, hp]
      exact hls.le
    · rw [hat i hih hne]
      by_cases hph : parent i = hole
      · rw [hph, hh]
        exact h.below hpos i hi0 hi hph
      have hold := h.others i hi0 hi hih
      by_cases hpp : parent i = parent hole
      · rw [hpp] at hold ⊢
        rw [hp]
        exact hls.le.trans hold
      · rw [hat _ hph hpp]
        exact hold
  · intro hpos' i hi0 hi hpi
    have hup' := parent_lt hpos'
    have ha := h.others (parent hole) hpos' (by omega) (by omega)
    rw [hat (parent (parent hole)) (by omega) (by omega)]
    by_cases hih : i = hole
    · subst hih
      rw [hh]
      exact ha
    · have hlt' := parent_lt hi0
      rw [hat i hih (by omega)]
      have hold := h.others i hi0 hi hih
      rw [hpi] at hold
      exact ha.trans hold

/-! ### Sifting down -/

/-- Only the entries below `hole` may rank below the one at `hole`. -/
structure Sinking (rank : ℕ → β) (n hole : ℕ) : Prop where
  others : ∀ i, 0 < i → i < n → parent i ≠ hole → rank (parent i) ≤ rank i
  below : 0 < hole → ∀ i, 0 < i → i < n → parent i = hole → rank (parent hole) ≤ rank i

theorem Sinking.stop (h : Sinking rank n hole)
    (hs : ∀ i, 0 < i → i < n → parent i = hole → rank hole ≤ rank i) : Ordered rank n := by
  intro i hpos hi
  by_cases heq : parent i = hole
  · rw [heq]
    exact hs i hpos hi heq
  · exact h.others i hpos hi heq

theorem Sinking.swap {child : ℕ} (h : Sinking rank n hole) (hpos : 0 < child)
    (hlt : child < n) (hp : parent child = hole) (hls : rank child < rank hole)
    (hl : ∀ i, 0 < i → i < n → parent i = hole → rank child ≤ rank i) :
    Sinking (rank ∘ Equiv.swap hole child) n child := by
  have hup := parent_lt hpos
  obtain ⟨hh, hc, hat⟩ := comp_swap rank hole child
  constructor
  · intro i hi0 hi hne
    have hpi := parent_lt hi0
    by_cases hic : i = child
    · subst hic
      rw [hp, hh, hc]
      exact hls.le
    · by_cases hih : i = hole
      · subst hih
        rw [hh, hat (parent i) (by omega) hne]
        exact h.below hi0 child hpos hlt hp
      · rw [hat i hih hic]
        by_cases hph : parent i = hole
        · rw [hph, hh]
          exact hl i hi0 hi hph
        · rw [hat _ hph hne]
          exact h.others i hi0 hi hph
  · intro _ i hi0 hi hpi
    have hlt' := parent_lt hi0
    rw [hp, hh, hat i (by omega) (by omega)]
    have hold := h.others i hi0 hi (by omega)
    rw [hpi] at hold
    exact hold

/-- A larger rank at one position leaves only that position to sink. -/
theorem Ordered.sinking {rank' : ℕ → β} (h : Ordered rank n) (hh : hole < n)
    (hr : rank hole ≤ rank' hole) (heq : ∀ i, i ≠ hole → rank' i = rank i) :
    Sinking rank' n hole := by
  constructor
  · intro i hpos hi hne
    rw [heq _ hne]
    by_cases hih : i = hole
    · subst hih
      exact (h i hpos hi).trans hr
    · rw [heq i hih]
      exact h i hpos hi
  · intro hpos i hi0 hi hpi
    have hlt := parent_lt hpos
    have hlt' := parent_lt hi0
    have ha := h hole hpos hh
    have hold := h i hi0 hi
    rw [hpi] at hold
    rw [heq (parent hole) (by omega), heq i (by omega)]
    exact ha.trans hold

end WgFrag.Lib.Heap
