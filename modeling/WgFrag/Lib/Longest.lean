import Mathlib.Data.List.Infix
import Mathlib.Tactic.Common

/-! The longest prefix of a list that a table has a value for. -/
namespace WgFrag.Lib
open List

variable {α β : Type}

/-- The value at the longest prefix of the list that has one. -/
def longest (value : List α → Option β) : List α → Option β
  | [] => value []
  | a :: as => (longest (fun p => value (a :: p)) as).or (value [])

theorem longest_eq_none {value : List α → Option β} {as : List α} :
    longest value as = none ↔ ∀ p, p <+: as → value p = none := by
  induction as generalizing value with
  | nil => simp [longest]
  | cons a _ ih =>
    rw [longest, Option.or_eq_none_iff, ih]
    constructor
    · rintro ⟨hr, he⟩ _ hp
      rcases prefix_cons_iff.mp hp with rfl | ⟨q, rfl, hq⟩
      · exact he
      · exact hr q hq
    · intro h
      exact ⟨fun q hq => h (a :: q) (prefix_cons_iff.mpr (.inr ⟨q, rfl, hq⟩)),
        h [] nil_prefix⟩

theorem longest_eq_some {value : List α → Option β} {as : List α} {b : β} :
    longest value as = some b ↔ ∃ p, p <+: as ∧ value p = some b ∧
      ∀ q, q <+: as → (value q).isSome → q.length ≤ p.length := by
  induction as generalizing value with
  | nil => simp [longest]
  | cons a _ ih =>
    rw [longest, Option.or_eq_some_iff, ih, longest_eq_none]
    constructor
    · rintro (⟨p, hp, hv, hmax⟩ | ⟨hn, hv⟩)
      · refine ⟨a :: p, prefix_cons_iff.mpr (.inr ⟨p, rfl, hp⟩), hv, fun q hq hs => ?_⟩
        rcases prefix_cons_iff.mp hq with rfl | ⟨tail, rfl, ht⟩
        · exact Nat.zero_le _
        · exact Nat.succ_le_succ (hmax tail ht hs)
      · refine ⟨[], nil_prefix, hv, fun q hq hs => ?_⟩
        rcases prefix_cons_iff.mp hq with rfl | ⟨tail, rfl, ht⟩
        · exact Nat.le_refl _
        · rw [hn tail ht] at hs
          cases hs
    · rintro ⟨p, hp, hv, hmax⟩
      rcases prefix_cons_iff.mp hp with rfl | ⟨tail, rfl, ht⟩
      · refine .inr ⟨fun q hq => ?_, hv⟩
        cases hq' : value (a :: q) with
        | none => rfl
        | some =>
          have := hmax (a :: q) (prefix_cons_iff.mpr (.inr ⟨q, rfl, hq⟩)) (by simp [hq'])
          simp at this
      · refine .inl ⟨tail, ht, hv, fun q hq hs => ?_⟩
        have := hmax (a :: q) (prefix_cons_iff.mpr (.inr ⟨q, rfl, hq⟩)) hs
        simpa using this

end WgFrag.Lib
