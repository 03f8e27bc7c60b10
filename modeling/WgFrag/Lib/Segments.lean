import Mathlib.Tactic.Common
import Mathlib.Data.Int.Notation

/-! Lists that are cut into pieces of one size, the last of which may be shorter. -/
namespace WgFrag.Lib.Segments
open List

variable {α : Type} {size n : ℕ} {l : List α}

/-- The first pieces of a list. -/
def pieces (size : ℕ) : ℕ → List α → List (List α)
  | 0, _ => []
  | n + 1, l => l.take size :: pieces size n (l.drop size)

/-- The size zero stands for a list that is not cut. -/
def cut (size : ℕ) (l : List α) : List (List α) :=
  if size = 0 then [l] else pieces size ((l.length + size - 1) / size) l

theorem pieces_length (size n : ℕ) (l : List α) : (pieces size n l).length = n := by
  induction n generalizing l with
  | zero => rfl
  | succ _ ih =>
    rw [pieces, length_cons, ih]

theorem cut_ne_nil (h : l ≠ []) : cut size l ≠ [] := by
  have hpos := length_pos_iff.mpr h
  unfold cut
  split
  · exact cons_ne_nil _ _
  · have hc : 0 < (l.length + size - 1) / size := Nat.div_pos (by omega) (by omega)
    rw [← length_pos_iff, pieces_length]
    exact hc

theorem cut_whole (h : l ≠ []) (hsz : l.length ≤ size) : cut size l = [l] := by
  have hpos := length_pos_iff.mpr h
  have hc : (l.length + size - 1) / size = 1 := by
    rw [Nat.div_eq_iff (by omega)]
    omega
  unfold cut
  rw [if_neg (by omega), hc, pieces, pieces, take_of_length_le hsz]

theorem cut_append {piece : List α} (hp : piece.length = size) (hpos : 0 < size) :
    cut size (piece ++ l) = piece :: cut size l := by
  have hc : ((piece ++ l).length + size - 1) / size = (l.length + size - 1) / size + 1 := by
    rw [← Nat.add_div_right _ hpos, length_append]
    congr 1
    omega
  unfold cut
  rw [if_neg (by omega), if_neg (by omega), hc, pieces, take_left' hp,
    drop_left' hp]

/-- Pieces of one size with a shorter last one are found again when they are joined and cut. -/
theorem cut_flatten {ls : List (List α)} {last : List α} (hpos : 0 < size)
    (hfu : ∀ piece ∈ ls, piece.length = size) (hne : last ≠ []) (hl : last.length ≤ size) :
    cut size (ls ++ [last]).flatten = ls ++ [last] := by
  induction ls with
  | nil =>
    rw [nil_append, flatten_singleton]
    exact cut_whole hne hl
  | cons piece _ ih =>
    rw [cons_append, flatten_cons, cut_append (hfu piece mem_cons_self) hpos,
      ih fun p hp => hfu p (mem_cons_of_mem _ hp)]

end WgFrag.Lib.Segments
