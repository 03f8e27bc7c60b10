import Mathlib.Data.List.AList

/-! Deleting from a finite map every entry that meets a condition. -/
namespace WgFrag.Lib
variable {α β : Type}

def sweep (p : α → β → Bool) (m : AList fun _ : α => β) : AList fun _ : α => β where
  entries := m.entries.filter fun e => !p e.1 e.2
  nodupKeys := m.nodupKeys.sublist List.filter_sublist

theorem lookup_sweep [DecidableEq α] {p : α → β → Bool} {m : AList fun _ : α => β} {a : α} {b : β} :
    (sweep p m).lookup a = some b ↔ m.lookup a = some b ∧ p a b = false := by
  have hmem := AList.mem_lookup_iff (a := a) (b := b) (s := sweep p m)
  have hmem' := AList.mem_lookup_iff (a := a) (b := b) (s := m)
  rw [Option.mem_def] at hmem hmem'
  rw [hmem, hmem']
  show _ ∈ m.entries.filter _ ↔ _
  rw [List.mem_filter, Bool.not_eq_true']

theorem sweep_length_le (p : α → β → Bool) (m : AList fun _ : α => β) :
    (sweep p m).entries.length ≤ m.entries.length := List.length_filter_le ..

end WgFrag.Lib
