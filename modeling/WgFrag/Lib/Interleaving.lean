import Mathlib.Tactic.Common

/-! Threads that take turns on a shared state. A proof outline gives an invariant of the shared
state, an assertion for every place of a thread and what keeps two threads apart; the steps of one
thread must not interfere with the assertions of another. -/
namespace WgFrag.Lib
open List

/-- What an atomic step of a thread leaves: the shared state, its next place, the threads it
started. -/
structure Move (σ π : Type) where
  shared : σ
  next : π
  spawned : List π := []

/-- The atomic step of a thread, from its number, the shared state, its place and a choice of the
environment. A blocked thread has none. -/
abbrev Program (σ π ι : Type) := ℕ → σ → π → ι → Option (Move σ π)

structure Pool (σ π : Type) where
  shared : σ
  threads : List π

inductive Turn (π ι : Type) where
  | spawn (p : π)
  | act (i : ℕ) (choice : ι)

namespace Pool
variable {σ π ι : Type} (act : Program σ π ι)

def step (s : Pool σ π) : Turn π ι → Option (Pool σ π)
  | .spawn p => some { s with threads := s.threads ++ [p] }
  | .act i c =>
    match s.threads[i]? with
    | none => none
    | some p =>
      match act i s.shared p c with
      | none => none
      | some m => some ⟨m.shared, s.threads.set i m.next ++ m.spawned⟩

def run (s : Pool σ π) : List (Turn π ι) → Option (Pool σ π)
  | [] => some s
  | t :: ts =>
    match s.step act t with
    | none => none
    | some s' => s'.run ts

variable (entry : π → Prop) (may : σ → π → ι → π → Prop)

/-- New threads begin at an entry, and `may` allows the step beside every other thread. -/
def Admits (s : Pool σ π) : Turn π ι → Prop
  | .spawn p => entry p
  | .act i c => ∀ p ∈ s.threads[i]?, ∀ j < s.threads.length, j ≠ i →
    ∀ q ∈ s.threads[j]?, may s.shared p c q

def AdmitsRun (s : Pool σ π) : List (Turn π ι) → Prop
  | [] => True
  | t :: ts => s.Admits entry may t ∧ ∀ s' ∈ s.step act t, s'.AdmitsRun ts

instance decidableAdmits [DecidablePred entry] [∀ s p c q, Decidable (may s p c q)]
    (s : Pool σ π) : (t : Turn π ι) → Decidable (s.Admits entry may t)
  | .spawn p => inferInstanceAs (Decidable (entry p))
  | .act i c => inferInstanceAs (Decidable (∀ p ∈ s.threads[i]?, ∀ j < s.threads.length, j ≠ i →
    ∀ q ∈ s.threads[j]?, may s.shared p c q))

instance decidableAdmitsRun [DecidablePred entry] [∀ s p c q, Decidable (may s p c q)]
    (s : Pool σ π) : (ts : List (Turn π ι)) → Decidable (s.AdmitsRun act entry may ts)
  | [] => isTrue trivial
  | t :: ts =>
    let := fun s' : Pool σ π => decidableAdmitsRun s' ts
    inferInstanceAs (Decidable (s.Admits entry may t ∧
      ∀ s' ∈ s.step act t, s'.AdmitsRun act entry may ts))

variable {act} {s s' : Pool σ π}
variable {i : ℕ}

theorem step_act {c : ι} (h : s.step act (.act i c) = some s') :
    ∃ p m, s.threads[i]? = some p ∧ act i s.shared p c = some m ∧ s'.shared = m.shared ∧
      s'.threads = s.threads.set i m.next ++ m.spawned := by
  unfold step at h
  dsimp only at h
  split at h
  · cases h
  rename_i p hp
  split at h
  · cases h
  · next m hm =>
    cases h
    exact ⟨p, m, hp, hm, rfl, rfl⟩

theorem step_eq {c : ι} {p : π} (h : s.threads[i]? = some p) :
    s.step act (.act i c) = (act i s.shared p c).map fun m =>
      ⟨m.shared, s.threads.set i m.next ++ m.spawned⟩ := by
  unfold step
  dsimp only
  rw [h]
  dsimp only
  cases act i s.shared p c <;> rfl

/-- The threads after a turn of thread `i`: itself, another one as it was, or a new one. -/
theorem threads_cases {threads spawned : List π} {j : ℕ} {p q : π}
    (h : (threads.set i p ++ spawned)[j]? = some q) :
    (j = i ∧ i < threads.length ∧ q = p) ∨ (j ≠ i ∧ threads[j]? = some q) ∨
      (threads.length ≤ j ∧ q ∈ spawned) := by
  rcases Nat.lt_or_ge j threads.length with hlt | hge
  · rw [getElem?_append_left (by rw [length_set]; exact hlt)] at h
    by_cases hij : j = i
    · subst hij
      rw [getElem?_set_self hlt] at h
      exact .inl ⟨rfl, hlt, (Option.some.inj h).symm⟩
    · rw [getElem?_set_ne (Ne.symm hij)] at h
      exact .inr (.inl ⟨hij, h⟩)
  · rw [getElem?_append_right (by rw [length_set]; exact hge)] at h
    exact .inr (.inr ⟨hge, mem_of_getElem? h⟩)

theorem run_keeps {I : Pool σ π → Prop}
    (hst : ∀ s t s', s.Admits entry may t → s.step act t = some s' → I s → I s')
    {ts : List (Turn π ι)} (ha : s.AdmitsRun act entry may ts) (h : s.run act ts = some s')
    (hs : I s) : I s' := by
  induction ts generalizing s with
  | nil =>
    cases h
    exact hs
  | cons t ts ih =>
    unfold run at h
    split at h
    · cases h
    · next u hu => exact ih (ha.2 u hu) h (hst s t u ha.1 hu hs)

end Pool

variable {σ π ι : Type}

/-- An outline that the steps of the threads keep. `own i s p` is what thread `i` knows at `p`. -/
structure Outline (act : Program σ π ι) (entry : π → Prop) (may : σ → π → ι → π → Prop) where
  shared : σ → Prop
  own : ℕ → σ → π → Prop
  apart : π → π → Prop
  symm : ∀ {p q}, apart p q → apart q p
  entry_own : ∀ {i s p}, entry p → own i s p
  entry_apart : ∀ {p q}, entry p → apart p q
  step_shared : ∀ {i s p c m}, shared s → own i s p → act i s p c = some m → shared m.shared
  step_own : ∀ {i s p c m}, shared s → own i s p → act i s p c = some m → own i m.shared m.next
  step_other : ∀ {i j s p q c m}, shared s → own i s p → own j s q → i ≠ j → apart p q →
    may s p c q → act i s p c = some m → own j m.shared q
  step_apart : ∀ {i j s p q c m}, shared s → own i s p → own j s q → i ≠ j → apart p q →
    may s p c q → act i s p c = some m → apart m.next q
  spawned_own : ∀ {i j s p c m q}, shared s → own i s p → act i s p c = some m →
    q ∈ m.spawned → own j m.shared q
  spawned_apart : ∀ {i s p c m q r}, act i s p c = some m → q ∈ m.spawned → apart q r

namespace Outline
variable {act : Program σ π ι} {entry : π → Prop} {may : σ → π → ι → π → Prop}
  (O : Outline act entry may) {s s' : Pool σ π}

structure Holds (s : Pool σ π) : Prop where
  shared : O.shared s.shared
  own : ∀ {i : ℕ} {p}, s.threads[i]? = some p → O.own i s.shared p
  apart : ∀ {i j : ℕ} {p q}, i ≠ j → s.threads[i]? = some p → s.threads[j]? = some q → O.apart p q

variable {O}

theorem Holds.init {shared : σ} (h : O.shared shared) : O.Holds ⟨shared, []⟩ where
  shared := h
  own hp := by cases hp
  apart _ hp := by cases hp

theorem Holds.spawn (h : O.Holds s) {p : π} (hp : entry p) :
    O.Holds { s with threads := s.threads ++ [p] } := by
  have hc : ∀ {j : ℕ} {q}, (s.threads ++ [p])[j]? = some q → s.threads[j]? = some q ∨
      j = s.threads.length ∧ q = p := by
    intro j q hq
    rcases Nat.lt_or_ge j s.threads.length with hlt | hge
    · rw [getElem?_append_left hlt] at hq
      exact .inl hq
    rw [getElem?_append_right hge] at hq
    obtain ⟨hlt, heq⟩ := List.getElem?_eq_some_iff.mp hq
    rw [length_singleton] at hlt
    refine .inr ⟨by omega, ?_⟩
    rw [← heq, getElem_singleton]
  refine ⟨h.shared, fun {j q} hq => ?_, fun {j k q r} hne hq hr => ?_⟩
  · rcases hc hq with hq | ⟨-, rfl⟩
    · exact h.own hq
    · exact O.entry_own hp
  · rcases hc hq with hq | ⟨_, rfl⟩
    · rcases hc hr with hr | ⟨-, rfl⟩
      · exact h.apart hne hq hr
      · exact O.symm (O.entry_apart hp)
    · exact O.entry_apart hp

theorem Holds.turn (h : O.Holds s) {i : ℕ} {c : ι} (ha : s.Admits entry may (.act i c))
    (hst : s.step act (.act i c) = some s') : O.Holds s' := by
  obtain ⟨p, m, hp, hm, hs, ht⟩ := Pool.step_act hst
  have how := h.own hp
  have hma : ∀ {j : ℕ} {q}, j ≠ i → s.threads[j]? = some q → may s.shared p c q := by
    intro j q hne hq
    have hlt := (List.getElem?_eq_some_iff.mp hq).1
    exact ha p hp j hlt hne q hq
  refine ⟨?_, fun {j q} hq => ?_, fun {j k q r} hne hq hr => ?_⟩
  · rw [hs]
    exact O.step_shared h.shared how hm
  · rw [hs]
    rw [ht] at hq
    rcases Pool.threads_cases hq with ⟨rfl, -, rfl⟩ | ⟨hji, hq⟩ | ⟨-, hmem⟩
    · exact O.step_own h.shared how hm
    · exact O.step_other h.shared how (h.own hq) (Ne.symm hji) (h.apart (Ne.symm hji) hp hq)
        (hma hji hq) hm
    · exact O.spawned_own h.shared how hm hmem
  · rw [ht] at hq hr
    have ho : ∀ {j : ℕ} {q}, j ≠ i → s.threads[j]? = some q → O.apart m.next q := fun hji hq =>
      O.step_apart h.shared how (h.own hq) (Ne.symm hji) (h.apart (Ne.symm hji) hp hq)
        (hma hji hq) hm
    rcases Pool.threads_cases hq with ⟨rfl, -, rfl⟩ | ⟨hji, hold⟩ | ⟨-, hmem⟩
    · rcases Pool.threads_cases hr with ⟨hki, -, -⟩ | ⟨hki, hr⟩ | ⟨-, hmem⟩
      · exact absurd hki.symm hne
      · exact ho hki hr
      · exact O.symm (O.spawned_apart hm hmem)
    · rcases Pool.threads_cases hr with ⟨rfl, -, rfl⟩ | ⟨-, hr⟩ | ⟨-, hmem⟩
      · exact O.symm (ho hji hold)
      · exact h.apart hne hold hr
      · exact O.symm (O.spawned_apart hm hmem)
    · exact O.spawned_apart hm hmem

theorem Holds.step (h : O.Holds s) {t : Turn π ι} (ha : s.Admits entry may t)
    (hst : s.step act t = some s') : O.Holds s' := by
  cases t with
  | spawn =>
    cases hst
    exact h.spawn ha
  | act => exact h.turn ha hst

theorem Holds.run (h : O.Holds s) {ts : List (Turn π ι)}
    (had : s.AdmitsRun act entry may ts) (hrun : s.run act ts = some s') : O.Holds s' :=
  Pool.run_keeps entry may (fun _ _ _ ha hs hh => hh.step ha hs) had hrun h

end Outline
end WgFrag.Lib
