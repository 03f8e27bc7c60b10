import Mathlib.Data.List.Nodup
import Mathlib.Data.List.Perm.Subperm
import Mathlib.Algebra.BigOperators.Group.Finset.Basic

/-! Open addressing with linear probing and backward-shift deletion. A table is a ring of
cells; every entry has a home cell, and no empty cell lies between the home and the entry. -/
namespace WgFrag.Lib.Probe
open List
variable {α : Type}

/-- The cell after `p` on a ring of `n` cells. -/
def next (n p : ℕ) : ℕ := if p + 1 < n then p + 1 else 0

/-- The steps from `a` forward to `b`. -/
def distance (n a b : ℕ) : ℕ := if a ≤ b then b - a else b + n - a

/-- Forward from `a`, the cell `b` comes before `c`. -/
abbrev Before (n a b c : ℕ) : Prop := distance n a b < distance n a c

/-- The first cell from `p` on whose entry satisfies `f`. An empty cell ends the search. -/
def search (t : List (Option α)) (f : α → Bool) : ℕ → ℕ → Option ℕ
  | 0, _ => none
  | k + 1, p =>
    match t[p]? with
    | some (some a) => if f a then some p else search t f k (next t.length p)
    | _ => none

/-- The first empty cell from `p` on. -/
def vacancy (t : List (Option α)) : ℕ → ℕ → Option ℕ
  | 0, _ => none
  | k + 1, p =>
    match t[p]? with
    | some none => some p
    | some (some _) => vacancy t k (next t.length p)
    | none => none

/-- Move later entries of the chain into the hole, as long as that brings them closer to home. -/
def backshift (home : α → ℕ) : ℕ → List (Option α) → ℕ → ℕ → List (Option α)
  | 0, t, _, _ => t
  | k + 1, t, hole, p =>
    match t[p]? with
    | some (some a) =>
      if Before t.length (home a) hole p then
        backshift home k ((t.set hole (some a)).set p none) p (next t.length p)
      else backshift home k t hole (next t.length p)
    | _ => t

/-- The same loop without a bound: started at the cell `p`, it stops with the table given. -/
inductive Shifts (home : α → ℕ) : List (Option α) → ℕ → ℕ → List (Option α) → Prop
  | stop {t : List (Option α)} {hole p : ℕ} : t[p]? = some none → Shifts home t hole p t
  | move {t t' : List (Option α)} {hole p : ℕ} (a : α) : t[p]? = some (some a) →
    Before t.length (home a) hole p →
    Shifts home ((t.set hole (some a)).set p none) p (next t.length p) t' →
    Shifts home t hole p t'
  | skip {t t' : List (Option α)} {hole p : ℕ} (a : α) : t[p]? = some (some a) →
    ¬ Before t.length (home a) hole p →
    Shifts home t hole (next t.length p) t' → Shifts home t hole p t'

def delete (home : α → ℕ) (t : List (Option α)) (p : ℕ) : List (Option α) :=
  backshift home t.length (t.set p none) p (next t.length p)

abbrev Holds (t : List (Option α)) (p : ℕ) (a : α) : Prop := t[p]? = some (some a)

/-- Entries are distinct, and no empty cell lies between an entry and its home. -/
structure Ok (home : α → ℕ) (t : List (Option α)) : Prop where
  bound : ∀ p a, Holds t p a → home a < t.length
  unique : ∀ p q a, Holds t p a → Holds t q a → p = q
  reach : ∀ p a, Holds t p a → ∀ q < t.length,
    Before t.length (home a) q p → ∃ b, Holds t q b

variable {home : α → ℕ} {t : List (Option α)} {f : α → Bool}
variable {p e q k hole : ℕ} {a : α}

theorem lt_of_holds {c : Option α} (h : t[p]? = some c) : p < t.length :=
  (List.getElem?_eq_some_iff.mp h).1

theorem ne_of_holds (he : t[e]? = some none) (ha : Holds t p a) : p ≠ e := by
  rintro rfl
  rw [Holds, he] at ha
  cases ha

theorem cell_cases (hp : p < t.length) : t[p]? = some none ∨ ∃ a, Holds t p a := by
  cases hc : t[p] with
  | none => exact .inl (List.getElem?_eq_some_iff.mpr ⟨hp, hc⟩)
  | some a => exact .inr ⟨a, List.getElem?_eq_some_iff.mpr ⟨hp, hc⟩⟩

theorem next_lt {n : ℕ} (h : p < n) : next n p < n := by
  unfold next
  split <;> omega

section Ring
variable {n a b c : ℕ} (ha : a < n) (hb : b < n) (hc : c < n)
include ha hb

theorem distance_lt : distance n a b < n := by
  unfold distance
  split_ifs <;> omega

omit hb in
theorem distance_pos (h : a ≠ b) : 0 < distance n a b := by
  unfold distance
  split_ifs <;> omega

/-- One step further from `a`, unless that would be all the way round. -/
theorem distance_next (h : distance n a b + 1 < n) :
    distance n a (next n b) = distance n a b + 1 := by
  unfold distance next at *
  split_ifs at * <;> omega

theorem distance_of_next (h : a ≠ b) : distance n a b = distance n (next n a) b + 1 := by
  unfold distance next
  split_ifs <;> omega

include hc

theorem distance_add (h : distance n a b ≤ distance n a c) :
    distance n a c = distance n a b + distance n b c := by
  unfold distance at *
  split_ifs at * <;> omega

omit hc in
theorem distance_add_of_lt (h : distance n a b + distance n b c < n) :
    distance n a c = distance n a b + distance n b c := by
  unfold distance at *
  split_ifs at * <;> omega

end Ring

theorem distance_self (n a : ℕ) : distance n a a = 0 := by simp [distance]

theorem search_sound (h : search t f k p = some q) : ∃ a, Holds t q a ∧ f a = true := by
  induction k generalizing p with
  | zero => cases h
  | succ k ih =>
    rw [search] at h
    split at h
    · rename_i a ha
      split_ifs at h with hf
      · cases h
        exact ⟨a, ha, hf⟩
      · exact ih h
    · cases h

/-- From any cell on the way from its home, an entry is found that alone satisfies `f`. -/
theorem search_from (hok : Ok home t) (ha : Holds t p a)
    (hf : f a = true) (huniq : ∀ q b, Holds t q b → f b = true → b = a) (hq : q < t.length)
    (hw : distance t.length (home a) q ≤ distance t.length (home a) p)
    (hk : distance t.length q p < k) : search t f k q = some p := by
  induction k generalizing q with
  | zero => omega
  | succ k ih =>
    have hp := lt_of_holds ha
    have hh := hok.bound p a ha
    by_cases hqp : q = p
    · subst hqp
      simp [search, ha, hf]
    have hs := distance_add hh hq hp hw
    have hpos := distance_pos hq hqp
    have hlt : Before t.length (home a) q p := by omega
    obtain ⟨b, hb⟩ := hok.reach p a ha q hq hlt
    have hfb : f b = false := by
      by_contra hfb
      rw [Bool.not_eq_false] at hfb
      obtain rfl := huniq q b hb hfb
      exact hqp (hok.unique q p b hb ha)
    have hmax := distance_lt hh hp
    have hst := distance_next hh hq (by omega)
    have hcl := distance_of_next hq hp hqp
    have hr : search t f k (next t.length q) = some p := by
      apply ih (next_lt hq)
      · omega
      · omega
    simp [search, hb, hfb, hr]

theorem search_home (hok : Ok home t) (ha : Holds t p a)
    (hf : f a = true) (huniq : ∀ q b, Holds t q b → f b = true → b = a) :
    search t f t.length (home a) = some p := by
  have hp := lt_of_holds ha
  have hh := hok.bound p a ha
  apply search_from hok ha hf huniq hh
  · rw [distance_self]
    exact Nat.zero_le _
  · exact distance_lt hh hp

/-! ### Insertion -/

/-- A table with an empty cell has a first one, and the cells before it are taken. -/
theorem vacancy_from (he : t[e]? = some none) (hp : p < t.length) (hq : q < t.length)
    (hbe : ∀ c < t.length, Before t.length p c q → ∃ b, Holds t c b)
    (hk : distance t.length q e < k) :
    ∃ v, vacancy t k q = some v ∧ t[v]? = some none ∧
      ∀ c < t.length, Before t.length p c v → ∃ b, Holds t c b := by
  induction k generalizing q with
  | zero => omega
  | succ k ih =>
    have hlt := lt_of_holds he
    rcases cell_cases hq with hc | ⟨b, hc⟩
    · exact ⟨q, by simp [vacancy, hc], hc, hbe⟩
    have hst : vacancy t (k + 1) q = vacancy t k (next t.length q) := by simp [vacancy, hc]
    rw [hst]
    apply ih (next_lt hq)
    · intro c hcl hd
      by_cases hcq : c = q
      · exact ⟨b, hcq ▸ hc⟩
      apply hbe c hcl
      have hmax := distance_lt hp hcl
      have hn : distance t.length p c ≠ distance t.length p q := fun heq => by
        have := distance_add hp hcl hq (Nat.le_of_eq heq)
        have := distance_pos hcl hcq
        omega
      by_cases hwrap : distance t.length p q + 1 < t.length
      · have := distance_next hp hq hwrap
        omega
      · have := distance_lt hp hq
        omega
    · have := distance_of_next hq hlt (ne_of_holds he hc)
      omega

theorem vacancy_home (he : t[e]? = some none) (hp : p < t.length) :
    ∃ v, vacancy t t.length p = some v ∧ t[v]? = some none ∧
      ∀ c < t.length, Before t.length p c v → ∃ b, Holds t c b := by
  have hlt := lt_of_holds he
  apply vacancy_from he hp hp
  · intro c _ hd
    have := distance_self t.length p
    omega
  · exact distance_lt hp hlt

theorem holds_set {c : Option α} {b : α} :
    Holds (t.set p c) q b ↔ (p = q ∧ p < t.length ∧ c = some b) ∨ (p ≠ q ∧ Holds t q b) := by
  unfold Holds
  by_cases h : p = q
  · subst h
    by_cases hp : p < t.length <;> simp [hp]
  · simp [h]

theorem insert_ok (hok : Ok home t) {v : ℕ} (hh : home a < t.length)
    (hv : t[v]? = some none) (hn : ∀ p, ¬ Holds t p a)
    (hbe : ∀ c < t.length, Before t.length (home a) c v → ∃ b, Holds t c b) :
    Ok home (t.set v (some a)) := by
  have hk : ∀ {q : ℕ}, (∃ b, Holds t q b) → ∃ b, Holds (t.set v (some a)) q b := by
    rintro q ⟨b, hb⟩
    exact ⟨b, holds_set.mpr (.inr ⟨(ne_of_holds hv hb).symm, hb⟩)⟩
  constructor
  · intro p b hb
    rw [length_set]
    rcases holds_set.mp hb with ⟨-, -, heq⟩ | ⟨-, hb⟩
    · cases heq
      exact hh
    · exact hok.bound p b hb
  · intro p q b hp hq
    rcases holds_set.mp hp with ⟨rfl, -, heq⟩ | ⟨-, hp⟩
    · cases heq
      rcases holds_set.mp hq with ⟨rfl, -⟩ | ⟨-, hq⟩
      · rfl
      · exact absurd hq (hn q)
    · rcases holds_set.mp hq with ⟨-, -, heq⟩ | ⟨-, hq⟩
      · cases heq
        exact absurd hp (hn p)
      · exact hok.unique p q b hp hq
  · intro p b hb q hq hd
    rw [length_set] at hq hd
    apply hk
    rcases holds_set.mp hb with ⟨rfl, -, heq⟩ | ⟨-, hb⟩
    · cases heq
      exact hbe q hq hd
    · exact hok.reach p b hb q hq hd

/-! ### Deletion -/

/-- While `p` moves away from the hole, the hole is the only empty cell that an entry may have
behind it, and then the entry is not yet passed. The empty cell `e` lies ahead. -/
structure Shifting (home : α → ℕ) (t : List (Option α)) (hole p e : ℕ) : Prop where
  bound : ∀ q a, Holds t q a → home a < t.length
  unique : ∀ q r a, Holds t q a → Holds t r a → q = r
  vacant : t[hole]? = some none
  stop : t[e]? = some none
  range : p < t.length
  ahead : 0 < distance t.length hole p ∧ distance t.length hole p ≤ distance t.length hole e
  reach : ∀ r a, Holds t r a → ∀ q < t.length, Before t.length (home a) q r →
    (∃ b, Holds t q b) ∨ (q = hole ∧ distance t.length hole p ≤ distance t.length hole r)

theorem Shifting.done (h : Shifting home t hole p e) (hp : t[p]? = some none) : Ok home t := by
  refine ⟨h.bound, h.unique, fun r a hr q hq hd => ?_⟩
  rcases h.reach r a hr q hq hd with hb | ⟨rfl, hpr⟩
  · exact hb
  -- the cell at `p` would lie between the hole and the entry
  have hne := (ne_of_holds hp hr).symm
  have hh := h.bound r a hr
  have hrl := lt_of_holds hr
  have hpl := h.range
  have hpos := h.ahead.1
  have hbe : Before t.length (home a) p r := by
    have h1 := distance_add hh hq hrl (Nat.le_of_lt hd)
    have h2 := distance_add hq hpl hrl hpr
    have h3 := distance_pos hpl hne
    have h4 := distance_lt hh hrl
    have h5 := distance_add_of_lt (c := p) hh hq (by omega)
    omega
  rcases h.reach r a hr p hpl hbe with ⟨_, hb⟩ | ⟨rfl, -⟩
  · exact absurd rfl (ne_of_holds hp hb)
  · rw [distance_self] at hpos
    omega

theorem holds_move {b : α} (hv : t[hole]? = some none) (hp : Holds t p a) :
    Holds ((t.set hole (some a)).set p none) q b ↔
      (q = hole ∧ b = a) ∨ (q ≠ hole ∧ q ≠ p ∧ Holds t q b) := by
  have hne := ne_of_holds hv hp
  rw [holds_set, holds_set]
  constructor
  · rintro (⟨-, -, hn⟩ | ⟨hpq, ⟨rfl, -, hb⟩ | ⟨hhq, hb⟩⟩)
    · cases hn
    · cases hb
      exact .inl ⟨rfl, rfl⟩
    · exact .inr ⟨Ne.symm hhq, Ne.symm hpq, hb⟩
  · rintro (⟨rfl, rfl⟩ | ⟨hqh, hqp, hb⟩)
    · exact .inr ⟨hne, .inl ⟨rfl, lt_of_holds hv, rfl⟩⟩
    · exact .inr ⟨Ne.symm hqp, .inr ⟨Ne.symm hqh, hb⟩⟩

/-- An entry that the hole brings closer to home moves into it and leaves a new hole. -/
theorem Shifting.move (h : Shifting home t hole p e) (hp : Holds t p a)
    (hd : Before t.length (home a) hole p) :
    Shifting home ((t.set hole (some a)).set p none) p (next t.length p) e := by
  have hh := lt_of_holds h.vacant
  have hpl := h.range
  have hel := lt_of_holds h.stop
  have hho := h.bound p a hp
  have hep := (ne_of_holds h.stop hp).symm
  have heh : e ≠ hole := by
    rintro rfl
    have hah := h.ahead
    rw [distance_self] at hah
    omega
  have hhl := fun {q b} => holds_move (q := q) (b := b) h.vacant hp
  have hlen : ((t.set hole (some a)).set p none).length = t.length := by simp
  constructor
  · intro q b hb
    rw [hlen]
    rcases hhl.mp hb with ⟨-, rfl⟩ | ⟨-, -, hb⟩
    · exact hho
    · exact h.bound q b hb
  · intro q r b hq hr
    rcases hhl.mp hq with ⟨hqh, hba⟩ | ⟨-, hqp, hq⟩
    · rcases hhl.mp hr with ⟨hrh, -⟩ | ⟨-, hrp, hr⟩
      · exact hqh.trans hrh.symm
      · exact absurd (h.unique r p a (hba ▸ hr) hp) hrp
    · rcases hhl.mp hr with ⟨-, hba⟩ | ⟨-, -, hr⟩
      · exact absurd (h.unique q p a (hba ▸ hq) hp) hqp
      · exact h.unique q r b hq hr
  · simp [hpl]
  · rw [getElem?_set_ne (Ne.symm hep), getElem?_set_ne (Ne.symm heh)]
    exact h.stop
  · rw [hlen]
    exact next_lt hpl
  · rw [hlen]
    have hpos := distance_pos hpl (Ne.symm hep)
    have hmax := distance_lt hpl hel
    rw [distance_next hpl hpl (by rw [distance_self]; omega), distance_self]
    omega
  · intro r b hr q hq hqr
    rw [hlen] at hq hqr ⊢
    rcases hhl.mp hr with ⟨rfl, rfl⟩ | ⟨_, hrp, hr⟩
    · -- the moved entry: its way is a part of the old one
      have hqp : q ≠ p := by
        rintro rfl
        omega
      have hqh : q ≠ r := by
        rintro rfl
        omega
      rcases h.reach p b hp q hq (by omega) with ⟨b', hb'⟩ | ⟨rfl, -⟩
      · exact .inl ⟨b', hhl.mpr (.inr ⟨hqh, hqp, hb'⟩)⟩
      · exact absurd rfl hqh
    · by_cases hqp : q = p
      · right
        refine ⟨hqp, ?_⟩
        have hrl := lt_of_holds hr
        have hpos := distance_pos hpl (Ne.symm hrp)
        have hmax := distance_lt hpl hrl
        rw [distance_next hpl hpl (by rw [distance_self]; omega), distance_self]
        omega
      · left
        by_cases hqh : q = hole
        · exact ⟨a, hhl.mpr (.inl ⟨hqh, rfl⟩)⟩
        · rcases h.reach r b hr q hq hqr with ⟨b', hb'⟩ | ⟨heq, -⟩
          · exact ⟨b', hhl.mpr (.inr ⟨hqh, hqp, hb'⟩)⟩
          · exact absurd heq hqh

/-- An entry whose way does not pass the hole stays. -/
theorem Shifting.skip (h : Shifting home t hole p e) (hp : Holds t p a)
    (hd : ¬ Before t.length (home a) hole p) : Shifting home t hole (next t.length p) e := by
  have hh := lt_of_holds h.vacant
  have hpl := h.range
  have hel := lt_of_holds h.stop
  have hep := (ne_of_holds h.stop hp).symm
  have hah := h.ahead
  have hs := distance_add hh hpl hel hah.2
  have hpos := distance_pos hpl (Ne.symm hep)
  have hmax := distance_lt hh hel
  have hnx := distance_next hh hpl (by omega)
  refine { h with range := next_lt hpl, ahead := ?_, reach := fun r b hr q hq hqr => ?_ }
  · rw [hnx]
    omega
  rcases h.reach r b hr q hq hqr with hb | ⟨rfl, hpr⟩
  · exact .inl hb
  right
  have hrp : r ≠ p := by
    rintro rfl
    obtain rfl : a = b := Option.some.inj (Option.mem_unique hp hr)
    exact hd hqr
  have hrl := lt_of_holds hr
  have hw := distance_add hq hpl hrl hpr
  have hre := distance_pos hpl (Ne.symm hrp)
  omega

/-- How far the entry of a cell lies from home. -/
def displacement (home : α → ℕ) (t : List (Option α)) (q : ℕ) : ℕ :=
  match t[q]? with
  | some (some a) => distance t.length (home a) q
  | _ => 0

theorem displacement_move (hv : t[hole]? = some none) (hp : Holds t p a)
    (q : ℕ) : displacement home ((t.set hole (some a)).set p none) q =
      if q = p then 0 else if q = hole then distance t.length (home a) hole
      else displacement home t q := by
  have hpl := lt_of_holds hp
  have hh := lt_of_holds hv
  unfold displacement
  rw [length_set, length_set]
  by_cases hqp : q = p
  · subst hqp
    simp [hpl]
  rw [getElem?_set_ne (Ne.symm hqp), if_neg hqp]
  by_cases hqh : q = hole
  · subst hqh
    simp [hh]
  · rw [getElem?_set_ne (Ne.symm hqh), if_neg hqh]

/-- Every move brings the entries closer to home, all together. -/
theorem sum_displacement_move (hv : t[hole]? = some none)
    (hp : Holds t p a) (hd : Before t.length (home a) hole p) :
    (Finset.range t.length).sum (displacement home ((t.set hole (some a)).set p none)) <
      (Finset.range t.length).sum (displacement home t) := by
  have hpl := lt_of_holds hp
  have hh := lt_of_holds hv
  have hne := (ne_of_holds hv hp).symm
  have hmem : hole ∈ (Finset.range t.length).erase p := by simp [hne, hh]
  have hr : (((Finset.range t.length).erase p).erase hole).sum
      (displacement home ((t.set hole (some a)).set p none)) =
      (((Finset.range t.length).erase p).erase hole).sum (displacement home t) := by
    apply Finset.sum_congr rfl
    intro q hq
    simp only [Finset.mem_erase] at hq
    rw [displacement_move hv hp, if_neg hq.2.1, if_neg hq.1]
  have hs : ∀ f : ℕ → ℕ, (Finset.range t.length).sum f =
      f p + (f hole + (((Finset.range t.length).erase p).erase hole).sum f) := by
    intro f
    rw [Finset.add_sum_erase _ _ hmem, Finset.add_sum_erase _ _ (Finset.mem_range.mpr hpl)]
  have hp' : displacement home t p = distance t.length (home a) p := by
    simp [displacement, show t[p]? = some (some a) from hp]
  have hv' : displacement home t hole = 0 := by simp [displacement, hv]
  rw [hs, hs (displacement home t), hr, displacement_move hv hp,
    displacement_move hv hp, if_pos rfl, if_neg hne, if_pos rfl, hp', hv']
  omega

/-- The loop stops from any table: a move brings entries closer to home, and without a move it
comes round to the hole. -/
theorem shifts_exists (hv : t[hole]? = some none) (hp : p < t.length) :
    ∃ t', Shifts home t hole p t' := by
  induction hn : (Finset.range t.length).sum (displacement home t) using Nat.strong_induction_on
    generalizing t hole p with
  | _ n ih =>
    induction hk : distance t.length p hole generalizing p with
    | zero =>
      have hph : p = hole := by
        by_contra hne
        have := distance_pos hp hne
        omega
      exact ⟨t, .stop (hph ▸ hv)⟩
    | succ k ihk =>
      have hne : p ≠ hole := by
        rintro rfl
        rw [distance_self] at hk
        omega
      have hcl := distance_of_next hp (lt_of_holds hv) hne
      rcases cell_cases hp with hc | ⟨a, hc⟩
      · exact ⟨t, .stop hc⟩
      by_cases hd : Before t.length (home a) hole p
      · have hlt := sum_displacement_move hv hc hd
        have hlen : ((t.set hole (some a)).set p none).length = t.length := by simp
        have hva : ((t.set hole (some a)).set p none)[p]? = some none := by simp [hp]
        obtain ⟨t', ht'⟩ := ih _ (by rw [hlen, ← hn]; exact hlt) hva
          (by rw [hlen]; exact next_lt hp) rfl
        exact ⟨t', .move a hc hd ht'⟩
      · obtain ⟨t', ht'⟩ := ihk (next_lt hp) (by omega)
        exact ⟨t', .skip a hc hd ht'⟩

/-- With an empty cell ahead, the bound is never met: the loop stops by itself. -/
theorem backshift_shifts (h : Shifting home t hole p e)
    (hk : distance t.length p e < k) : Shifts home t hole p (backshift home k t hole p) := by
  induction k generalizing t hole p with
  | zero => omega
  | succ k ih =>
    have hpl := h.range
    have hel := lt_of_holds h.stop
    rcases cell_cases hpl with hp | ⟨a, hp⟩
    · have hs : backshift home (k + 1) t hole p = t := by simp [backshift, hp]
      rw [hs]
      exact .stop hp
    have hcl := distance_of_next hpl hel (ne_of_holds h.stop hp)
    by_cases hd : Before t.length (home a) hole p
    · have hst : backshift home (k + 1) t hole p =
          backshift home k ((t.set hole (some a)).set p none) p (next t.length p) := by
        simp [backshift, hp, hd]
      have hlen : ((t.set hole (some a)).set p none).length = t.length := by simp
      rw [hst]
      exact .move a hp hd (ih (h.move hp hd) (by rw [hlen]; omega))
    · have hst : backshift home (k + 1) t hole p = backshift home k t hole (next t.length p) := by
        simp [backshift, hp, hd]
      rw [hst]
      exact .skip a hp hd (ih (h.skip hp hd) (by omega))

/-- The shift ends at an empty cell with a good table of the same entries. -/
theorem Shifts.spec {t' : List (Option α)} (hs : Shifts home t hole p t')
    (h : Shifting home t hole p e) : Ok home t' ∧ t'.length = t.length ∧
      ∀ a, (∃ q, Holds t' q a) ↔ ∃ q, Holds t q a := by
  induction hs with
  | stop hp => exact ⟨h.done hp, rfl, fun _ => Iff.rfl⟩
  | skip a hp hd _ ih => exact ih (h.skip hp hd)
  | @move t t' hole p a hp hd _ ih =>
    obtain ⟨hok, hlen, hmem⟩ := ih (h.move hp hd)
    refine ⟨hok, hlen.trans (by simp), fun b => (hmem b).trans ?_⟩
    constructor
    · rintro ⟨q, hq⟩
      rcases (holds_move h.vacant hp).mp hq with ⟨-, rfl⟩ | ⟨-, -, hq⟩
      · exact ⟨p, hp⟩
      · exact ⟨q, hq⟩
    · rintro ⟨q, hq⟩
      by_cases hqp : q = p
      · subst hqp
        obtain rfl : a = b := Option.some.inj (Option.mem_unique hp hq)
        exact ⟨hole, (holds_move h.vacant hp).mpr (.inl ⟨rfl, rfl⟩)⟩
      · exact ⟨q, (holds_move h.vacant hp).mpr (.inr ⟨ne_of_holds h.vacant hq, hqp, hq⟩)⟩

/-- A table with an empty cell, just after an entry was taken out. -/
theorem shifting_of_ok (hok : Ok home t) (ha : Holds t p a)
    (he : t[e]? = some none) : Shifting home (t.set p none) p (next t.length p) e ∧
      distance (t.set p none).length (next t.length p) e < t.length := by
  have hpl := lt_of_holds ha
  have hel := lt_of_holds he
  have hep := ne_of_holds he ha
  have hpos := distance_pos hpl hep
  have hnx : distance t.length p (next t.length p) = 1 := by
    rw [distance_next hpl hpl (by rw [distance_self]; omega), distance_self]
  constructor
  · constructor
    · intro q b hb
      rw [length_set]
      rcases holds_set.mp hb with ⟨-, -, hn⟩ | ⟨-, hb⟩
      · cases hn
      · exact hok.bound q b hb
    · intro q r b hq hr
      rcases holds_set.mp hq with ⟨-, -, hn⟩ | ⟨-, hq⟩
      · cases hn
      · rcases holds_set.mp hr with ⟨-, -, hn⟩ | ⟨-, hr⟩
        · cases hn
        · exact hok.unique q r b hq hr
    · simp [hpl]
    · rw [getElem?_set_ne hep]
      exact he
    · rw [length_set]
      exact next_lt hpl
    · rw [length_set, hnx]
      omega
    · intro r b hr q hq hd
      rw [length_set] at hq hd ⊢
      rcases holds_set.mp hr with ⟨-, -, hn⟩ | ⟨hpr, hr⟩
      · cases hn
      obtain ⟨b', hb'⟩ := hok.reach r b hr q hq hd
      by_cases hqp : p = q
      · have := distance_pos hpl hpr
        exact .inr ⟨hqp.symm, by omega⟩
      · exact .inl ⟨b', holds_set.mpr (.inr ⟨hqp, hb'⟩)⟩
  · rw [length_set]
    exact distance_lt (next_lt hpl) hel

theorem delete_shifts (hok : Ok home t) (ha : Holds t p a) (he : t[e]? = some none) :
    Shifts home (t.set p none) p (next t.length p) (delete home t p) := by
  obtain ⟨hs, hf⟩ := shifting_of_ok hok ha he
  exact backshift_shifts hs hf

theorem delete_spec (hok : Ok home t) (ha : Holds t p a) (he : t[e]? = some none) :
    Ok home (delete home t p) ∧ (delete home t p).length = t.length ∧
      ∀ b, (∃ q, Holds (delete home t p) q b) ↔ b ≠ a ∧ ∃ q, Holds t q b := by
  obtain ⟨hs, hf⟩ := shifting_of_ok hok ha he
  obtain ⟨hgood, hlen, hmem⟩ := (backshift_shifts hs hf).spec hs
  rw [length_set] at hlen
  refine ⟨hgood, hlen, fun b => (hmem b).trans ?_⟩
  constructor
  · rintro ⟨q, hq⟩
    rcases holds_set.mp hq with ⟨-, -, hn⟩ | ⟨hpq, hq⟩
    · cases hn
    · refine ⟨?_, q, hq⟩
      rintro rfl
      exact hpq (hok.unique p q b ha hq)
  · rintro ⟨hba, q, hq⟩
    refine ⟨q, holds_set.mpr (.inr ⟨?_, hq⟩)⟩
    rintro rfl
    exact hba (Option.some.inj (Option.mem_unique hq ha))

/-- Fewer distinct entries than cells leave a cell empty. -/
theorem exists_empty (hok : Ok home t) {values : List α} (hs : ∀ p a, Holds t p a → a ∈ values)
    (hlen : values.length < t.length) : ∃ e : ℕ, t[e]? = some none := by
  by_contra hfu
  have hal : ∀ p < t.length, ∃ a, Holds t p a := by
    intro p hp
    exact (cell_cases hp).resolve_left fun hc => hfu ⟨p, hc⟩
  have hnd : t.Nodup := by
    rw [nodup_iff_getElem?_ne_getElem?]
    intro i j hij hj heq
    obtain ⟨a, ha⟩ := hal j hj
    have hsm := hok.unique i j a (heq.trans ha) ha
    omega
  have hv : t ⊆ values.map some := by
    intro c hc
    obtain ⟨p, hp⟩ := mem_iff_getElem?.mp hc
    obtain ⟨a, ha⟩ := hal p (lt_of_holds hp)
    obtain rfl : some a = c := Option.mem_unique ha hp
    exact mem_map_of_mem (hs p a ha)
  have hle := (hnd.subperm hv).length_le
  rw [length_map] at hle
  omega

end WgFrag.Lib.Probe
