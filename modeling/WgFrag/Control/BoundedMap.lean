import WgFrag.Control.Tombstones
import WgFrag.Lib.Sweep

/-! The tombstones refine a bounded map from keys to deadlines. -/
namespace WgFrag.Control
open WgFrag.Lib List
variable {K : Type} [DecidableEq K]

/-- What the owner of the tombstones asks for. -/
inductive SetCall (K : Type)
  | retain (key : K) (expires : Time)
  | prune (now : Time)

/-- For each key the latest deadline that was retained for it since it was last pruned. -/
abbrev Deadlines (K : Type) := AList fun _ : K => Time

namespace Deadlines

def retain (limit : ℕ) (m : Deadlines K) (key : K) (expires : Time) : Bool × Deadlines K :=
  match m.lookup key with
  | some latest => (true, m.insert key (max latest expires))
  | none => if m.keys.length = limit then (false, m) else (true, m.insert key expires)

def prune (m : Deadlines K) (now : Time) : Deadlines K :=
  sweep (fun _ expires => decide (expires ≤ now)) m

/-- `none` is the answer of a call that returns nothing. -/
def call (limit : ℕ) (m : Deadlines K) : SetCall K → Option Bool × Deadlines K
  | .retain key expires => ((m.retain limit key expires).map some id)
  | .prune now => (none, m.prune now)

def run (limit : ℕ) : Deadlines K → List (SetCall K) → List (Option Bool) × Deadlines K
  | m, [] => ([], m)
  | m, c :: calls =>
    let (answer, next) := m.call limit c
    (run limit next calls).map (answer :: ·) id

end Deadlines

namespace ExpirySet
variable {s t : ExpirySet K} {m : Deadlines K} {k : K}

def call (s : ExpirySet K) : SetCall K → Option Bool × ExpirySet K
  | .retain key expires => ((s.retain key expires).map some id)
  | .prune now => (none, s.prune now)

def run : ExpirySet K → List (SetCall K) → List (Option Bool) × ExpirySet K
  | s, [] => ([], s)
  | s, c :: calls =>
    let (answer, next) := s.call c
    (run next calls).map (answer :: ·) id

structure Refines (s : ExpirySet K) (m : Deadlines K) : Prop where
  wf : s.Wf
  lookup : ∀ k v, m.lookup k = some v ↔ s.Holds k v

omit [DecidableEq K] in
theorem Indexed.nodup (h : s.Indexed) : (s.entries.map fun e => e.key).Nodup := by
  rw [nodup_iff_injective_getElem]
  rintro ⟨p, hp⟩ ⟨q, hq⟩ heq
  rw [length_map] at hp hq
  have heq' : s.entries[p].key = s.entries[q].key := by simpa using heq
  have hi := (h _ q).mpr ⟨_, getElem?_eq_getElem hq, rfl⟩
  exact Fin.ext (h.position hi (getElem?_eq_getElem hp) heq')

theorem Refines.length (h : Refines s m) : m.keys.length = s.entries.length := by
  have hpm : m.keys.Perm (s.entries.map fun e => e.key) := by
    rw [perm_ext_iff_of_nodup m.keys_nodup h.wf.indexed.nodup]
    intro k
    rw [← AList.mem_keys, ← AList.lookup_isSome, Option.isSome_iff_exists, mem_map]
    constructor
    · rintro ⟨v, hv⟩
      exact ⟨_, (h.lookup k v).mp hv, rfl⟩
    · rintro ⟨⟨_, v⟩, he, rfl⟩
      exact ⟨v, (h.lookup _ v).mpr he⟩
  rw [hpm.length_eq, length_map]

theorem Refines.lookup_none (h : Refines s m) : m.lookup k = none ↔ s.index k = none := by
  rw [← Option.not_isSome_iff_eq_none, ← Option.not_isSome_iff_eq_none, not_iff_not]
  change _ ↔ s.contains k = true
  rw [contains_iff h.wf.indexed, Option.isSome_iff_exists]
  exact exists_congr (h.lookup k)

theorem Refines.full (h : Refines s m) : s.full = true ↔ m.keys.length = s.limit := by
  have hle := h.wf.bounded
  rw [h.length]
  show decide _ = true ↔ _
  rw [decide_eq_true_iff]
  omega

theorem Refines.insert {w : Time} (h : Refines s m) (ht : t.Wf) (ha : Assigned s t k w) :
    Refines t (m.insert k w) := by
  refine ⟨ht, fun k' v => ?_⟩
  rw [ha.holds, ← h.lookup]
  by_cases hk : k' = k
  · subst hk
    simp [eq_comm]
  · rw [AList.lookup_insert_ne hk]
    simp [hk]

theorem Refines.refused {v : Time} (h : Refines s m) (hl : m.lookup k = none)
    (hfu : m.keys.length = s.limit) : s.retain k v = (false, s) := by
  unfold ExpirySet.retain
  rw [h.lookup_none.mp hl]
  exact if_pos (h.full.mpr hfu)

/-- The set answers as the map does, and goes on refining it. -/
theorem Refines.retain (h : Refines s m) (key : K) (expires : Time) :
    (s.retain key expires).1 = (m.retain s.limit key expires).1 ∧
    (s.retain key expires).2.limit = s.limit ∧
    Refines (s.retain key expires).2 (m.retain s.limit key expires).2 := by
  unfold Deadlines.retain
  cases hl : m.lookup key with
  | some v =>
    obtain ⟨t, hr, ht, ha⟩ := h.wf.retain_old ((h.lookup key v).mp hl) expires
    rw [hr]
    exact ⟨rfl, ha.limit, h.insert ht ha⟩
  | none =>
    dsimp only
    by_cases hfu : m.keys.length = s.limit
    · rw [if_pos hfu, h.refused hl hfu]
      exact ⟨rfl, rfl, h⟩
    · have hrm := Bool.eq_false_iff.mpr (mt h.full.mp hfu)
      obtain ⟨t, hr, ht, ha⟩ := retain_insert h.wf (h.lookup_none.mp hl) hrm
      rw [if_neg hfu, hr]
      exact ⟨rfl, ha.limit, h.insert ht ha⟩

theorem Refines.prune (h : Refines s m) (now : Time) :
    (s.prune now).limit = s.limit ∧ Refines (s.prune now) (m.prune now) := by
  obtain ⟨hwf, hp⟩ := h.wf.prune now
  refine ⟨hp.limit, hwf, fun k v => ?_⟩
  unfold Deadlines.prune
  rw [lookup_sweep, h.lookup, hp.holds_iff, decide_eq_false_iff_not, not_le]

theorem Refines.call (h : Refines s m) (c : SetCall K) :
    (s.call c).1 = (m.call s.limit c).1 ∧ (s.call c).2.limit = s.limit ∧
    Refines (s.call c).2 (m.call s.limit c).2 := by
  cases c with
  | retain key expires =>
    obtain ⟨ha, hnx⟩ := h.retain key expires
    exact ⟨congrArg some ha, hnx⟩
  | prune now => exact ⟨rfl, h.prune now⟩

theorem Refines.run (h : Refines s m) (calls : List (SetCall K)) :
    (s.run calls).1 = (m.run s.limit calls).1 ∧ (s.run calls).2.limit = s.limit ∧
    Refines (s.run calls).2 (m.run s.limit calls).2 := by
  induction calls generalizing s m with
  | nil => exact ⟨rfl, rfl, h⟩
  | cons c calls ih =>
    obtain ⟨ha, hli, hnx⟩ := h.call c
    obtain ⟨ha', hl', hl⟩ := ih hnx
    rw [hli] at ha' hl' hl
    exact ⟨congrArg₂ List.cons ha ha', hl', hl⟩

omit [DecidableEq K] in
theorem Indexed.holds_iff_index {v : Time} (h : s.Indexed) :
    s.Holds k v ↔ ∃ i, s.index k = some i ∧ s.entries[i]? = some ⟨k, v⟩ := by
  rw [holds_iff]
  exact exists_congr fun i => ⟨fun hi => ⟨(h k i).mpr ⟨_, hi, rfl⟩, hi⟩, fun hi => hi.2⟩

theorem Refines.retain_eq_false {v : Time} (h : Refines s m) :
    (s.retain k v).1 = false ↔ m.lookup k = none ∧ m.keys.length = s.limit := by
  rw [(h.retain k v).1]
  unfold Deadlines.retain
  cases m.lookup k with
  | some latest => simp
  | none =>
    by_cases hfu : m.keys.length = s.limit
    · simp [hfu]
    · simp [hfu]

/-- From the empty set, any calls with any times. -/
theorem run_refines (limit : ℕ) (calls : List (SetCall K)) :
    let s := (run (empty limit) calls).2
    let m := (Deadlines.run limit ∅ calls).2
    (run (empty limit) calls).1 = (Deadlines.run limit ∅ calls).1 ∧
    (∀ k v, m.lookup k = some v ↔ ∃ i, s.index k = some i ∧ s.entries[i]? = some ⟨k, v⟩) ∧
    m.keys.length = s.entries.length ∧
    (∀ k v, (s.retain k v).1 = false ↔ m.lookup k = none ∧ m.keys.length = limit) ∧
    (∀ k v, (s.retain k v).1 = false → (s.retain k v).2 = s) ∧
    (∀ now k v, (s.prune now).Holds k v ↔ s.Holds k v ∧ now < v) ∧
    s.Indexed ∧ Heap.Ordered s.rank s.entries.length := by
  intro s m
  have hempty : Refines (empty limit : ExpirySet K) ∅ := ⟨empty_wf limit, fun k v => by
    simp [Holds, empty]⟩
  obtain ⟨hans, hlim, h⟩ := hempty.run calls
  have hidx : s.Indexed := h.wf.indexed
  refine ⟨hans, fun k v => ?_, h.length, fun k v => ?_, fun k v hf => ?_, fun now k v => ?_, hidx,
    h.wf.ordered⟩
  · exact (h.lookup k v).trans hidx.holds_iff_index
  · have hiff := h.retain_eq_false (k := k) (v := v)
    rw [hlim] at hiff
    exact hiff
  · obtain ⟨hl, hfull⟩ := h.retain_eq_false.mp hf
    rw [h.refused hl hfull]
  · exact (h.wf.prune now).2.holds_iff

end ExpirySet
end WgFrag.Control
