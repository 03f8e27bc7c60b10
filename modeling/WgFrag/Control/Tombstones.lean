import WgFrag.Lib.Heap
import WgFrag.Control.Expiry
import Mathlib.Algebra.Order.Ring.Int
import Mathlib.Data.List.Perm.Basic

/-! The tombstones are a finite map from keys to deadlines: the heap order and the position index
are kept by every operation, `retain` adds or extends one entry, and `prune` removes exactly the
expired ones. -/
namespace WgFrag.Control.ExpirySet
open WgFrag.Lib List
variable {K : Type} {s t : ExpirySet K} {i j : ℕ} {k : K} {u : Time}
variable {r l e : ExpiryEntry K} {fuel : ℕ}

def rank (s : ExpirySet K) (i : ℕ) : Time := ((s.entries[i]?).map (·.expires)).getD 0

/-- Every key has the position of its only entry. -/
def Indexed (s : ExpirySet K) : Prop :=
  ∀ k i, s.index k = some i ↔ ∃ e, s.entries[i]? = some e ∧ e.key = k

structure Wf (s : ExpirySet K) : Prop where
  indexed : s.Indexed
  ordered : Heap.Ordered s.rank s.entries.length
  bounded : s.entries.length ≤ s.limit

theorem empty_wf (limit : ℕ) : (empty limit : ExpirySet K).Wf := by
  refine ⟨fun k i => ⟨nofun, fun h => ?_⟩, fun i _ hi => absurd hi (Nat.not_lt_zero _),
    Nat.zero_le _⟩
  obtain ⟨_, he, -⟩ := h
  cases he

theorem rank_eq (h : s.entries[i]? = some e) : s.rank i = e.expires := by
  unfold rank
  rw [h]
  rfl

theorem before_iff (hi : i < s.entries.length) (hj : j < s.entries.length) :
    s.before i j = true ↔ s.rank i < s.rank j := by
  have hi' := getElem?_eq_getElem hi
  have hj' := getElem?_eq_getElem hj
  rw [rank_eq hi', rank_eq hj']
  unfold before
  rw [hi', hj']
  exact decide_eq_true_iff

/-- The same entries in another order, with the index kept. -/
structure Shuffle (s t : ExpirySet K) : Prop where
  perm : t.entries.Perm s.entries
  limit : t.limit = s.limit
  indexed : s.Indexed → t.Indexed

theorem Shuffle.refl (s : ExpirySet K) : Shuffle s s := ⟨.refl _, rfl, id⟩

theorem Shuffle.trans {r : ExpirySet K} (h : Shuffle s t) (h' : Shuffle t r) : Shuffle s r :=
  ⟨h'.perm.trans h.perm, h'.limit.trans h.limit, fun hs => h'.indexed (h.indexed hs)⟩

theorem Shuffle.length (h : Shuffle s t) : t.entries.length = s.entries.length := h.perm.length_eq

/-- The child that `siftDown` compares with its parent. -/
def smallest (s : ExpirySet K) (i : ℕ) : ℕ :=
  if i * 2 + 1 + 1 < s.entries.length ∧ s.before (i * 2 + 1 + 1) (i * 2 + 1) then i * 2 + 1 + 1
  else i * 2 + 1

theorem smallest_child (hl : i * 2 + 1 < s.entries.length) :
    i < s.smallest i ∧ s.smallest i < s.entries.length ∧ Heap.parent (s.smallest i) = i := by
  unfold smallest Heap.parent
  split_ifs with h
  · exact ⟨by omega, h.1, by omega⟩
  · exact ⟨by omega, hl, by omega⟩

theorem smallest_least (hl : i * 2 + 1 < s.entries.length) (hpos : 0 < j)
    (hj : j < s.entries.length) (hp : Heap.parent j = i) : s.rank (s.smallest i) ≤ s.rank j := by
  have hc : j = i * 2 + 1 ∨ j = i * 2 + 1 + 1 := by
    unfold Heap.parent at hp
    omega
  unfold smallest
  split_ifs with h
  · have hlt := (before_iff h.1 hl).mp h.2
    rcases hc with rfl | rfl
    · exact hlt.le
    · exact le_rfl
  · rcases hc with rfl | rfl
    · exact le_rfl
    · have hn : ¬ s.before (i * 2 + 1 + 1) (i * 2 + 1) = true := fun hb => h ⟨hj, hb⟩
      rw [before_iff hj hl] at hn
      exact not_lt.mp hn

/-! ### Contents -/

/-- The key is retired until the deadline. -/
def Holds (s : ExpirySet K) (k : K) (u : Time) : Prop := ⟨k, u⟩ ∈ s.entries

theorem holds_iff : s.Holds k u ↔ ∃ p : ℕ, s.entries[p]? = some ⟨k, u⟩ := mem_iff_getElem?

theorem contains_iff (h : s.Indexed) : s.contains k = true ↔ ∃ u, s.Holds k u := by
  unfold contains
  rw [Option.isSome_iff_exists]
  constructor
  · rintro ⟨i, hi⟩
    obtain ⟨⟨_, u⟩, he, rfl⟩ := (h k i).mp hi
    exact ⟨u, holds_iff.mpr ⟨i, he⟩⟩
  · rintro ⟨_, hu⟩
    obtain ⟨i, hi⟩ := holds_iff.mp hu
    exact ⟨i, (h k i).mpr ⟨_, hi, rfl⟩⟩

theorem Indexed.position {p : ℕ} (h : s.Indexed) (hi : s.index k = some i)
    (hp : s.entries[p]? = some e) (hk : e.key = k) : p = i :=
  Option.some.inj (((h k p).mpr ⟨e, hp, hk⟩).symm.trans hi)

theorem Indexed.unique {v w : Time} (h : s.Indexed) (hv : s.Holds k v) (hw : s.Holds k w) :
    v = w := by
  obtain ⟨p, hp⟩ := holds_iff.mp hv
  obtain ⟨q, hq⟩ := holds_iff.mp hw
  obtain rfl : p = q := h.position ((h k q).mpr ⟨_, hq, rfl⟩) hp rfl
  cases hp.symm.trans hq
  rfl

theorem Indexed.lt (h : s.Indexed) (hi : s.index k = some i) : i < s.entries.length := by
  obtain ⟨_, he, -⟩ := (h k i).mp hi
  exact lt_of_get he

/-- One entry was added or got a later deadline, and nothing was lost. -/
structure Retained (s t : ExpirySet K) (k : K) (u : Time) : Prop where
  limit : t.limit = s.limit
  added : ∃ u', u ≤ u' ∧ t.Holds k u'
  kept : ∀ k' v, s.Holds k' v → ∃ v', v ≤ v' ∧ t.Holds k' v'
  only : ∀ k' v, t.Holds k' v → k' = k ∧ u ≤ v ∨ s.Holds k' v

/-- The key is retired until `w`, and nothing else has changed. -/
structure Assigned (s t : ExpirySet K) (k : K) (w : Time) : Prop where
  limit : t.limit = s.limit
  holds : ∀ k' v, t.Holds k' v ↔ k' = k ∧ v = w ∨ k' ≠ k ∧ s.Holds k' v

theorem Assigned.retained {w : Time} (h : Assigned s t k w) (hu : u ≤ w)
    (hle : ∀ v, s.Holds k v → v ≤ w) : Retained s t k u := by
  refine ⟨h.limit, ⟨w, hu, (h.holds k w).mpr (.inl ⟨rfl, rfl⟩)⟩, fun k' v hv => ?_, fun k' v hv => ?_⟩
  · by_cases hk : k' = k
    · subst hk
      exact ⟨w, hle v hv, (h.holds k' w).mpr (.inl ⟨rfl, rfl⟩)⟩
    · exact ⟨v, le_rfl, (h.holds k' v).mpr (.inr ⟨hk, hv⟩)⟩
  · rcases (h.holds k' v).mp hv with ⟨hk, rfl⟩ | ⟨-, hold⟩
    · exact .inl ⟨hk, hu⟩
    · exact .inr hold

theorem Assigned.shuffle {r : ExpirySet K} {w : Time} (h : Assigned s t k w) (h' : Shuffle t r) :
    Assigned s r k w :=
  ⟨h'.limit.trans h.limit, fun k' v => (h'.perm.mem_iff).trans (h.holds k' v)⟩

def raise (s : ExpirySet K) (i : ℕ) (k : K) (u : Time) : ExpirySet K :=
  { s with entries := s.entries.set i ⟨k, u⟩ }

section Raise
variable {e : ExpiryEntry K} (h : s.Indexed) (he : s.entries[i]? = some e) (hkey : e.key = k)

theorem raise_at (hi : i < s.entries.length) : (s.raise i k u).entries[i]? = some ⟨k, u⟩ :=
  getElem?_set_self hi

theorem raise_other {p : ℕ} (hne : p ≠ i) : (s.raise i k u).entries[p]? = s.entries[p]? :=
  getElem?_set_ne (Ne.symm hne)

theorem raise_length : (s.raise i k u).entries.length = s.entries.length := length_set

include h he hkey

theorem raise_indexed : (s.raise i k u).Indexed := by
  have hi := lt_of_get he
  intro k' p
  refine (h k' p).trans ?_
  by_cases hp : p = i
  · subst hp
    rw [raise_at hi, he]
    constructor
    · rintro ⟨_, ⟨⟩, hk'⟩
      exact ⟨_, rfl, hkey.symm.trans hk'⟩
    · rintro ⟨_, ⟨⟩, hk'⟩
      exact ⟨_, rfl, hkey.trans hk'⟩
  · rw [raise_other hp]

theorem raise_assigned : Assigned s (s.raise i k u) k u := by
  have hi := lt_of_get he
  refine ⟨rfl, fun k' v => ?_⟩
  constructor
  · intro hv
    obtain ⟨p, hp⟩ := holds_iff.mp hv
    by_cases hpi : p = i
    · subst hpi
      cases Option.mem_unique (raise_at hi) hp
      exact .inl ⟨rfl, rfl⟩
    · rw [raise_other hpi] at hp
      refine .inr ⟨?_, holds_iff.mpr ⟨p, hp⟩⟩
      rintro rfl
      exact hpi (h.position ((h _ i).mpr ⟨e, he, hkey⟩) hp rfl)
  · rintro (⟨rfl, rfl⟩ | ⟨hne, hv⟩)
    · exact holds_iff.mpr ⟨i, raise_at hi⟩
    · obtain ⟨p, hp⟩ := holds_iff.mp hv
      refine holds_iff.mpr ⟨p, (raise_other ?_).trans hp⟩
      rintro rfl
      rw [Option.mem_unique he hp] at hkey
      exact hne hkey

end Raise

/-- Exactly the entries that expire after `now` are left. -/
structure Pruned (now : Time) (s t : ExpirySet K) : Prop where
  limit : t.limit = s.limit
  perm : t.entries.Perm (s.entries.filter fun e => decide (now < e.expires))

theorem Pruned.holds_iff {now : Time} (h : Pruned now s t) :
    t.Holds k u ↔ s.Holds k u ∧ now < u := by
  unfold Holds
  rw [h.perm.mem_iff, mem_filter, decide_eq_true_iff]

/-! ### Swaps -/

variable [DecidableEq K]

theorem swap_eq (hi : s.entries[i]? = some l) (hj : s.entries[j]? = some r) :
    s.swap i j = ({ s with entries := (s.entries.set i r).set j l }.setIndex r.key (some i)).setIndex
      l.key (some j) := by
  unfold swap
  rw [hi, hj]

private theorem swap_entry (hi : s.entries[i]? = some l) (hj : s.entries[j]? = some r) (m : ℕ) :
    (s.swap i j).entries[m]? = s.entries[Equiv.swap i j m]? := by
  have hil := lt_of_get hi
  have hjl := lt_of_get hj
  rw [swap_eq hi hj, Equiv.swap_apply_def]
  show ((s.entries.set i r).set j l)[m]? = _
  rw [getElem?_set, getElem?_set, length_set]
  by_cases hjm : j = m
  · subst hjm
    rw [if_pos rfl, if_pos hjl]
    by_cases hji : j = i
    · rw [if_pos hji, hji, hi]
    · rw [if_neg hji, if_pos rfl, hi]
  · rw [if_neg hjm]
    by_cases him : i = m
    · subst him
      rw [if_pos rfl, if_pos hil, if_pos rfl]
      exact hj.symm
    · rw [if_neg him, if_neg (Ne.symm him), if_neg (Ne.symm hjm)]

private theorem swap_index (h : s.Indexed) (hi : s.entries[i]? = some l)
    (hj : s.entries[j]? = some r) (k : K) (m : ℕ) :
    (s.swap i j).index k = some m ↔ s.index k = some (Equiv.swap i j m) := by
  have hl := (h l.key i).mpr ⟨l, hi, rfl⟩
  have hr := (h r.key j).mpr ⟨r, hj, rfl⟩
  have ho : ∀ {p : ℕ} {e : ExpiryEntry K}, s.entries[p]? = some e → k ≠ e.key →
      s.index k ≠ some p := by
    intro p e hp hne hk
    obtain ⟨_, he', hkey⟩ := (h k p).mp hk
    rw [hp] at he'
    exact hne (by rw [← hkey, Option.some.inj he'])
  rw [swap_eq hi hj, Equiv.swap_apply_def]
  show (if k = l.key then some j else if k = r.key then some i else s.index k) = some m ↔ _
  by_cases hkl : k = l.key
  · rw [if_pos hkl, hkl, hl, Option.some.injEq, Option.some.injEq]
    split_ifs <;> omega
  rw [if_neg hkl]
  by_cases hkr : k = r.key
  · rw [if_pos hkr, hkr, hr, Option.some.injEq, Option.some.injEq]
    have hij : i ≠ j := by
      rintro rfl
      rw [hi] at hj
      exact hkl (by rw [hkr, Option.some.inj hj])
    split_ifs <;> omega
  · rw [if_neg hkr]
    have hni := ho hi hkl
    have hnj := ho hj hkr
    split_ifs with hmi hmj
    · subst hmi
      exact ⟨fun h => absurd h hni, fun h => absurd h hnj⟩
    · subst hmj
      exact ⟨fun h => absurd h hnj, fun h => absurd h hni⟩
    · exact Iff.rfl

private theorem swap_shuffle (hi : i < s.entries.length) (hj : j < s.entries.length) :
    Shuffle s (s.swap i j) := by
  have hl := getElem?_eq_getElem hi
  have hr := getElem?_eq_getElem hj
  refine ⟨?_, ?_, fun h k m => ?_⟩
  · rw [swap_eq hl hr]
    exact set_set_perm hi hj
  · rw [swap_eq hl hr]
    rfl
  · rw [swap_index h hl hr, swap_entry hl hr]
    exact h k _

private theorem swap_rank (hi : i < s.entries.length) (hj : j < s.entries.length) :
    (s.swap i j).rank = s.rank ∘ Equiv.swap i j := by
  funext m
  have hen := swap_entry (getElem?_eq_getElem hi) (getElem?_eq_getElem hj) m
  unfold rank
  rw [hen]
  rfl

/-! ### Sifting -/

theorem siftUp_ordered (hf : i ≤ fuel) (hi : i < s.entries.length)
    (h : Heap.Rising s.rank s.entries.length i) : Shuffle s (siftUp fuel i s) ∧
      Heap.Ordered (siftUp fuel i s).rank s.entries.length := by
  induction fuel generalizing i s with
  | zero =>
    refine ⟨.refl s, h.stop fun hpos => ?_⟩
    omega
  | succ _ ih =>
    unfold siftUp
    by_cases hz : i = 0
    · rw [if_pos hz]
      exact ⟨.refl s, h.stop fun hpos => by omega⟩
    rw [if_neg hz]
    have hpos : 0 < i := Nat.pos_of_ne_zero hz
    have hlt : (i - 1) / 2 < s.entries.length := by omega
    by_cases hb : s.before i ((i - 1) / 2) = true
    · rw [if_pos hb]
      have hs := swap_shuffle hi hlt
      have hr := h.swap hpos hi ((before_iff hi hlt).mp hb)
      obtain ⟨hsh, ho⟩ := ih (i := (i - 1) / 2) (s := s.swap i ((i - 1) / 2)) (by omega)
        (by rw [hs.length]; exact hlt) (by rw [hs.length, swap_rank hi hlt]; exact hr)
      rw [hs.length] at ho
      exact ⟨hs.trans hsh, ho⟩
    · rw [if_neg hb]
      refine ⟨.refl s, h.stop fun _ => ?_⟩
      rw [before_iff hi hlt] at hb
      exact not_lt.mp hb

theorem siftDown_ordered (hf : s.entries.length ≤ fuel + i)
    (hi : i < s.entries.length) (h : Heap.Sinking s.rank s.entries.length i) :
    Shuffle s (siftDown fuel i s) ∧ Heap.Ordered (siftDown fuel i s).rank s.entries.length := by
  induction fuel generalizing i s with
  | zero => omega
  | succ fuel ih =>
    unfold siftDown
    by_cases hleaf : s.entries.length ≤ i * 2 + 1
    · rw [if_pos hleaf]
      refine ⟨.refl s, h.stop fun j hpos hj hp => ?_⟩
      unfold Heap.parent at hp
      omega
    · rw [if_neg hleaf]
      have hl : i * 2 + 1 < s.entries.length := Nat.lt_of_not_le hleaf
      obtain ⟨_, hlt, hp⟩ := smallest_child hl
      have hle : ∀ j, 0 < j → j < s.entries.length → Heap.parent j = i →
        s.rank (s.smallest i) ≤ s.rank j := fun j => smallest_least hl
      show Shuffle s (if s.before (s.smallest i) i then siftDown fuel (s.smallest i)
          (s.swap i (s.smallest i)) else s) ∧
        Heap.Ordered (rank (if s.before (s.smallest i) i then siftDown fuel (s.smallest i)
          (s.swap i (s.smallest i)) else s)) s.entries.length
      by_cases hb : s.before (s.smallest i) i = true
      · rw [if_pos hb]
        have hs := swap_shuffle hi hlt
        have hsi := h.swap (by omega) hlt hp ((before_iff hlt hi).mp hb) hle
        obtain ⟨hsh, ho⟩ := ih (i := s.smallest i) (s := s.swap i (s.smallest i))
          (by rw [hs.length]; omega) (by rw [hs.length]; exact hlt)
          (by rw [hs.length, swap_rank hi hlt]; exact hsi)
        rw [hs.length] at ho
        exact ⟨hs.trans hsh, ho⟩
      · rw [if_neg hb]
        rw [before_iff hlt hi] at hb
        refine ⟨.refl s, h.stop fun j hpos hj hpj => ?_⟩
        exact (not_lt.mp hb).trans (hle j hpos hj hpj)

/-! ### Retaining -/

theorem retain_extend (h : s.Wf) (hk : s.index k = some i)
    (he : s.entries[i]? = some e) (hl : e.expires < u) :
    ∃ t, s.retain k u = (true, t) ∧ t.Wf ∧ Assigned s t k u := by
  have hi := h.indexed.lt hk
  obtain ⟨e', he', hkey⟩ := (h.indexed k i).mp hk
  obtain rfl : e = e' := Option.mem_unique he he'
  have hin : (s.raise i k u).Indexed := raise_indexed h.indexed he hkey
  have ha : Assigned s (s.raise i k u) k u := raise_assigned h.indexed he hkey
  have hs : Heap.Sinking (s.raise i k u).rank (s.raise i k u).entries.length i := by
    rw [raise_length]
    refine h.ordered.sinking hi ?_ fun p hne => ?_
    · rw [rank_eq he, rank_eq (raise_at hi)]
      exact hl.le
    · unfold rank
      rw [raise_other hne]
  have hi' : i < (s.raise i k u).entries.length := by
    rw [raise_length]
    exact hi
  obtain ⟨hdw, ho⟩ := siftDown_ordered (Nat.le_add_right _ i) hi' hs
  obtain ⟨d, hd⟩ : ∃ d, d = siftDown (s.raise i k u).entries.length i (s.raise i k u) := ⟨_, rfl⟩
  rw [← hd] at hdw ho
  rw [← hdw.length] at ho
  -- sifting up moves nothing: the entries are in order already
  obtain ⟨q, hq⟩ := holds_iff.mp (((ha.shuffle hdw).holds k u).mpr (.inl ⟨rfl, rfl⟩))
  have hpos := (hdw.indexed hin k q).mpr ⟨_, hq, rfl⟩
  have hql := lt_of_get hq
  obtain ⟨hup, ho'⟩ := siftUp_ordered (Nat.le_refl q) hql (ho.rising hql)
  refine ⟨siftUp q q d, ?_, ⟨hup.indexed (hdw.indexed hin), ?_, ?_⟩,
    (ha.shuffle hdw).shuffle hup⟩
  · have hr : s.retain k u = (true, siftUp ((d.index k).getD 0) ((d.index k).getD 0) d) := by
      unfold retain
      rw [hk]
      dsimp only
      rw [he, hd]
      exact if_pos hl
    rw [hr, hpos]
    rfl
  · rw [hup.length]
    exact ho'
  · rw [hup.length, hup.limit, hdw.length, hdw.limit, ha.limit, raise_length]
    exact h.bounded

theorem retain_same (hk : s.index k = some i)
    (he : s.entries[i]? = some e) (hn : ¬ e.expires < u) : s.retain k u = (true, s) := by
  unfold retain
  rw [hk]
  dsimp only
  rw [he]
  exact if_neg hn

def push (s : ExpirySet K) (k : K) (u : Time) : ExpirySet K :=
  { s.setIndex k (some s.entries.length) with entries := s.entries ++ [⟨k, u⟩] }

theorem push_length : (s.push k u).entries.length = s.entries.length + 1 := length_append

theorem push_old (hi : i < s.entries.length) : (s.push k u).entries[i]? = s.entries[i]? :=
  getElem?_append_left hi

private theorem push_last : (s.push k u).entries[s.entries.length]? = some ⟨k, u⟩ :=
  getElem?_concat_length

private theorem push_cases (h : (s.push k u).entries[i]? = some e) :
    i = s.entries.length ∧ e = ⟨k, u⟩ ∨ s.entries[i]? = some e := by
  have hlt := lt_of_get h
  rw [push_length] at hlt
  rcases Nat.lt_or_ge i s.entries.length with hi | hi
  · exact .inr ((push_old hi).symm.trans h)
  · obtain rfl : i = s.entries.length := by omega
    exact .inl ⟨rfl, (Option.mem_unique push_last h).symm⟩

private theorem push_indexed (h : s.Indexed) (hk : s.index k = none) : (s.push k u).Indexed := by
  intro k' p
  show (if k' = k then some s.entries.length else s.index k') = some p ↔ _
  constructor
  · intro hp
    split_ifs at hp with hk'
    · obtain rfl := Option.some.inj hp
      exact ⟨_, push_last, hk'.symm⟩
    · obtain ⟨e, he, hkey⟩ := (h k' p).mp hp
      exact ⟨e, (push_old (h.lt hp)).trans he, hkey⟩
  · rintro ⟨e, he, hkey⟩
    rcases push_cases he with ⟨rfl, rfl⟩ | hp
    · exact if_pos hkey.symm
    have hi := (h k' p).mpr ⟨e, hp, hkey⟩
    rw [if_neg]
    · exact hi
    · rintro rfl
      exact absurd (hk.symm.trans hi) (by simp)

private theorem push_assigned (h : s.Indexed) (hk : s.index k = none) :
    Assigned s (s.push k u) k u := by
  refine ⟨rfl, fun k' v => ?_⟩
  constructor
  · intro hv
    obtain ⟨p, hp⟩ := holds_iff.mp hv
    rcases push_cases hp with ⟨-, heq⟩ | hold
    · cases heq
      exact .inl ⟨rfl, rfl⟩
    · refine .inr ⟨?_, holds_iff.mpr ⟨p, hold⟩⟩
      rintro rfl
      cases hk.symm.trans ((h _ p).mpr ⟨_, hold, rfl⟩)
  · rintro (⟨rfl, rfl⟩ | ⟨-, hv⟩)
    · exact holds_iff.mpr ⟨_, push_last⟩
    · obtain ⟨p, hp⟩ := holds_iff.mp hv
      exact holds_iff.mpr ⟨p, (push_old (lt_of_get hp)).trans hp⟩

private theorem push_rising (h : Heap.Ordered s.rank s.entries.length) :
    Heap.Rising (s.push k u).rank (s.push k u).entries.length s.entries.length := by
  have hrank : ∀ p, p < s.entries.length → (s.push k u).rank p = s.rank p := by
    intro p hp
    unfold rank
    rw [push_old hp]
  rw [push_length]
  constructor
  · intro p hpos hp hne
    have hlt := Heap.parent_lt hpos
    rw [hrank p (by omega), hrank _ (by omega)]
    exact h p hpos (by omega)
  · intro hpos p _ hp hpa
    unfold Heap.parent at hpa
    omega

theorem retain_insert (h : s.Wf) (hk : s.index k = none) (hrm : s.full = false) :
    ∃ t, s.retain k u = (true, t) ∧ t.Wf ∧ Assigned s t k u := by
  have hlt : s.entries.length < (s.push k u).entries.length := by
    rw [push_length]
    exact Nat.lt_succ_self _
  have hs : s.entries.length < s.limit := by exact Nat.lt_of_not_le (of_decide_eq_false hrm)
  obtain ⟨hup, ho⟩ := siftUp_ordered (Nat.le_refl _) hlt (push_rising h.ordered)
  refine ⟨_, ?_, ⟨hup.indexed (push_indexed h.indexed hk), ?_, ?_⟩,
    (push_assigned h.indexed hk).shuffle hup⟩
  · unfold retain
    rw [hk]
    exact if_neg (by rw [hrm]; decide)
  · rw [hup.length]
    exact ho
  · rw [hup.length, hup.limit, push_length]
    exact hs

/-- A key that is retired gets the later deadline. -/
theorem Wf.retain_old {v : Time} (h : s.Wf) (hv : s.Holds k v) (u : Time) :
    ∃ t, s.retain k u = (true, t) ∧ t.Wf ∧ Assigned s t k (max v u) := by
  obtain ⟨i, he⟩ := holds_iff.mp hv
  have hk := (h.indexed k i).mpr ⟨_, he, rfl⟩
  by_cases hl : v < u
  · rw [max_eq_right hl.le]
    exact retain_extend h hk he hl
  · rw [max_eq_left (not_lt.mp hl)]
    refine ⟨s, retain_same hk he hl, h, rfl, fun k' v' => ⟨fun hv' => ?_, ?_⟩⟩
    · by_cases hk' : k' = k
      · subst hk'
        exact .inl ⟨rfl, h.indexed.unique hv' hv⟩
      · exact .inr ⟨hk', hv'⟩
    · rintro (⟨rfl, rfl⟩ | ⟨-, hv'⟩)
      · exact hv
      · exact hv'

theorem Wf.retain (h : s.Wf) (hrm : s.contains k = true ∨ s.full = false) (u : Time) :
    ∃ t, s.retain k u = (true, t) ∧ t.Wf ∧ Retained s t k u := by
  by_cases hk : s.contains k = true
  · obtain ⟨v, hv⟩ := (contains_iff h.indexed).mp hk
    obtain ⟨t, hr, hwf, ha⟩ := h.retain_old hv u
    refine ⟨t, hr, hwf, ha.retained (le_max_right v u) fun w hw => ?_⟩
    rw [h.indexed.unique hw hv]
    exact le_max_left v u
  · have hn : s.index k = none := by simpa [contains] using hk
    obtain ⟨t, hr, hwf, ha⟩ := retain_insert h hn (hrm.resolve_left hk)
    refine ⟨t, hr, hwf, ha.retained le_rfl fun w hw => ?_⟩
    exact absurd ((contains_iff h.indexed).mpr ⟨w, hw⟩) hk

/-! ### Pruning -/

/-- The last entry takes the place of the root. -/
def hoist (s : ExpirySet K) (root moved : ExpiryEntry K) (init : List (ExpiryEntry K)) :
    ExpirySet K :=
  { (s.setIndex root.key none).setIndex moved.key (some 0) with entries := moved :: init }

section Hoist
variable {root moved : ExpiryEntry K} {init : List (ExpiryEntry K)} (h : s.Wf)
  (hentries : s.entries = root :: (init ++ [moved]))
include h hentries

theorem hoist_indexed : (s.hoist root moved init).Indexed := by
  have hmi : ∀ m, m < init.length → s.entries[m + 1]? = init[m]? := by
    intro m hm
    rw [hentries, getElem?_cons_succ, getElem?_append_left hm]
  have hl : s.entries[init.length + 1]? = some moved := by
    rw [hentries, getElem?_cons_succ, getElem?_concat_length]
  have hf : s.entries[0]? = some root := by
    rw [hentries]
    rfl
  intro k p
  show (if k = moved.key then some 0 else if k = root.key then none else s.index k) = some p ↔ _
  constructor
  · intro hp
    split_ifs at hp with hmo hr
    · obtain rfl := Option.some.inj hp
      exact ⟨moved, rfl, hmo.symm⟩
    obtain ⟨e, he, hkey⟩ := (h.indexed k p).mp hp
    have hlt := h.indexed.lt hp
    rw [hentries, length_cons, length_append, length_singleton] at hlt
    obtain ⟨m, rfl⟩ : ∃ m, p = m + 1 := by
      refine Nat.exists_eq_succ_of_ne_zero fun hz => hr ?_
      rw [hz, hf] at he
      rw [← hkey, Option.some.inj he]
    have hne : m ≠ init.length := by
      rintro rfl
      rw [hl] at he
      exact hmo (by rw [← hkey, Option.some.inj he])
    rw [hmi m (by omega)] at he
    exact ⟨e, he, hkey⟩
  · rintro ⟨e, he, hkey⟩
    cases p with
    | zero =>
      cases Option.some.inj he
      exact if_pos hkey.symm
    | succ m =>
      have he' : init[m]? = some e := he
      have hm := lt_of_get he'
      have hi := (h.indexed k (m + 1)).mpr ⟨e, (hmi m hm).trans he', hkey⟩
      rw [if_neg, if_neg]
      · exact hi
      · rintro rfl
        have := h.indexed.position hi hf rfl
        omega
      · rintro rfl
        have := h.indexed.position hi hl rfl
        omega

private theorem hoist_sinking : Heap.Sinking (s.hoist root moved init).rank
    (s.hoist root moved init).entries.length 0 := by
  refine ⟨fun i hpos hi hne => ?_, fun hpos => absurd hpos (Nat.lt_irrefl 0)⟩
  have hrank : ∀ p, 0 < p → p < init.length + 1 → (s.hoist root moved init).rank p = s.rank p := by
    intro p hpos hp
    obtain ⟨m, rfl⟩ := Nat.exists_eq_succ_of_ne_zero (Nat.pos_iff_ne_zero.mp hpos)
    have hn : (s.hoist root moved init).entries[m + 1]? = init[m]? := rfl
    unfold rank
    rw [hn, hentries, getElem?_cons_succ, getElem?_append_left (by omega)]
  have hi' : i < init.length + 1 := hi
  have hlen : s.entries.length = init.length + 2 := by
    rw [hentries]
    simp
  have hlt := Heap.parent_lt hpos
  rw [hrank i hpos hi', hrank _ (by omega) (by omega)]
  exact h.ordered i hpos (by omega)

end Hoist

theorem removeRoot_wf {root : ExpiryEntry K} {rest : List (ExpiryEntry K)} (h : s.Wf)
    (hrt : s.entries = root :: rest) : (s.removeRoot root).Wf ∧
      (s.removeRoot root).limit = s.limit ∧ (root :: (s.removeRoot root).entries).Perm s.entries := by
  rcases eq_nil_or_concat rest with rfl | ⟨init, moved, hr⟩
  · have heq : s.removeRoot root = { s.setIndex root.key none with entries := [] } := by
      unfold removeRoot
      rw [hrt]
      rfl
    rw [heq]
    refine ⟨⟨fun k p => ⟨fun hp => ?_, fun hp => ?_⟩, fun p _ hp => absurd hp (Nat.not_lt_zero _),
      Nat.zero_le _⟩, rfl, ?_⟩
    · have hi : (if k = root.key then none else s.index k) = some p := hp
      split_ifs at hi with hk
      obtain ⟨_, he, hkey⟩ := (h.indexed k p).mp hi
      rw [hrt] at he
      obtain rfl := mem_singleton.mp (mem_of_getElem? he)
      exact absurd hkey.symm hk
    · obtain ⟨_, he, -⟩ := hp
      cases he
    · rw [hrt]
  · have hentries : s.entries = root :: (init ++ [moved]) := by
      rw [hrt, hr, concat_eq_append]
    have hl : s.entries.length - 1 = init.length + 1 := by
      rw [hentries]
      simp
    have heq : s.removeRoot root = siftDown (s.hoist root moved init).entries.length 0
        (s.hoist root moved init) := by
      have hm : s.entries[init.length + 1]? = some moved := by
        rw [hentries, getElem?_cons_succ, getElem?_concat_length]
      have ht : (s.entries.set 0 moved).take (init.length + 1) = moved :: init := by
        rw [hentries, set_cons_zero, take_succ_cons, take_left]
      unfold removeRoot
      dsimp only
      rw [hl, hm]
      dsimp only
      rw [if_neg (Nat.succ_ne_zero _), ht]
      rfl
    have hpos : 0 < (s.hoist root moved init).entries.length := Nat.succ_pos _
    obtain ⟨hd, ho⟩ := siftDown_ordered (Nat.le_add_right _ 0) hpos
      (hoist_sinking h hentries)
    rw [heq]
    refine ⟨⟨hd.indexed (hoist_indexed h hentries), ?_, ?_⟩, hd.limit, ?_⟩
    · rw [hd.length]
      exact ho
    · have hb := h.bounded
      have hlen : (s.hoist root moved init).entries.length = init.length + 1 := rfl
      rw [hd.length, hd.limit, hlen]
      show init.length + 1 ≤ s.limit
      omega
    · rw [hentries]
      refine (hd.perm.trans ?_).cons root
      exact (perm_append_singleton moved init).symm

theorem pruneLoop_wf {now : Time} (h : s.Wf) (hf : s.entries.length ≤ fuel) :
    (pruneLoop now fuel s).Wf ∧ Pruned now s (pruneLoop now fuel s) := by
  induction fuel generalizing s with
  | zero =>
    have hn := eq_nil_of_length_eq_zero (Nat.le_zero.mp hf)
    refine ⟨h, rfl, ?_⟩
    rw [pruneLoop, hn]
    exact .refl _
  | succ _ ih =>
    unfold pruneLoop
    cases hentries : s.entries with
    | nil =>
      refine ⟨h, rfl, ?_⟩
      rw [hentries]
      exact .refl _
    | cons root =>
      dsimp only
      have hz : s.rank 0 = root.expires := rank_eq (by rw [hentries]; rfl)
      by_cases hl : now < root.expires
      · rw [if_pos hl]
        refine ⟨h, rfl, ?_⟩
        rw [filter_eq_self.mpr]
        intro e he
        obtain ⟨_, hp⟩ := mem_iff_getElem?.mp he
        have hle := h.ordered.root_le (lt_of_get hp)
        rw [hz, rank_eq hp] at hle
        exact decide_eq_true (hl.trans_le hle)
      · rw [if_neg hl]
        obtain ⟨hwf, hli, hpm⟩ := removeRoot_wf h hentries
        have hlen := hpm.length_eq
        rw [length_cons] at hlen
        obtain ⟨hwf', hpr⟩ := ih hwf (by omega)
        refine ⟨hwf', hpr.limit.trans hli, hpr.perm.trans ?_⟩
        have hfi := hpm.filter fun e => decide (now < e.expires)
        rw [filter_cons_of_neg (by simpa using hl)] at hfi
        exact hfi

theorem Wf.prune (h : s.Wf) (now : Time) : (s.prune now).Wf ∧ Pruned now s (s.prune now) :=
  pruneLoop_wf h (Nat.le_refl _)

/-! ### Replacing the identifier in use -/

section Replaced
variable [Zero K]

/-- The tombstones after `k` went out of use; zero stands for none in use. -/
def replaced (s : ExpirySet K) (k : K) (u : Time) : Bool × ExpirySet K :=
  if k = 0 then (true, s) else s.retain k u

/-- The table can take the identifier in use. -/
def Room (s : ExpirySet K) (k : K) : Prop := k ≠ 0 → s.contains k = true ∨ s.full = false

omit [DecidableEq K] in
theorem Room.of_not (h : ¬ (k ≠ 0 ∧ ¬ s.contains k = true ∧ s.full = true)) : s.Room k := by
  intro hk
  by_contra hno
  rw [not_or, Bool.not_eq_false] at hno
  exact h ⟨hk, hno⟩

theorem Wf.replaced (h : s.Wf) (hrm : s.Room k) (u : Time) : (s.replaced k u).1 = true := by
  unfold ExpirySet.replaced
  split
  · rfl
  · next hk =>
    obtain ⟨_, heq, -⟩ := h.retain (hrm hk) u
    rw [heq]

end Replaced

end WgFrag.Control.ExpirySet
