import Mathlib.Data.Nat.ModEq
import Mathlib.Data.List.Basic

/-! A queue in a ring of fixed size, and the list of its entries in their order. Free slots hold the
default value. -/
namespace WgFrag.Lib
open List

structure RingQueue (α : Type) where
  slots : List α
  head : ℕ := 0
  count : ℕ := 0

namespace RingQueue
variable {α : Type} [Inhabited α] {r : RingQueue α} {i j offset : ℕ}

def ofSize (n : ℕ) : RingQueue α := ⟨List.replicate n default, 0, 0⟩

section
variable (r)

/-- The slot of the entry with this many others before it. -/
def slot (offset : ℕ) : ℕ := (r.head + offset) % r.slots.length

def get (offset : ℕ) : α := r.slots.getD (r.slot offset) default

/-- The entries, oldest first. -/
def contents : List α := (List.range r.count).map r.get

/-- The slot of the oldest entry that satisfies `p`. -/
def find (p : α → Bool) : Option ℕ :=
  ((List.range r.count).find? fun offset => p (r.get offset)).map r.slot

def push (x : α) : RingQueue α :=
  { r with slots := r.slots.set (r.slot r.count) x, count := r.count + 1 }

def replace (index : ℕ) (x : α) : RingQueue α := { r with slots := r.slots.set index x }

def dropHead : RingQueue α where
  slots := r.slots.set r.head default
  head := (r.head + 1) % r.slots.length
  count := r.count - 1

/-- Move every entry after `index` one slot towards it; there are at most as many moves as
entries. -/
def shift (last : ℕ) : ℕ → ℕ → List α → List α
  | 0, index, slots => slots.set index default
  | moves + 1, index, slots =>
    if index = last then slots.set index default
    else
      let next := (index + 1) % slots.length
      shift last moves next (slots.set index (slots.getD next default))

/-- Take the entry in a slot out and keep the order of the others. -/
def remove (index : ℕ) : RingQueue α :=
  if r.count = 0 then r
  else
    { r with
      slots := shift ((r.head + r.count - 1) % r.slots.length) r.count index r.slots
      count := r.count - 1 }

structure Wf : Prop where
  head : r.head < r.slots.length
  count : r.count ≤ r.slots.length

end

omit [Inhabited α] in
theorem Wf.slot_lt (h : r.Wf) (offset : ℕ) : r.slot offset < r.slots.length :=
  Nat.mod_lt _ (Nat.lt_of_le_of_lt (Nat.zero_le _) h.head)

omit [Inhabited α] in
theorem slot_inj (hi : i < r.slots.length) (hj : j < r.slots.length) (h : r.slot i = r.slot j) :
    i = j := by
  have hm : r.head + i ≡ r.head + j [MOD r.slots.length] := h
  exact (Nat.ModEq.add_left_cancel' r.head hm).eq_of_lt_of_lt hi hj

theorem ofSize_wf {n : ℕ} (h : 0 < n) : (ofSize n : RingQueue α).Wf := by
  refine ⟨?_, Nat.zero_le _⟩
  unfold ofSize
  rw [length_replicate]
  exact h

theorem contents_length : r.contents.length = r.count := by
  unfold contents
  rw [length_map, length_range]

theorem contents_getElem? : r.contents[i]? = if i < r.count then some (r.get i) else none := by
  unfold contents
  rw [getElem?_map]
  split
  · next h => rw [getElem?_range h]; rfl
  · next h => rw [getElem?_eq_none (by rw [length_range]; omega)]; rfl

theorem contents_eq {xs : List α} (hlen : r.count = xs.length)
    (hg : ∀ i, i < r.count → xs[i]? = some (r.get i)) : r.contents = xs := by
  apply ext_getElem?
  intro i
  rw [contents_getElem?]
  split
  · next h => exact (hg i h).symm
  · next h => exact (getElem?_eq_none (by omega)).symm

/-- The search of the slots is the search of the entries. -/
theorem find_eq (p : α → Bool) : r.find p = (r.contents.findIdx? p).map r.slot := by
  have heq : (List.range r.count).find? (fun offset => p (r.get offset)) =
      r.contents.findIdx? p := by
    unfold contents
    rw [findIdx?_map]
    cases hf : (List.range r.count).findIdx? (p ∘ r.get) with
    | none =>
      rw [findIdx?_eq_none_iff] at hf
      rw [find?_eq_none]
      intro i hi
      rw [Bool.not_eq_true]
      exact hf i hi
    | some =>
      obtain ⟨hlt, hp, hb⟩ := findIdx?_eq_some_iff_getElem.mp hf
      rw [length_range] at hlt
      rw [find?_range_eq_some]
      refine ⟨?_, mem_range.mpr hlt, fun j hj => ?_⟩
      · rw [getElem_range] at hp
        exact hp
      have hno := hb j hj
      rw [getElem_range, Bool.not_eq_true] at hno
      rw [Bool.not_eq_true']
      exact hno
  unfold find
  rw [heq]

theorem get_set (h : r.Wf) (hi : i < r.slots.length) (hj : j < r.slots.length) (x : α) :
    ({ r with slots := r.slots.set (r.slot j) x } : RingQueue α).get i = if i = j then x else r.get i := by
  have hsl : ({ r with slots := r.slots.set (r.slot j) x } : RingQueue α).slot i = r.slot i := by
    unfold slot
    rw [length_set]
  unfold get
  rw [hsl, getD_eq_getElem?_getD, getElem?_set]
  by_cases hij : i = j
  · subst hij
    rw [if_pos rfl, if_pos rfl, if_pos (h.slot_lt i)]
    rfl
  · rw [if_neg hij, if_neg fun heq => hij (slot_inj hi hj heq.symm), ← getD_eq_getElem?_getD]

theorem contents_replace (h : r.Wf) (hlt : offset < r.count) (x : α) :
    (r.replace (r.slot offset) x).contents = r.contents.set offset x := by
  have hc := h.count
  apply contents_eq
  · rw [length_set, contents_length]
    rfl
  intro i hi
  have hi' : i < r.count := hi
  rw [getElem?_set, contents_length]
  show _ = some (({ r with slots := r.slots.set (r.slot offset) x } : RingQueue α).get i)
  rw [get_set h (by omega) (by omega)]
  by_cases hio : offset = i
  · rw [if_pos hio, if_pos hlt, if_pos hio.symm]
  · rw [if_neg hio, if_neg (Ne.symm hio), contents_getElem?, if_pos hi']

theorem contents_push (h : r.Wf) (hrm : r.count < r.slots.length) (x : α) :
    (r.push x).contents = r.contents ++ [x] := by
  apply contents_eq
  · rw [length_append, contents_length]
    rfl
  intro i hi
  have hi' : i < r.count + 1 := hi
  show _ = some (({ r with slots := r.slots.set (r.slot r.count) x } : RingQueue α).get i)
  rw [get_set h (by omega) hrm]
  by_cases hl : i = r.count
  · rw [if_pos hl, hl, ← contents_length, getElem?_concat_length]
  · rw [if_neg hl, getElem?_append_left (by rw [contents_length]; omega),
      contents_getElem?, if_pos (by omega)]

theorem contents_dropHead (h : r.Wf) (hne : 0 < r.count) :
    r.dropHead.contents = r.contents.tail := by
  have hc := h.count
  have hlen : r.dropHead.slots.length = r.slots.length := length_set
  have hsl : ∀ i, r.dropHead.slot i = r.slot (i + 1) := by
    intro i
    show ((r.head + 1) % r.slots.length + i) % r.dropHead.slots.length = _
    rw [hlen, Nat.mod_add_mod, Nat.add_assoc, Nat.add_comm 1 i]
    rfl
  have hh : r.slot 0 = r.head := Nat.mod_eq_of_lt h.head
  apply contents_eq
  · rw [length_tail, contents_length]
    rfl
  intro i hi
  have hi' : i < r.count - 1 := hi
  rw [getElem?_tail, contents_getElem?, if_pos (by omega)]
  unfold get
  rw [hsl, getD_eq_getElem?_getD, getD_eq_getElem?_getD]
  show _ = some (((r.slots.set r.head default)[r.slot (i + 1)]?).getD default)
  rw [getElem?_set_ne]
  intro heq
  have := slot_inj (r := r) (i := 0) (j := i + 1) (by omega) (by omega) (hh.trans heq)
  omega

omit [Inhabited α] in
theorem slot_succ (r : RingQueue α) (offset : ℕ) :
    (r.slot offset + 1) % r.slots.length = r.slot (offset + 1) := by
  unfold slot
  rw [Nat.mod_add_mod, Nat.add_assoc]

theorem shift_last (h : r.Wf) (hl : offset + 1 = r.count) (hi : i + 1 < r.count) :
    ({ r with slots := r.slots.set (r.slot offset) default } : RingQueue α).get i =
      if i < offset then r.get i else r.get (i + 1) := by
  have hc := h.count
  rw [get_set h (by omega) (by omega), if_neg (by omega), if_pos (by omega)]

/-- After the moves the later entries are one slot earlier. -/
theorem shift_get {moves : ℕ} (h : r.Wf) (hlt : offset < r.count)
    (hm : r.count ≤ moves + offset + 1) (hi : i + 1 < r.count) :
    ({ r with slots := shift (r.slot (r.count - 1)) moves (r.slot offset) r.slots } : RingQueue α).get i =
      if i < offset then r.get i else r.get (i + 1) := by
  have hc := h.count
  induction moves generalizing r offset with
  | zero => exact shift_last h (by omega) hi
  | succ _ ih =>
    unfold shift
    by_cases hl : r.slot offset = r.slot (r.count - 1)
    · have heq := slot_inj (by omega) (by omega) hl
      rw [if_pos hl]
      exact shift_last h (by omega) hi
    · rw [if_neg hl]
      dsimp only
      have hne : offset ≠ r.count - 1 := fun heq => hl (by rw [heq])
      rw [slot_succ]
      -- one move, and the rest of them on the ring it leaves
      obtain ⟨t, ht⟩ : ∃ t : RingQueue α, t = { r with
          slots := r.slots.set (r.slot offset) (r.get (offset + 1)) } := ⟨_, rfl⟩
      have hlen : t.slots.length = r.slots.length := by
        rw [ht]
        exact length_set
      have hc' : t.count = r.count := by rw [ht]
      have hh : t.head = r.head := by rw [ht]
      have hso : ∀ o, t.slot o = r.slot o := by
        intro o
        unfold slot
        rw [hh, hlen]
      have hg : ∀ o, o < r.slots.length → t.get o =
          if o = offset then r.get (offset + 1) else r.get o := by
        intro o ho
        rw [ht]
        exact get_set h ho (by omega) _
      have hwf : t.Wf := ⟨by rw [hh, hlen]; exact h.head, by rw [hc', hlen]; exact hc⟩
      have hnx : offset + 1 < t.count := by omega
      have hr := ih hwf hnx (by omega) (by omega) hwf.count
      rw [hso, hso, hc', hg i (by omega), hg (i + 1) (by omega)] at hr
      have hsl : r.slots.set (r.slot offset) (r.slots.getD (r.slot (offset + 1)) default) =
          t.slots := by
        rw [ht]
        rfl
      have hsm : ∀ slots, ({ r with slots := slots } : RingQueue α).get i =
          ({ t with slots := slots } : RingQueue α).get i := by
        intro slots
        rw [ht]
      rw [hsl, hsm, hc', hr]
      split_ifs <;> first | rfl | omega | (congr 1; omega)

theorem shift_length (last moves index : ℕ) (slots : List α) :
    (shift last moves index slots).length = slots.length := by
  induction moves generalizing index slots with
  | zero => exact length_set
  | succ _ ih =>
    unfold shift
    split
    · exact length_set
    · exact (ih _ _).trans length_set

theorem contents_remove (h : r.Wf) (hlt : offset < r.count) :
    (r.remove (r.slot offset)).contents = r.contents.eraseIdx offset := by
  have hne : r.count ≠ 0 := by omega
  have hl : (r.head + r.count - 1) % r.slots.length = r.slot (r.count - 1) := by
    congr 1
    omega
  unfold remove
  rw [if_neg hne, hl]
  apply contents_eq
  · rw [length_eraseIdx, contents_length, if_pos hlt]
  intro i hi
  have hi' : i < r.count - 1 := hi
  have hg := shift_get h hlt (by omega : r.count ≤ r.count + offset + 1) (by omega : i + 1 < r.count)
  rw [getElem?_eraseIdx]
  show _ = some (({ r with slots := shift (r.slot (r.count - 1)) r.count (r.slot offset) r.slots } :
    RingQueue α).get i)
  rw [hg]
  split
  · rw [contents_getElem?, if_pos (by omega)]
  · rw [contents_getElem?, if_pos (by omega)]

omit [Inhabited α] in
theorem push_wf (h : r.Wf) (hrm : r.count < r.slots.length) (x : α) : (r.push x).Wf := by
  have hlen : (r.push x).slots.length = r.slots.length := length_set
  exact ⟨by rw [hlen]; exact h.head, by rw [hlen]; exact hrm⟩

omit [Inhabited α] in
theorem replace_wf (h : r.Wf) (index : ℕ) (x : α) : (r.replace index x).Wf := by
  have hlen : (r.replace index x).slots.length = r.slots.length := length_set
  exact ⟨by rw [hlen]; exact h.head, by rw [hlen]; exact h.count⟩

theorem remove_wf (h : r.Wf) (index : ℕ) : (r.remove index).Wf := by
  unfold remove
  split
  · exact h
  refine ⟨?_, ?_⟩
  · rw [shift_length]
    exact h.head
  · rw [shift_length]
    exact Nat.le_trans (Nat.sub_le _ _) h.count

theorem dropHead_wf (h : r.Wf) : r.dropHead.Wf := by
  have hlen : r.dropHead.slots.length = r.slots.length := length_set
  refine ⟨?_, ?_⟩
  · rw [hlen]
    exact Nat.mod_lt _ (Nat.lt_of_le_of_lt (Nat.zero_le _) h.head)
  · rw [hlen]
    exact Nat.le_trans (Nat.sub_le _ _) h.count

theorem remove_length (r : RingQueue α) (index : ℕ) :
    (r.remove index).slots.length = r.slots.length := by
  unfold remove
  split
  · rfl
  · exact shift_length ..

def dropLast (r : RingQueue α) : RingQueue α :=
  { r with slots := r.slots.set (r.slot (r.count - 1)) default, count := r.count - 1 }

theorem contents_dropLast (h : r.Wf) (hne : 0 < r.count) :
    r.dropLast.contents = r.contents.dropLast := by
  have hc := h.count
  apply contents_eq
  · rw [length_dropLast, contents_length]
    rfl
  intro i hi
  have hi' : i < r.count - 1 := hi
  show _ = some (({ r with slots := r.slots.set (r.slot (r.count - 1)) default } :
    RingQueue α).get i)
  rw [get_set h (by omega) (by omega), if_neg (by omega), getElem?_dropLast,
    contents_length, if_pos hi', contents_getElem?, if_pos (by omega)]

/-! ### Taking entries out in place -/

/-- Write the entries that stay over the ones that go. `r.count` is the number kept so far. -/
def keepLoop (keep : α → Bool) : ℕ → ℕ → RingQueue α → RingQueue α
  | 0, _, r => r
  | more + 1, offset, r =>
    keepLoop keep more (offset + 1) (if keep (r.get offset) then r.push (r.get offset) else r)

/-- Free the slots of these entries. -/
def wipe : ℕ → ℕ → RingQueue α → RingQueue α
  | 0, _, r => r
  | more + 1, offset, r => wipe more (offset + 1) (r.replace (r.slot offset) default)

def compact (keep : α → Bool) (r : RingQueue α) : RingQueue α :=
  let kept := keepLoop keep r.count 0 { r with count := 0 }
  wipe (r.count - kept.count) kept.count kept

theorem wipe_spec (more : ℕ) (h : r.Wf) (hfrom : r.count ≤ offset)
    (hto : offset + more ≤ r.slots.length) :
    (wipe more offset r).Wf ∧ (wipe more offset r).contents = r.contents := by
  induction more generalizing r offset with
  | zero => exact ⟨h, rfl⟩
  | succ _ ih =>
    have hwf := replace_wf h (r.slot offset) default
    have hlen : (r.replace (r.slot offset) default).slots.length = r.slots.length := length_set
    have heq : (r.replace (r.slot offset) default).contents = r.contents := by
      apply contents_eq
      · exact (contents_length (r := r)).symm
      intro i hi
      have hi' : i < r.count := hi
      rw [contents_getElem?, if_pos hi']
      refine congrArg some ?_
      exact ((get_set h (by omega) (by omega) default).trans (if_neg (by omega))).symm
    have hr := ih hwf (Nat.le_succ_of_le hfrom) (by omega)
    exact ⟨hr.1, hr.2.trans heq⟩

/-- The entries kept so far are the first `r.count`; those from `offset` on are untouched. -/
theorem keepLoop_spec (keep : α → Bool) (more : ℕ) (h : r.Wf) (hkp : r.count ≤ offset)
    (hto : offset + more ≤ r.slots.length) :
    (keepLoop keep more offset r).Wf ∧ (keepLoop keep more offset r).slots.length = r.slots.length ∧
      (keepLoop keep more offset r).contents =
        r.contents ++ ((List.range more).map fun i => r.get (offset + i)).filter keep := by
  induction more generalizing r offset with
  | zero => exact ⟨h, rfl, (append_nil _).symm⟩
  | succ more ih =>
    have hr : (List.range (more + 1)).map (fun i => r.get (offset + i)) =
        r.get offset :: (List.range more).map fun i => r.get (offset + 1 + i) := by
      rw [range_succ_eq_map, map_cons, map_map]
      refine congrArg (r.get offset :: ·) (map_congr_left fun i _ => ?_)
      show r.get (offset + (i + 1)) = _
      rw [Nat.add_right_comm]
      rfl
    unfold keepLoop
    rw [hr, filter_cons]
    by_cases hk : keep (r.get offset) = true
    · rw [if_pos hk, if_pos hk]
      have hrm : r.count < r.slots.length := by omega
      have hlen : (r.push (r.get offset)).slots.length = r.slots.length := length_set
      have hcn : (r.push (r.get offset)).count ≤ offset + 1 := Nat.succ_le_succ hkp
      obtain ⟨hwf, hsz, hc⟩ := ih (push_wf h hrm (r.get offset)) hcn
        (by rw [hlen]; omega)
      refine ⟨hwf, hsz.trans hlen, ?_⟩
      have heq : (List.range more).map (fun i => (r.push (r.get offset)).get (offset + 1 + i)) =
          (List.range more).map fun i => r.get (offset + 1 + i) := by
        refine map_congr_left fun i hi => ?_
        have hi' := mem_range.mp hi
        show ({ r with slots := r.slots.set (r.slot r.count) (r.get offset) } :
          RingQueue α).get (offset + 1 + i) = _
        rw [get_set h (by omega) hrm, if_neg (by omega)]
      rw [hc, contents_push h hrm, heq, append_assoc, singleton_append]
    · rw [if_neg hk, if_neg hk]
      exact ih h (Nat.le_succ_of_le hkp) (by omega)

theorem compact_spec (h : r.Wf) (keep : α → Bool) :
    (r.compact keep).Wf ∧ (r.compact keep).contents = r.contents.filter keep := by
  have hcn := h.count
  have he : ({ r with count := 0 } : RingQueue α).Wf := ⟨h.head, Nat.zero_le _⟩
  obtain ⟨hwf, hsz, hc⟩ := keepLoop_spec keep r.count he (Nat.le_refl 0) (by
    show 0 + r.count ≤ r.slots.length
    omega)
  have hf : (keepLoop keep r.count 0 { r with count := 0 }).contents =
      r.contents.filter keep := by
    rw [hc]
    unfold contents
    rw [range_zero, map_nil, nil_append]
    congr 2
    funext i
    rw [Nat.zero_add]
    rfl
  have hle : (keepLoop keep r.count 0 { r with count := 0 }).count ≤ r.count := by
    rw [← contents_length, hf]
    exact Nat.le_trans (length_filter_le _ _) (Nat.le_of_eq contents_length)
  obtain ⟨hwf', hc'⟩ := wipe_spec
    (r.count - (keepLoop keep r.count 0 { r with count := 0 }).count) hwf (Nat.le_refl _)
    (by rw [hsz]; show _ ≤ r.slots.length; omega)
  exact ⟨hwf', hc'.trans hf⟩

end RingQueue
end WgFrag.Lib
