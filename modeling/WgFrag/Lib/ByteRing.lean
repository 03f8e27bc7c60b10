import WgFrag.Lib.RingQueue

/-! A ring of payloads in one slab: slot `i` is the `stride` cells from `i * stride` on, of which
the first `lens i` are in use, and carries a tag. What the ring holds is the queue of its tagged
payloads. -/
namespace WgFrag.Lib
open List
variable {β : Type} {cells : List β}

/-- Copy `src` over the cells from `start` on. -/
def overwrite {β : Type} (cells : List β) (start : ℕ) (src : List β) : List β :=
  cells.take start ++ src ++ cells.drop (start + src.length)

theorem length_overwrite {src : List β} {start : ℕ}
    (h : start + src.length ≤ cells.length) : (overwrite cells start src).length = cells.length := by
  unfold overwrite
  rw [length_append, length_append, length_take, length_drop]
  omega

theorem getElem?_overwrite {src : List β} {start : ℕ}
    (h : start + src.length ≤ cells.length) (i : ℕ) : (overwrite cells start src)[i]? =
      if start ≤ i ∧ i < start + src.length then src[i - start]? else cells[i]? := by
  have ht : (cells.take start).length = start := by
    rw [length_take]
    omega
  have hboth : (cells.take start ++ src).length = start + src.length := by
    rw [length_append, ht]
  unfold overwrite
  by_cases hl : i < start
  · rw [if_neg (by omega), getElem?_append_left (by omega),
      getElem?_append_left (by omega), getElem?_take, if_pos hl]
  by_cases hhi : i < start + src.length
  · rw [if_pos ⟨by omega, hhi⟩, getElem?_append_left (by omega),
      getElem?_append_right (by omega), ht]
  · rw [if_neg (by omega), getElem?_append_right (by omega), hboth, getElem?_drop]
    congr 1
    omega

theorem set_getD_self {i : ℕ} (h : i < cells.length) (d : β) :
    cells.set i (cells.getD i d) = cells := by
  rw [getD_eq_getElem?_getD, getElem?_eq_getElem h, Option.getD_some,
    set_getElem_self]

structure ByteRing (α β : Type) where
  data : List β
  lens : List ℕ
  tags : List α
  stride : ℕ
  head : ℕ := 0
  count : ℕ := 0

namespace ByteRing
variable {α β : Type} [Inhabited α] {r : ByteRing α β} {index offset : ℕ}
variable {payload : List β}

def ofSize [Inhabited β] (stride slots : ℕ) : ByteRing α β where
  data := List.replicate (stride * slots) default
  lens := List.replicate slots 0
  tags := List.replicate slots default
  stride := stride

section
variable (r)

def slot (offset : ℕ) : ℕ := (r.head + offset) % r.lens.length

def read (index : ℕ) : List β :=
  (r.data.drop (index * r.stride)).take (r.lens.getD index 0)

def tag (index : ℕ) : α := r.tags.getD index default

/-- The queue of the tagged payloads. -/
def ring : RingQueue (α × List β) where
  slots := (List.range r.lens.length).map fun index => (r.tag index, r.read index)
  head := r.head
  count := r.count

def contents : List (α × List β) := r.ring.contents

def put (index : ℕ) (tag : α) (payload : List β) : ByteRing α β :=
  { r with
    data := overwrite r.data (index * r.stride) payload
    lens := r.lens.set index payload.length
    tags := r.tags.set index tag }

def push (tag : α) (payload : List β) : ByteRing α β :=
  { r.put (r.slot r.count) tag payload with count := r.count + 1 }

/-- The cells of a freed slot keep what they hold. -/
def clear (index : ℕ) : ByteRing α β :=
  { r with lens := r.lens.set index 0, tags := r.tags.set index default }

def dropHead : ByteRing α β :=
  { r.clear r.head with head := (r.head + 1) % r.lens.length, count := r.count - 1 }

def dropLast : ByteRing α β :=
  { r.clear (r.slot (r.count - 1)) with count := r.count - 1 }

/-- Take the newest payloads out until `wanted` are left. -/
def rollback (wanted : ℕ) : ℕ → ByteRing α β → ByteRing α β
  | 0, r => r
  | more + 1, r => if wanted < r.count then rollback wanted more r.dropLast else r

/-- Copy the payload and the tag of one slot to another. -/
def move (old new : ℕ) : ByteRing α β :=
  { r with
    data := if new = old then r.data else overwrite r.data (new * r.stride) (r.read old)
    lens := r.lens.set new (r.lens.getD old 0)
    tags := r.tags.set new (r.tag old) }

def keepLoop (keep : α → Bool) : ℕ → ℕ → ByteRing α β → ByteRing α β
  | 0, _, r => r
  | more + 1, offset, r =>
    keepLoop keep more (offset + 1)
      (if keep (r.tag (r.slot offset)) then
        { r.move (r.slot offset) (r.slot r.count) with count := r.count + 1 } else r)

def wipe : ℕ → ℕ → ByteRing α β → ByteRing α β
  | 0, _, r => r
  | more + 1, offset, r => wipe more (offset + 1) (r.clear (r.slot offset))

/-- Take the payloads out whose tags are not kept. -/
def compact (keep : α → Bool) (r : ByteRing α β) : ByteRing α β :=
  let kept := keepLoop keep r.count 0 { r with count := 0 }
  wipe (r.count - kept.count) kept.count kept

/-- Copy the payloads in order into the first slots of `into`. -/
def copyLoop (r : ByteRing α β) : ℕ → ℕ → ByteRing α β → ByteRing α β
  | 0, _, into => into
  | more + 1, offset, into =>
    copyLoop r more (offset + 1)
      { into.put offset (r.tag (r.slot offset)) (r.read (r.slot offset)) with
        count := into.count + 1 }

def grow [Inhabited β] (r : ByteRing α β) (slots : ℕ) : ByteRing α β :=
  if slots ≤ r.lens.length then r else copyLoop r r.count 0 (ofSize r.stride slots)

/-- Take every payload out. The cells and the tags stay in place. -/
def reset : ByteRing α β :=
  { r with head := 0, count := 0, lens := List.replicate r.lens.length 0 }

structure Wf : Prop where
  head : r.head < r.lens.length
  count : r.count ≤ r.lens.length
  data : r.data.length = r.stride * r.lens.length
  tags : r.tags.length = r.lens.length
  lens : ∀ n ∈ r.lens, n ≤ r.stride

end

/-! ### The slots -/

theorem ring_wf (h : r.Wf) : r.ring.Wf := by
  have hlen : r.ring.slots.length = r.lens.length := by
    unfold ring
    rw [length_map, length_range]
  exact ⟨by rw [hlen]; exact h.head, by rw [hlen]; exact h.count⟩

theorem ring_slot (r : ByteRing α β) (offset : ℕ) : r.ring.slot offset = r.slot offset := by
  unfold RingQueue.slot slot ring
  rw [length_map, length_range]

theorem ring_length (r : ByteRing α β) : r.ring.slots.length = r.lens.length := by
  unfold ring
  rw [length_map, length_range]

omit [Inhabited α] in
theorem Wf.slot_lt (h : r.Wf) (offset : ℕ) : r.slot offset < r.lens.length :=
  Nat.mod_lt _ (Nat.lt_of_le_of_lt (Nat.zero_le _) h.head)

omit [Inhabited α] in
theorem Wf.len_le (h : r.Wf) (index : ℕ) : r.lens.getD index 0 ≤ r.stride := by
  rw [getD_eq_getElem?_getD]
  cases hlen : r.lens[index]? with
  | none => exact Nat.zero_le _
  | some n => exact h.lens n (mem_of_getElem? hlen)

omit [Inhabited α] in
theorem Wf.slot_end (h : r.Wf) (hi : index < r.lens.length) {n : ℕ} (hn : n ≤ r.stride) :
    index * r.stride + n ≤ r.data.length := by
  have hst : (index + 1) * r.stride ≤ r.lens.length * r.stride := Nat.mul_le_mul_right _ hi
  rw [h.data, Nat.mul_comm r.stride]
  rw [Nat.succ_mul] at hst
  omega

omit [Inhabited α] in
theorem Wf.length_read (h : r.Wf) (hi : index < r.lens.length) :
    (r.read index).length = r.lens.getD index 0 := by
  have he := h.slot_end hi (h.len_le index)
  unfold read
  rw [length_take, length_drop]
  omega

omit [Inhabited α] in
/-- The payload that was written to a slot is read from it, and the other slots are untouched. -/
theorem read_put (h : r.Wf) (hid : index < r.lens.length)
    (hf : payload.length ≤ r.stride) (t : α) (i : ℕ) (hi : i < r.lens.length) :
    (r.put index t payload).read i = if i = index then payload else r.read i := by
  have he := h.slot_end hid hf
  have hcell := getElem?_overwrite he
  by_cases heq : i = index
  · subst heq
    rw [if_pos rfl]
    unfold read put
    dsimp only
    rw [getD_eq_getElem?_getD, getElem?_set_self hi]
    apply ext_getElem?
    intro k
    rw [getElem?_take, getElem?_drop, hcell]
    simp only [Option.getD_some]
    by_cases hk : k < payload.length
    · rw [if_pos hk, if_pos ⟨Nat.le_add_right _ _, by omega⟩, Nat.add_sub_cancel_left]
    · rw [if_neg hk, getElem?_eq_none (by omega)]
  · rw [if_neg heq]
    unfold read put
    dsimp only
    rw [getD_eq_getElem?_getD, getElem?_set_ne (Ne.symm heq),
      ← getD_eq_getElem?_getD]
    have hlen := h.len_le i
    -- The cells of slot `i` lie before or after those of slot `index`.
    have ha : i * r.stride + r.stride ≤ index * r.stride ∨
        index * r.stride + r.stride ≤ i * r.stride := by
      rcases Nat.lt_or_gt_of_ne heq with hlt | hgt
      · left
        rw [← Nat.succ_mul]
        exact Nat.mul_le_mul_right _ hlt
      · right
        rw [← Nat.succ_mul]
        exact Nat.mul_le_mul_right _ hgt
    apply ext_getElem?
    intro k
    rw [getElem?_take, getElem?_take]
    split
    · next hk =>
      rw [getElem?_drop, getElem?_drop, hcell, if_neg]
      omega
    · rfl

theorem ring_put (h : r.Wf) (hid : index < r.lens.length)
    (hf : payload.length ≤ r.stride) (t : α) :
    (r.put index t payload).ring =
      { r.ring with slots := r.ring.slots.set index (t, payload) } := by
  have hlen : (r.put index t payload).lens.length = r.lens.length := length_set
  have hsl : (r.put index t payload).ring.slots = r.ring.slots.set index (t, payload) := by
    apply ext_getElem?
    intro i
    rw [getElem?_set]
    unfold ring
    dsimp only
    rw [length_map, length_range, hlen, getElem?_map, getElem?_map]
    by_cases hi : i < r.lens.length
    · rw [getElem?_range hi, Option.map_some, Option.map_some, read_put h hid hf t i hi]
      have ht : (r.put index t payload).tag i = if i = index then t else r.tag i := by
        unfold tag put
        dsimp only
        rw [getD_eq_getElem?_getD, getElem?_set, h.tags, getD_eq_getElem?_getD]
        by_cases heq : i = index
        · rw [if_pos heq.symm, if_pos hid, if_pos heq]
          rfl
        · rw [if_neg (Ne.symm heq), if_neg heq]
      rw [ht]
      by_cases heq : i = index
      · rw [if_pos heq, if_pos heq, if_pos heq.symm, if_pos hid]
      · rw [if_neg heq, if_neg heq, if_neg (Ne.symm heq)]
    · rw [getElem?_eq_none (by rw [length_range]; omega)]
      rw [if_neg (by omega)]
      rfl
  exact congrArg (fun slots => (⟨slots, r.head, r.count⟩ : RingQueue (α × List β))) hsl

omit [Inhabited α] in
theorem put_wf (h : r.Wf) (hi : index < r.lens.length)
    (hf : payload.length ≤ r.stride) (t : α) : (r.put index t payload).Wf := by
  have hlen : (r.put index t payload).lens.length = r.lens.length := length_set
  refine ⟨by rw [hlen]; exact h.head, by rw [hlen]; exact h.count, ?_, ?_, fun n hn => ?_⟩
  · rw [hlen]
    exact (length_overwrite (h.slot_end hi hf)).trans h.data
  · rw [hlen]
    exact length_set.trans h.tags
  · rcases mem_or_eq_of_mem_set hn with hn | rfl
    · exact h.lens n hn
    · exact hf

theorem clear_eq (r : ByteRing α β) (index : ℕ) : r.clear index = r.put index default [] := by
  have heq : overwrite r.data (index * r.stride) [] = r.data := by
    unfold overwrite
    rw [append_nil, length_nil, Nat.add_zero, take_append_drop]
  unfold clear put
  rw [heq]
  rfl

theorem ring_clear (h : r.Wf) (hi : index < r.lens.length) : (r.clear index).ring =
    { r.ring with slots := r.ring.slots.set index default } := by
  rw [clear_eq]
  exact ring_put h hi (Nat.zero_le _) default

theorem clear_wf (h : r.Wf) (hi : index < r.lens.length) : (r.clear index).Wf := by
  rw [clear_eq]
  exact put_wf h hi (Nat.zero_le _) default

theorem ring_getD (hi : index < r.lens.length) :
    r.ring.slots.getD index default = (r.tag index, r.read index) := by
  unfold ring
  dsimp only
  rw [getD_eq_getElem?_getD, getElem?_map, getElem?_range hi]
  rfl

/-- Moving a payload to another slot is writing it there. -/
theorem move_eq (h : r.Wf) {old new : ℕ} (hold : old < r.lens.length) (hne : new ≠ old) :
    r.move old new = r.put new (r.tag old) (r.read old) := by
  unfold move put
  rw [if_neg hne, h.length_read hold]

theorem ring_move (h : r.Wf) {old new : ℕ} (hold : old < r.lens.length)
    (hn : new < r.lens.length) : (r.move old new).Wf ∧ (r.move old new).ring =
      { r.ring with slots := r.ring.slots.set new (r.ring.slots.getD old default) } := by
  have hf : (r.read old).length ≤ r.stride := by
    rw [h.length_read hold]
    exact h.len_le old
  by_cases heq : new = old
  · subst heq
    have hlens : r.lens.set new (r.lens.getD new 0) = r.lens := by rw [set_getD_self hold]
    have htags : r.tags.set new (r.tag new) = r.tags := by
      have hlt : new < r.tags.length := by
        rw [h.tags]
        exact hold
      unfold tag
      rw [set_getD_self hlt]
    have hsm : r.move new new = r := by
      unfold move
      rw [if_pos rfl, hlens, htags]
    have hlt : new < r.ring.slots.length := by
      rw [ring_length]
      exact hold
    rw [hsm, set_getD_self hlt]
    exact ⟨h, rfl⟩
  · rw [move_eq h hold heq, ring_getD hold]
    exact ⟨put_wf h hn hf _, ring_put h hn hf _⟩

/-! ### The operations on the queue -/

theorem push_spec (h : r.Wf) (hrm : r.count < r.lens.length)
    (hf : payload.length ≤ r.stride) (t : α) :
    (r.push t payload).Wf ∧ (r.push t payload).contents = r.contents ++ [(t, payload)] := by
  have hp := put_wf h (h.slot_lt r.count) hf t
  have hr : (r.push t payload).ring = r.ring.push (t, payload) := by
    have hsl := ring_put h (h.slot_lt r.count) hf t
    unfold RingQueue.push
    rw [ring_slot]
    exact congrArg (fun q : RingQueue (α × List β) => { q with count := r.count + 1 }) hsl
  have hlen : (r.push t payload).lens.length = r.lens.length := length_set
  refine ⟨⟨hp.head, by rw [hlen]; exact hrm, hp.data, hp.tags, hp.lens⟩, ?_⟩
  unfold contents
  rw [hr]
  exact RingQueue.contents_push (ring_wf h) (by rw [ring_length]; exact hrm) _

theorem dropHead_spec (h : r.Wf) (hne : 0 < r.count) :
    r.dropHead.Wf ∧ r.dropHead.contents = r.contents.tail := by
  have hc := clear_wf h h.head
  have hlen : r.dropHead.lens.length = r.lens.length := length_set
  have hr : r.dropHead.ring = r.ring.dropHead := by
    have hsl := ring_clear h h.head
    unfold RingQueue.dropHead
    rw [ring_length]
    exact congrArg (fun q : RingQueue (α × List β) =>
      { q with head := (r.head + 1) % r.lens.length, count := r.count - 1 }) hsl
  refine ⟨⟨?_, ?_, hc.data, hc.tags, hc.lens⟩, ?_⟩
  · rw [hlen]
    exact Nat.mod_lt _ (Nat.lt_of_le_of_lt (Nat.zero_le _) h.head)
  · rw [hlen]
    exact Nat.le_trans (Nat.sub_le _ _) h.count
  · unfold contents
    rw [hr]
    exact RingQueue.contents_dropHead (ring_wf h) hne

theorem dropLast_spec (h : r.Wf) (hne : 0 < r.count) :
    r.dropLast.Wf ∧ r.dropLast.contents = r.contents.dropLast := by
  have hc := clear_wf h (h.slot_lt (r.count - 1))
  have hlen : r.dropLast.lens.length = r.lens.length := length_set
  have hr : r.dropLast.ring = r.ring.dropLast := by
    have hsl := ring_clear h (h.slot_lt (r.count - 1))
    unfold RingQueue.dropLast
    rw [ring_slot]
    exact congrArg (fun q : RingQueue (α × List β) => { q with count := r.count - 1 }) hsl
  refine ⟨⟨hc.head, ?_, hc.data, hc.tags, hc.lens⟩, ?_⟩
  · rw [hlen]
    exact Nat.le_trans (Nat.sub_le _ _) h.count
  · unfold contents
    rw [hr]
    exact RingQueue.contents_dropLast (ring_wf h) hne

theorem contents_length (r : ByteRing α β) : r.contents.length = r.count :=
  RingQueue.contents_length

theorem rollback_spec {wanted more : ℕ} (h : r.Wf) (hm : r.count ≤ wanted + more) :
    (rollback wanted more r).Wf ∧ (rollback wanted more r).lens.length = r.lens.length ∧
      (rollback wanted more r).contents = r.contents.take wanted := by
  induction more generalizing r with
  | zero =>
    refine ⟨h, rfl, (take_of_length_le ?_).symm⟩
    rw [contents_length]
    exact hm
  | succ more ih =>
    unfold rollback
    split
    · next hlt =>
      obtain ⟨hwf, hc⟩ := dropLast_spec h (Nat.lt_of_le_of_lt (Nat.zero_le _) hlt)
      have hcn : r.dropLast.count = r.count - 1 := rfl
      have hlen : r.dropLast.lens.length = r.lens.length := length_set
      obtain ⟨hwf', hlen', hc'⟩ := ih hwf (by rw [hcn]; omega)
      refine ⟨hwf', hlen'.trans hlen, ?_⟩
      rw [hc', hc, dropLast_eq_take, take_take, contents_length]
      congr 1
      omega
    · next hle =>
      refine ⟨h, rfl, (take_of_length_le ?_).symm⟩
      rw [contents_length]
      exact Nat.le_of_not_lt hle

theorem stride_rollback (wanted more : ℕ) (r : ByteRing α β) :
    (rollback wanted more r).stride = r.stride := by
  induction more generalizing r with
  | zero => rfl
  | succ _ ih =>
    unfold rollback
    split
    · exact ih r.dropLast
    · rfl

theorem keepLoop_ring (keep : α → Bool) (more : ℕ) (h : r.Wf) (hkp : r.count ≤ offset)
    (hto : offset + more ≤ r.lens.length) :
    (keepLoop keep more offset r).Wf ∧ (keepLoop keep more offset r).lens.length = r.lens.length ∧
      (keepLoop keep more offset r).ring = r.ring.keepLoop (fun x => keep x.1) more offset := by
  induction more generalizing r offset with
  | zero => exact ⟨h, rfl, rfl⟩
  | succ more ih =>
    have hg : r.ring.get offset = (r.tag (r.slot offset), r.read (r.slot offset)) := by
      unfold RingQueue.get
      rw [ring_slot, ring_getD (h.slot_lt offset)]
    unfold keepLoop RingQueue.keepLoop
    rw [hg]
    dsimp only
    by_cases hk : keep (r.tag (r.slot offset)) = true
    · rw [if_pos hk, if_pos hk]
      obtain ⟨hwf, hr⟩ := ring_move h (h.slot_lt offset) (h.slot_lt r.count)
      have hlen : (r.move (r.slot offset) (r.slot r.count)).lens.length = r.lens.length :=
        length_set
      have hpush : ({ r.move (r.slot offset) (r.slot r.count) with
          count := r.count + 1 } : ByteRing α β).ring =
          r.ring.push (r.tag (r.slot offset), r.read (r.slot offset)) := by
        rw [ring_getD (h.slot_lt offset)] at hr
        unfold RingQueue.push
        rw [ring_slot]
        exact congrArg (fun q : RingQueue (α × List β) => { q with count := r.count + 1 }) hr
      have hrm : r.count + 1 ≤ (r.move (r.slot offset) (r.slot r.count)).lens.length := by
        rw [hlen]
        omega
      rw [← hpush]
      obtain ⟨hwf', hlen', hr'⟩ := ih
        (r := { r.move (r.slot offset) (r.slot r.count) with count := r.count + 1 })
        ⟨hwf.head, hrm, hwf.data, hwf.tags, hwf.lens⟩ (Nat.succ_le_succ hkp)
        (by show offset + 1 + more ≤ (r.move (r.slot offset) (r.slot r.count)).lens.length
            rw [hlen]
            omega)
      exact ⟨hwf', hlen'.trans hlen, hr'⟩
    · rw [if_neg hk, if_neg hk]
      exact ih h (Nat.le_succ_of_le hkp) (by omega)

theorem wipe_ring (more offset : ℕ) (h : r.Wf) : (wipe more offset r).Wf ∧
    (wipe more offset r).lens.length = r.lens.length ∧
    (wipe more offset r).ring = r.ring.wipe more offset := by
  induction more generalizing r offset with
  | zero => exact ⟨h, rfl, rfl⟩
  | succ _ ih =>
    unfold wipe RingQueue.wipe
    have hwf := clear_wf h (h.slot_lt offset)
    have hr : (r.clear (r.slot offset)).ring = r.ring.replace (r.ring.slot offset) default := by
      rw [ring_slot]
      exact ring_clear h (h.slot_lt offset)
    have hlen : (r.clear (r.slot offset)).lens.length = r.lens.length := length_set
    rw [← hr]
    obtain ⟨hwf', hlen', hr'⟩ := ih (offset + 1) hwf
    exact ⟨hwf', hlen'.trans hlen, hr'⟩

/-- Compaction in place keeps the payloads that stay, with their order and bytes. -/
theorem compact_spec (h : r.Wf) (keep : α → Bool) : (r.compact keep).Wf ∧
    (r.compact keep).lens.length = r.lens.length ∧
    (r.compact keep).contents = r.contents.filter fun x => keep x.1 := by
  have he : ({ r with count := 0 } : ByteRing α β).Wf :=
    ⟨h.head, Nat.zero_le _, h.data, h.tags, h.lens⟩
  have hcn := h.count
  obtain ⟨hwf, hlen, hr⟩ := keepLoop_ring keep r.count he (Nat.le_refl 0) (by
    show 0 + r.count ≤ r.lens.length
    omega)
  obtain ⟨hwf', hlen', hr'⟩ := wipe_ring
    (r.count - (keepLoop keep r.count 0 { r with count := 0 }).count)
    (keepLoop keep r.count 0 { r with count := 0 }).count hwf
  have hc : (r.compact keep).ring = r.ring.compact fun x => keep x.1 := by
    refine hr'.trans ?_
    unfold RingQueue.compact
    rw [hr]
    have hk : (keepLoop keep r.count 0 { r with count := 0 }).count =
        (RingQueue.keepLoop (fun x : α × List β => keep x.1) r.count 0
          { r.ring with count := 0 }).count := congrArg RingQueue.count hr
    rw [hk]
    rfl
  refine ⟨hwf', hlen'.trans hlen, ?_⟩
  unfold contents
  rw [hc]
  exact (RingQueue.compact_spec (ring_wf h) _).2

theorem stride_keepLoop (keep : α → Bool) (more offset : ℕ) (r : ByteRing α β) :
    (keepLoop keep more offset r).stride = r.stride := by
  induction more generalizing r offset with
  | zero => rfl
  | succ _ ih =>
    unfold keepLoop
    rw [ih]
    split <;> rfl

theorem stride_wipe (more offset : ℕ) (r : ByteRing α β) :
    (wipe more offset r).stride = r.stride := by
  induction more generalizing r offset with
  | zero => rfl
  | succ _ ih => exact ih (offset + 1) (r.clear (r.slot offset))

theorem stride_compact (keep : α → Bool) (r : ByteRing α β) : (r.compact keep).stride = r.stride :=
  (stride_wipe ..).trans (stride_keepLoop ..)

theorem ofSize_wf [Inhabited β] {stride slots : ℕ} (h : 0 < slots) :
    (ofSize stride slots : ByteRing α β).Wf where
  head := by
    unfold ofSize
    rw [length_replicate]
    exact h
  count := Nat.zero_le _
  data := by
    unfold ofSize
    rw [length_replicate, length_replicate]
  tags := by
    unfold ofSize
    rw [length_replicate, length_replicate]
  lens n hn := by
    rw [eq_of_mem_replicate hn]
    exact Nat.zero_le _

omit [Inhabited α] in
theorem reset_wf (h : r.Wf) : r.reset.Wf where
  head := by
    unfold reset
    rw [length_replicate]
    exact Nat.lt_of_le_of_lt (Nat.zero_le _) h.head
  count := Nat.zero_le _
  data := by
    unfold reset
    rw [length_replicate]
    exact h.data
  tags := by
    unfold reset
    rw [length_replicate]
    exact h.tags
  lens n hn := by
    rw [eq_of_mem_replicate hn]
    exact Nat.zero_le _

theorem contents_getElem? {i : ℕ} (h : r.Wf) (hi : i < r.count) :
    r.contents[i]? = some (r.tag (r.slot i), r.read (r.slot i)) := by
  unfold contents
  have hi' : i < r.ring.count := hi
  rw [RingQueue.contents_getElem?, if_pos hi']
  unfold RingQueue.get
  rw [ring_slot, ring_getD (h.slot_lt i)]

/-- The first payload is that of the head slot, and the others are what is left without it. -/
theorem contents_eq_cons (h : r.Wf) (hne : 0 < r.count) :
    r.contents = (r.tag r.head, r.read r.head) :: r.dropHead.contents := by
  have hh := contents_getElem? h hne
  have hsl : r.slot 0 = r.head := Nat.mod_eq_of_lt h.head
  rw [hsl] at hh
  rw [(dropHead_spec h hne).2]
  cases hc : r.contents with
  | nil => simp [hc] at hh
  | cons =>
    rw [hc] at hh
    obtain rfl := Option.some.inj hh
    rfl

theorem length_le_stride (h : r.Wf) {x : α × List β} (hx : x ∈ r.contents) :
    x.2.length ≤ r.stride := by
  obtain ⟨i, hi⟩ := mem_iff_getElem?.mp hx
  have hlt : i < r.count := by
    rw [← contents_length r]
    exact (List.getElem?_eq_some_iff.mp hi).1
  rw [contents_getElem? h hlt] at hi
  obtain rfl := Option.some.inj hi
  rw [h.length_read (h.slot_lt i)]
  exact h.len_le _

theorem copyLoop_spec (more : ℕ) (h : r.Wf) {into : ByteRing α β} (hinto : into.Wf)
    (hh : into.head = 0) (ho : into.count = offset) (hm : offset + more = r.count)
    (hs : into.stride = r.stride) (hrm : r.count ≤ into.lens.length) :
    (copyLoop r more offset into).Wf ∧
      (copyLoop r more offset into).lens.length = into.lens.length ∧
      (copyLoop r more offset into).stride = into.stride ∧
      (copyLoop r more offset into).contents = into.contents ++ r.contents.drop offset := by
  induction more generalizing into offset with
  | zero =>
    refine ⟨hinto, rfl, rfl, ?_⟩
    unfold copyLoop
    rw [drop_eq_nil_of_le (by rw [contents_length]; omega), append_nil]
  | succ _ ih =>
    have hlt : offset < r.count := by omega
    have hf : (r.read (r.slot offset)).length ≤ into.stride := by
      rw [h.length_read (h.slot_lt offset), hs]
      exact h.len_le _
    have hsl : into.slot into.count = offset := by
      unfold slot
      rw [hh, ho, Nat.zero_add, Nat.mod_eq_of_lt (by omega)]
    obtain ⟨hwf, hc⟩ := push_spec hinto (by omega) hf (r.tag (r.slot offset))
    have hlen : (into.push (r.tag (r.slot offset)) (r.read (r.slot offset))).lens.length =
        into.lens.length := length_set
    have hpush : ({ into.put offset (r.tag (r.slot offset)) (r.read (r.slot offset)) with
        count := into.count + 1 } : ByteRing α β) =
        into.push (r.tag (r.slot offset)) (r.read (r.slot offset)) := by
      unfold push
      rw [hsl]
    unfold copyLoop
    rw [hpush]
    obtain ⟨hwf', hlen', hs', hc'⟩ := ih hwf hh
      (congrArg (· + 1) ho) (by omega) hs (by rw [hlen]; exact hrm)
    refine ⟨hwf', hlen'.trans hlen, hs', ?_⟩
    have hg := contents_getElem? h hlt
    obtain ⟨_, heq⟩ := List.getElem?_eq_some_iff.mp hg
    rw [hc', hc, append_assoc, ← heq, singleton_append, ← drop_eq_getElem_cons]

theorem grow_spec [Inhabited β] (h : r.Wf) (slots : ℕ) : (r.grow slots).Wf ∧
    (r.grow slots).stride = r.stride ∧
    (r.grow slots).lens.length = max slots r.lens.length ∧
    (r.grow slots).contents = r.contents := by
  unfold grow
  split
  · next hle => exact ⟨h, rfl, (Nat.max_eq_right hle).symm, rfl⟩
  rename_i hgt
  have hcn := h.count
  have hsz : (ofSize r.stride slots : ByteRing α β).lens.length = slots := by
    unfold ofSize
    rw [length_replicate]
  have hinto : (ofSize r.stride slots : ByteRing α β).Wf := ofSize_wf (by omega)
  have hc' : (ofSize r.stride slots : ByteRing α β).count = 0 := rfl
  obtain ⟨hwf, hlen, hs, hc⟩ := copyLoop_spec r.count h hinto rfl hc'
    (Nat.zero_add _) rfl (by rw [hsz]; omega)
  refine ⟨hwf, hs, ?_, hc⟩
  omega

end ByteRing
end WgFrag.Lib
