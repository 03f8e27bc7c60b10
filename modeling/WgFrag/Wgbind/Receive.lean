import Mathlib.Data.List.Infix
import WgFrag.Basic
import WgFrag.Lib.Segments

/-! The receive side of the Linux bind with UDP GRO. The kernel's messages are read into the last
slots of a batch and split into datagrams from the first slot on, in the same buffers. -/
namespace WgFrag.Wgbind
open WgFrag.Lib.Segments List

def udpSegmentMaxDatagrams : ℕ := 64
def gsoDataSize : ℕ := 2
def solUDP : ℕ := 17
def udpGRO : ℕ := 104

structure ControlMessage where
  level : ℕ
  type : ℕ
  data : Bytes
  deriving DecidableEq, Repr

/-- A message of the pool: its buffer, the bytes and the ancillary messages received, and the
address of the sender. An ancillary message that does not parse is `none`. -/
structure Message (α : Type) where
  buffer : Bytes
  n : ℕ := 0
  control : List (Option ControlMessage) := []
  addr : Option α := none
  deriving DecidableEq, Repr

/-- The segment size in the native byte order, zero if none is reported. -/
def getGROSize : List (Option ControlMessage) → Option ℕ
  | [] => some 0
  | none :: _ => none
  | some m :: rest =>
    if m.level = solUDP ∧ m.type = udpGRO ∧ gsoDataSize ≤ m.data.length then
      some ((m.data.getD 0 0).toNat + (m.data.getD 1 0).toNat * 256)
    else getGROSize rest

/-- The first of the slots that the kernel fills. -/
def readAt (packets : ℕ) : ℕ :=
  packets - (if packets / udpSegmentMaxDatagrams = 0 then 1 else packets / udpSegmentMaxDatagrams)

inductive SplitError where
  | invalidRange
  | invalidCount
  | controlMessage
  | overflow
  deriving DecidableEq, Repr

variable {α : Type}

/-- Go's `copy`. -/
def copyInto (buffer bytes : Bytes) : Bytes :=
  bytes.take buffer.length ++ buffer.drop bytes.length

/-- A slot after a datagram was copied into it. -/
def Message.hold (m : Message α) (bytes : Bytes) (addr : Option α) : Message α :=
  { buffer := copyInto m.buffer bytes, n := min bytes.length m.buffer.length, control := [],
    addr := addr }

/-- The loop over the datagrams of the message in slot `i`. Each round reads the message anew. -/
def splitSegments (i gsoSize capacity : ℕ) :
    ℕ → ℕ → ℕ → ℕ → List (Message α) → (ℕ × Option SplitError) × List (Message α)
  | 0, n, _, _, msgs => ((n, none), msgs)
  | k + 1, n, start, stop, msgs =>
    match msgs[i]?, msgs[n]? with
    | some msg, some out =>
      if i < n ∨ capacity ≤ n then ((n, some .overflow), msgs)
      else
        let stop := if msg.n < stop then msg.n else stop
        let bytes := (msg.buffer.drop start).take (stop - start)
        splitSegments i gsoSize capacity k (n + 1) stop (stop + gsoSize)
          (msgs.set n (out.hold bytes msg.addr))
    | _, _ => ((n, some .overflow), msgs)

/-- The slot of a message is emptied unless it holds the last datagram. -/
def cleared (msgs : List (Message α)) (i stop : ℕ) : List (Message α) :=
  if i + 1 ≠ stop then msgs.modify i fun m => { m with n := 0 } else msgs

/-- The loop over the messages from slot `i` on. -/
def splitMessages (capacity : ℕ) :
    ℕ → ℕ → ℕ → List (Message α) → (ℕ × Option SplitError) × List (Message α)
  | 0, _, n, msgs => ((n, none), msgs)
  | k + 1, i, n, msgs =>
    match msgs[i]? with
    | none => ((n, some .invalidCount), msgs)
    | some msg =>
      if msg.n = 0 then ((n, none), msgs)
      else
        match getGROSize msg.control with
        | none => ((n, some .controlMessage), msgs)
        | some gsoSize =>
          let numToSplit := if 0 < gsoSize then (msg.n + gsoSize - 1) / gsoSize else 1
          let stop := if 0 < gsoSize then gsoSize else msg.n
          match splitSegments i gsoSize capacity numToSplit n 0 stop msgs with
          | ((n, some err), msgs) => ((n, some err), msgs)
          | ((n, none), msgs) => splitMessages capacity k (i + 1) n (cleared msgs i n)

def splitCoalescedMessages (msgs : List (Message α)) (firstMsgAt numMsgs capacity : ℕ) :
    (ℕ × Option SplitError) × List (Message α) :=
  if msgs.length < firstMsgAt ∨ msgs.length - firstMsgAt < numMsgs then
    ((0, some .invalidRange), msgs)
  else splitMessages capacity numMsgs firstMsgAt 0 msgs

/-! ### Datagrams -/

namespace Message

def payload (m : Message α) : Bytes := m.buffer.take m.n

/-- The datagrams of a message with the sender's address. An empty message has none. -/
def outputs (m : Message α) : List (Bytes × Option α) :=
  if m.n = 0 then []
  else (cut ((getGROSize m.control).getD 0) m.payload).map fun bytes => (bytes, m.addr)

/-- What the kernel may leave in a slot of `size` bytes. -/
structure Valid (size : ℕ) (m : Message α) : Prop where
  fits : m.n ≤ size
  reported : ∃ gsoSize, getGROSize m.control = some gsoSize
  bounded : m.outputs.length ≤ udpSegmentMaxDatagrams

/-- A slot holds a datagram and the address of its sender. -/
structure Holds (size : ℕ) (m : Message α) (output : Bytes × Option α) : Prop where
  length : m.n = output.1.length
  bytes : m.payload = output.1
  addr : m.addr = output.2
  size : m.buffer.length = size

theorem hold_holds {m : Message α} {bytes : Bytes} (h : bytes.length ≤ m.buffer.length)
    (addr : Option α) : Holds m.buffer.length (m.hold bytes addr) (bytes, addr) := by
  have hn : (m.hold bytes addr).n = bytes.length := Nat.min_eq_left h
  refine ⟨hn, ?_, rfl, ?_⟩
  · unfold payload
    rw [hn]
    show (copyInto m.buffer bytes).take bytes.length = bytes
    unfold copyInto
    rw [take_of_length_le h, take_left' rfl]
  · show (copyInto m.buffer bytes).length = m.buffer.length
    unfold copyInto
    rw [take_of_length_le h, length_append, length_drop]
    omega

end Message

/-- Outputs were written to the slots from `n` on and nowhere else. -/
structure Written (size : ℕ) (msgs msgs' : List (Message α)) (n : ℕ)
    (outputs : List (Bytes × Option α)) : Prop where
  length : msgs'.length = msgs.length
  outside : ∀ t, t < n ∨ n + outputs.length ≤ t → msgs'[t]? = msgs[t]?
  inside : ∀ j output, outputs[j]? = some output →
    ∃ m, msgs'[n + j]? = some m ∧ m.Holds size output

theorem Written.cons {size n : ℕ} {msgs msgs' : List (Message α)} {m : Message α}
    {output : Bytes × Option α} {outputs : List (Bytes × Option α)} (hm : m.Holds size output)
    (hn : n < msgs.length) (h : Written size (msgs.set n m) msgs' (n + 1) outputs) :
    Written size msgs msgs' n (output :: outputs) := by
  refine ⟨h.length.trans length_set, fun t ht => ?_, fun j o hj => ?_⟩
  · rw [length_cons] at ht
    rw [h.outside t (by omega), getElem?_set_ne (by omega)]
  cases j with
  | zero =>
    obtain rfl := Option.some.inj hj
    refine ⟨m, ?_, hm⟩
    rw [Nat.add_zero, h.outside n (by omega), getElem?_set_self hn]
  | succ j =>
    rw [show n + (j + 1) = n + 1 + j by omega]
    exact h.inside j o hj

/-! ### One message -/

section Segments
variable {i n k w capacity size : ℕ} {msgs : List (Message α)} {m : Message α}

private theorem piece_eq (m : Message α) (start w : ℕ) :
    (m.buffer.drop start).take ((if m.n < start + w then m.n else start + w) - start) =
      (m.payload.drop start).take w := by
  unfold Message.payload
  rw [drop_take, take_take]
  congr 1
  split <;> omega

private theorem rest_eq (m : Message α) (start w : ℕ) (h : m.payload.length = m.n) :
    m.payload.drop (if m.n < start + w then m.n else start + w) =
      (m.payload.drop start).drop w := by
  rw [drop_drop]
  split
  · rw [drop_of_length_le (by omega), drop_of_length_le (by omega)]
  · rfl

/-- The pieces of a message are written to the slots from `n` on. A slot that is written is before
the message, or it is the slot of the message itself and its last piece is written. -/
theorem splitSegments_spec (gsoSize start : ℕ) (hm : msgs[i]? = some m)
    (hc : i < capacity) (hrm : n + k ≤ i + 1)
    (hsz : ∀ t out, t ≤ i → msgs[t]? = some out → out.buffer.length = size)
    (hf : m.n ≤ size) (hw : 2 ≤ k → gsoSize = w) :
    ∃ msgs', splitSegments i gsoSize capacity k n start (start + w) msgs = ((n + k, none), msgs') ∧
      Written size msgs msgs' n
        ((pieces w k (m.payload.drop start)).map fun bytes => (bytes, m.addr)) := by
  induction k generalizing n start msgs with
  | zero =>
    refine ⟨msgs, rfl, rfl, fun t _ => rfl, fun j o hj => ?_⟩
    cases hj
  | succ k ih =>
    have := lt_of_get hm
    have hp : m.payload.length = m.n := by
      have := hsz i m (Nat.le_refl i) hm
      unfold Message.payload
      rw [length_take]
      omega
    have hn : n < msgs.length := by omega
    have ho := getElem?_eq_getElem hn
    have hlen := hsz n _ (by omega) ho
    have hpi : ((m.payload.drop start).take w).length ≤ (msgs[n]).buffer.length := by
      rw [hlen, length_take, length_drop]
      omega
    have hh := Message.hold_holds hpi m.addr
    rw [hlen] at hh
    unfold splitSegments
    rw [hm, ho]
    dsimp only
    rw [if_neg (by omega), piece_eq]
    cases k with
    | zero =>
      exact ⟨_, rfl, Written.cons hh hn ⟨rfl, fun t _ => rfl, fun j o hj => by cases hj⟩⟩
    | succ k =>
      rw [hw (by omega)]
      have hsz' : ∀ t out, t ≤ i → (msgs.set n ((msgs[n]).hold ((m.payload.drop start).take w)
          m.addr))[t]? = some out → out.buffer.length = size := by
        intro t out ht hg
        by_cases heq : n = t
        · subst heq
          rw [getElem?_set_self hn] at hg
          cases hg
          exact hh.size
        · rw [getElem?_set_ne heq] at hg
          exact hsz t out ht hg
      have hm' : (msgs.set n ((msgs[n]).hold ((m.payload.drop start).take w) m.addr))[i]? =
          some m := by
        rw [getElem?_set_ne (by omega)]
        exact hm
      obtain ⟨msgs', hrun, hwr⟩ := ih (if m.n < start + w then m.n else start + w) hm'
        (show n + 1 + (k + 1) ≤ i + 1 by omega) hsz' (fun _ => hw (by omega))
      refine ⟨msgs', ?_, Written.cons hh hn ?_⟩
      · rw [hw (by omega)] at hrun
        rw [hrun]
        congr 2
        omega
      · rw [rest_eq m start w hp] at hwr
        exact hwr

end Segments

/-! ### All messages -/

section Messages
variable {i n capacity size : ℕ} {msgs : List (Message α)}
variable {m : Message α} {ms : List (Message α)}

/-- The datagrams of a non-empty message are the pieces that the loop counts. -/
theorem outputs_eq {gsoSize : ℕ} (hne : m.n ≠ 0) (hlen : m.payload.length = m.n)
    (hg : getGROSize m.control = some gsoSize) :
    m.outputs = (pieces (if 0 < gsoSize then gsoSize else m.n)
      (if 0 < gsoSize then (m.n + gsoSize - 1) / gsoSize else 1) m.payload).map
        fun bytes => (bytes, m.addr) := by
  unfold Message.outputs cut
  rw [if_neg hne, hg, Option.getD_some, hlen]
  by_cases hz : gsoSize = 0
  · rw [if_pos hz, if_neg (by omega), if_neg (by omega), pieces, pieces,
      take_of_length_le (by omega)]
  · rw [if_neg hz, if_pos (by omega), if_pos (by omega)]

/-- What the loop finds before the message in slot `i`: `ms` are the messages that it has not read
yet, and there are 63 free slots for each of them. -/
structure Unread (size i n capacity : ℕ) (msgs ms : List (Message α)) : Prop where
  slots : ∀ t m, ms[t]? = some m → msgs[i + t]? = some m
  valid : ∀ m ∈ ms, m.Valid size
  sizes : ∀ t out, t < i + ms.length → msgs[t]? = some out → out.buffer.length = size
  room : n + 63 * ms.length ≤ i
  capacity : i + ms.length ≤ capacity

/-- The messages that the loop reads: it ends at the first empty one. -/
def readable (ms : List (Message α)) : List (Message α) := ms.takeWhile fun m => m.n ≠ 0

theorem readable_cons (hm : m.n ≠ 0) : readable (m :: ms) = m :: readable ms :=
  takeWhile_cons_of_pos (decide_eq_true hm)

theorem readable_empty (hm : m.n = 0) : readable (m :: ms) = [] :=
  takeWhile_cons_of_neg (by rw [decide_eq_true_iff, not_not]; exact hm)

private theorem outputs_ne_nil (hne : m.n ≠ 0) (hlen : m.payload.length = m.n) :
    m.outputs ≠ [] := by
  unfold Message.outputs
  rw [if_neg hne]
  have hp : m.payload ≠ [] := by
    rw [← length_pos_iff]
    omega
  exact fun hmap => cut_ne_nil hp (map_eq_nil_iff.mp hmap)

/-- No datagram is lost if and only if an empty message is followed by empty ones only. -/
theorem readable_outputs (hlen : ∀ m ∈ ms, m.payload.length = m.n) :
    ((readable ms).flatMap Message.outputs).length = (ms.flatMap Message.outputs).length ↔
      ms.Pairwise fun a b => a.n = 0 → b.n = 0 := by
  induction ms with
  | nil => exact ⟨fun _ => .nil, fun _ => rfl⟩
  | cons m ms ih =>
    have ih := ih fun m' hm' => hlen m' (mem_cons_of_mem _ hm')
    rw [pairwise_cons]
    by_cases hm : m.n = 0
    · have hou : m.outputs = [] := if_pos hm
      rw [readable_empty hm, flatMap_nil, length_nil, flatMap_cons, hou, nil_append, eq_comm,
        length_eq_zero_iff, flatMap_eq_nil_iff]
      constructor
      · intro hnil
        have hz : ∀ b ∈ ms, b.n = 0 := fun b hb => by
          by_contra hne
          exact outputs_ne_nil hne (hlen b (mem_cons_of_mem _ hb)) (hnil b hb)
        exact ⟨fun b hb _ => hz b hb,
          pairwise_iff_getElem.mpr fun _ _ _ hj _ _ => hz _ (getElem_mem hj)⟩
      · intro hpw b hb
        exact if_pos (hpw.1 b hb hm)
    · rw [readable_cons hm, flatMap_cons, flatMap_cons, length_append, length_append,
        Nat.add_left_cancel_iff, ih]
      exact ⟨fun hpw => ⟨fun _ _ hz => absurd hz hm, hpw⟩, And.right⟩

section Cleared
variable {stop t : ℕ}

private theorem cleared_length (msgs : List (Message α)) (i stop : ℕ) :
    (cleared msgs i stop).length = msgs.length := by
  unfold cleared
  split
  · exact length_modify ..
  · rfl

theorem cleared_get (h : t ≠ i ∨ i + 1 = stop) : (cleared msgs i stop)[t]? = msgs[t]? := by
  unfold cleared
  split
  · rw [getElem?_modify_ne _ _ (by omega)]
  · rfl

private theorem cleared_buffer {out : Message α} (h : (cleared msgs i stop)[t]? = some out) :
    ∃ out', msgs[t]? = some out' ∧ out.buffer = out'.buffer := by
  by_cases heq : t ≠ i ∨ i + 1 = stop
  · rw [cleared_get heq] at h
    exact ⟨out, h, rfl⟩
  obtain ⟨hi, hs⟩ := not_or.mp heq
  obtain rfl := not_not.mp hi
  unfold cleared at h
  rw [if_pos hs, getElem?_modify_eq] at h
  cases hg : msgs[t]? with
  | none => simp [hg] at h
  | some out' =>
    simp only [hg] at h
    cases h
    exact ⟨out', rfl, rfl⟩

end Cleared

theorem Unread.split (h : Unread size i n capacity msgs (m :: ms)) (hne : m.n ≠ 0) :
    ∃ msgs', splitMessages capacity (ms.length + 1) i n msgs =
        splitMessages capacity ms.length (i + 1) (n + m.outputs.length) msgs' ∧
      Unread size (i + 1) (n + m.outputs.length) capacity msgs' ms ∧
      msgs'.length = msgs.length ∧ (∀ t < n, msgs'[t]? = msgs[t]?) ∧
      ∀ j output, m.outputs[j]? = some output →
        ∃ out, msgs'[n + j]? = some out ∧ out.Holds size output := by
  have hm : msgs[i]? = some m := h.slots 0 m rfl
  have hv := h.valid m mem_cons_self
  have hrm := h.room
  have hc := h.capacity
  rw [length_cons] at hrm hc
  obtain ⟨gsoSize, hgs⟩ := hv.reported
  have hs : ∀ t out, t ≤ i → msgs[t]? = some out → out.buffer.length = size :=
    fun t out ht => h.sizes t out (by rw [length_cons]; omega)
  have hp : m.payload.length = m.n := by
    have := hs i m (Nat.le_refl i) hm
    have := hv.fits
    unfold Message.payload
    rw [length_take]
    omega
  have hou := outputs_eq hne hp hgs
  have hcn := congrArg List.length hou
  rw [length_map, pieces_length] at hcn
  have hb := hv.bounded
  unfold udpSegmentMaxDatagrams at hb
  obtain ⟨msgs', hrun, hw⟩ := splitSegments_spec (n := n)
    (k := if 0 < gsoSize then (m.n + gsoSize - 1) / gsoSize else 1)
    (w := if 0 < gsoSize then gsoSize else m.n) gsoSize 0 hm
    (show i < capacity by omega) (by omega) hs hv.fits (by split <;> omega)
  rw [drop_zero, ← hou] at hw
  rw [Nat.zero_add, ← hcn] at hrun
  refine ⟨cleared msgs' i (n + m.outputs.length), ?_,
    ⟨fun t m' ht => ?_, fun m' hm' => h.valid m' (mem_cons_of_mem _ hm'),
      fun t out ht hg => ?_, by omega, by omega⟩,
    (cleared_length ..).trans hw.length, fun t ht => ?_, fun j output hj => ?_⟩
  · conv_lhs => unfold splitMessages
    rw [hm]
    dsimp only
    rw [if_neg hne, hgs]
    dsimp only
    rw [← hcn, hrun]
  · rw [cleared_get (.inl (by omega)), hw.outside _ (.inr (by omega)), Nat.add_right_comm]
    exact h.slots (t + 1) m' ht
  · obtain ⟨out', hg', hbu⟩ := cleared_buffer hg
    rw [hbu]
    by_cases hi : n ≤ t ∧ t < n + m.outputs.length
    · have ho := getElem?_eq_getElem (show t - n < m.outputs.length by omega)
      obtain ⟨_, hm', hh⟩ := hw.inside (t - n) _ ho
      rw [show n + (t - n) = t by omega, hg'] at hm'
      cases hm'
      exact hh.size
    · rw [hw.outside t (by omega)] at hg'
      exact h.sizes t out' (by rw [length_cons]; omega) hg'
  · rw [cleared_get (.inl (by omega)), hw.outside t (.inl ht)]
  · have := lt_of_get hj
    rw [cleared_get (by omega)]
    exact hw.inside j output hj

/-- The loop writes the datagrams of the messages that it reads, in order. -/
theorem Unread.run (h : Unread size i n capacity msgs ms) :
    ∃ msgs', splitMessages capacity ms.length i n msgs =
        ((n + ((readable ms).flatMap Message.outputs).length, none), msgs') ∧
      (∀ t < n, msgs'[t]? = msgs[t]?) ∧
      ∀ j output, ((readable ms).flatMap Message.outputs)[j]? = some output →
        ∃ out, msgs'[n + j]? = some out ∧ out.Holds size output := by
  induction ms generalizing i n msgs with
  | nil => exact ⟨msgs, rfl, fun t _ => rfl, fun j output hj => by cases hj⟩
  | cons m _ ih =>
    by_cases hm : m.n = 0
    · have hms : msgs[i]? = some m := h.slots 0 m rfl
      rw [readable_empty hm]
      refine ⟨msgs, ?_, fun t _ => rfl, fun j output hj => by cases hj⟩
      rw [length_cons, splitMessages, hms]
      dsimp only
      rw [if_pos hm]
      rfl
    · obtain ⟨_, hst, hu, -, hb, hh⟩ := h.split hm
      obtain ⟨msgs2, hrun, hk, hr⟩ := ih hu
      rw [readable_cons hm, flatMap_cons]
      refine ⟨msgs2, ?_, fun t ht => ?_, fun j output hj => ?_⟩
      · rw [length_cons, hst, hrun, length_append, Nat.add_assoc]
      · rw [hk t (by omega), hb t ht]
      by_cases hf : j < m.outputs.length
      · rw [getElem?_append_left hf] at hj
        rw [hk (n + j) (by omega)]
        exact hh j output hj
      · rw [getElem?_append_right (by omega)] at hj
        obtain ⟨out, ho, hho⟩ := hr _ output hj
        refine ⟨out, ?_, hho⟩
        rw [← ho]
        congr 1
        omega

end Messages

/-- The messages that the kernel left in a batch of buffers. -/
def arrived (msgs : List (Message α)) (packets numMsgs : ℕ) : List (Message α) :=
  (msgs.drop (readAt packets)).take numMsgs

/-- A receive batch: at least 64 buffers of one size, of which the kernel filled some of the last
ones. -/
structure Batch (msgs : List (Message α)) (packets numMsgs size : ℕ) : Prop where
  large : udpSegmentMaxDatagrams ≤ packets
  pool : packets ≤ msgs.length
  reserved : numMsgs ≤ packets / udpSegmentMaxDatagrams
  sizes : ∀ t m, t < packets → msgs[t]? = some m → m.buffer.length = size
  valid : ∀ m ∈ arrived msgs packets numMsgs, m.Valid size

/-- There is no error, and the outputs are the datagrams of all messages, in order. -/
def SplitsAll (msgs : List (Message α)) (packets numMsgs size : ℕ) : Prop :=
  ∃ msgs', splitCoalescedMessages msgs (readAt packets) numMsgs packets =
      ((((arrived msgs packets numMsgs).flatMap Message.outputs).length, none), msgs') ∧
    ∀ (j : ℕ) (output : Bytes × Option α),
      ((arrived msgs packets numMsgs).flatMap Message.outputs)[j]? = some output →
      ∃ out, msgs'[j]? = some out ∧ out.Holds size output

section Batch
variable {msgs : List (Message α)} {packets numMsgs size : ℕ} (h : Batch msgs packets numMsgs size)
include h

theorem Batch.unread :
    Unread size (readAt packets) 0 packets msgs (arrived msgs packets numMsgs) ∧
      (arrived msgs packets numMsgs).length = numMsgs ∧ readAt packets + numMsgs ≤ msgs.length := by
  have hpac := h.large
  have hpool := h.pool
  have hnum := h.reserved
  unfold udpSegmentMaxDatagrams at hpac hnum
  have hread : readAt packets = packets - packets / 64 := by
    unfold readAt udpSegmentMaxDatagrams
    rw [if_neg (by omega)]
  have hlen : (arrived msgs packets numMsgs).length = numMsgs := by
    unfold arrived
    rw [length_take, length_drop]
    omega
  refine ⟨⟨fun t m ht => ?_, h.valid, fun t out ht => h.sizes t out (by omega), by omega,
    by omega⟩, hlen, by omega⟩
  obtain ⟨_, -⟩ := List.getElem?_eq_some_iff.mp ht
  unfold arrived at ht
  rw [getElem?_take_of_lt (by omega), getElem?_drop] at ht
  exact ht

/-- The outputs are the datagrams of all messages, in order, if and only if no empty message is
followed by one that is not empty. -/
theorem split_datagrams : SplitsAll msgs packets numMsgs size ↔
    (arrived msgs packets numMsgs).Pairwise fun a b => a.n = 0 → b.n = 0 := by
  obtain ⟨hunread, hlen, hrange⟩ := h.unread
  have hpayload : ∀ m ∈ arrived msgs packets numMsgs, m.payload.length = m.n := by
    intro m hm
    obtain ⟨t, ht, rfl⟩ := mem_iff_getElem.mp hm
    have hslot := hunread.slots t _ (getElem?_eq_getElem ht)
    have hsize := hunread.sizes _ _ (Nat.add_lt_add_left ht _) hslot
    unfold Message.payload
    rw [length_take, hsize, Nat.min_eq_left (h.valid _ hm).fits]
  obtain ⟨msgs', hrun, -, hheld⟩ := hunread.run
  rw [hlen, Nat.zero_add] at hrun
  have hsplit : splitCoalescedMessages msgs (readAt packets) numMsgs packets =
      ((((readable (arrived msgs packets numMsgs)).flatMap Message.outputs).length, none),
        msgs') := by
    unfold splitCoalescedMessages
    rw [if_neg (by omega)]
    exact hrun
  rw [← readable_outputs hpayload]
  constructor
  · rintro ⟨_, hall, -⟩
    rw [hsplit] at hall
    exact congrArg (·.1.1) hall
  · intro hcount
    have hpre : (readable (arrived msgs packets numMsgs)).flatMap Message.outputs =
        (arrived msgs packets numMsgs).flatMap Message.outputs :=
      (IsPrefix.flatMap ( takeWhile_prefix _) _).eq_of_length hcount
    rw [hpre] at hsplit hheld
    refine ⟨msgs', hsplit, fun j output hj => ?_⟩
    rw [← Nat.zero_add j]
    exact hheld j output hj

end Batch

/-- Two buffers of a batch of 128 are filled. -/
def sampleBatch (first second : Message ℕ) : List (Message ℕ) :=
  List.replicate 126 { buffer := [0, 0, 0] } ++ [first, second]

private theorem sampleBatch_batch {first second : Message ℕ} (hf : first.buffer.length = 3)
    (hs : second.buffer.length = 3) (hv : first.Valid 3) (hv' : second.Valid 3) :
    Batch (sampleBatch first second) 128 2 3 := by
  refine ⟨by decide, Nat.le_refl 128, by decide, fun t m ht hg => ?_, fun m hm => ?_⟩
  · have hmem := mem_of_getElem? hg
    unfold sampleBatch at hmem
    rcases mem_append.mp hmem with hmem | hmem
    · rw [eq_of_mem_replicate hmem]
      rfl
    simp only [mem_cons, not_mem_nil, or_false] at hmem
    rcases hmem with rfl | rfl
    · exact hf
    · exact hs
  · have ha : arrived (sampleBatch first second) 128 2 = [first, second] := rfl
    rw [ha] at hm
    simp only [mem_cons, not_mem_nil, or_false] at hm
    rcases hm with rfl | rfl
    · exact hv
    · exact hv'

/-- A message of two datagrams with a segment size of two bytes. -/
def sampleCoalesced : Message ℕ := ⟨[1, 2, 3], 3, [some ⟨17, 104, [2, 0, 0, 0]⟩], some 1⟩

def sampleSingle : Message ℕ := ⟨[4, 5, 6], 2, [], some 2⟩

theorem split_datagrams_sample : ∃ msgs', splitCoalescedMessages
    (sampleBatch sampleCoalesced sampleSingle) (readAt 128) 2 128 = ((3, none), msgs') := by
  have hbat : Batch (sampleBatch sampleCoalesced sampleSingle) 128 2 3 :=
    sampleBatch_batch rfl rfl ⟨by decide, ⟨2, rfl⟩, by decide⟩ ⟨by decide, ⟨0, rfl⟩, by decide⟩
  obtain ⟨msgs', hrun, -⟩ := (split_datagrams hbat).mpr (by decide)
  exact ⟨msgs', hrun⟩

/-- An empty message from one sender hides the datagram of another one. -/
theorem empty_message_drops_later :
    Batch (sampleBatch ⟨[0, 0, 0], 0, [], some 1⟩ sampleSingle) 128 2 3 ∧
    (splitCoalescedMessages (sampleBatch ⟨[0, 0, 0], 0, [], some 1⟩ sampleSingle) (readAt 128) 2
      128).1 = (0, none) ∧
    (arrived (sampleBatch ⟨[0, 0, 0], 0, [], some 1⟩ sampleSingle) 128 2).flatMap
      Message.outputs = [([4, 5], some 2)] := by
  refine ⟨sampleBatch_batch rfl rfl ⟨by decide, ⟨0, rfl⟩, by decide⟩
    ⟨by decide, ⟨0, rfl⟩, by decide⟩, by decide +kernel, by decide +kernel⟩

end WgFrag.Wgbind
