import WgFrag.Wgbind.Send

/-! Datagrams that are too large for the path. The kernel refuses a whole message for its segment
size, and the messages around it are sent. -/
namespace WgFrag.Wgbind
open WgFrag.Lib.Segments List

/-! ### The kernel -/

namespace Outgoing

def payload (m : Outgoing) : Bytes := m.buffers.flatten

/-- The datagrams that a message becomes on the wire. -/
def segments (m : Outgoing) : List Bytes := cut (m.gso.getD 0) m.payload

def segmentSize (m : Outgoing) : ℕ := m.gso.getD m.payload.length

end Outgoing

/-- A kernel that sends messages in order, in one call or in several, and refuses with EMSGSIZE
exactly the messages whose segment size exceeds `M`. `wire` are the datagrams sent so far. -/
structure Kernel.Limited {σ : Type} (K : Kernel σ) (M : ℕ) (wire : σ → List Bytes) : Prop where
  write : ∀ msgs s, msgs ≠ [] → ∃ k, k ≤ msgs.length ∧ (∀ m ∈ msgs.take k, m.segmentSize ≤ M) ∧
    wire (K.writeBatch msgs s).2 = wire s ++ (msgs.take k).flatMap Outgoing.segments ∧
    (K.writeBatch msgs s).1.1.toNat = k ∧
    ((K.writeBatch msgs s).1.2 = none ∧ 0 < k ∨
      (K.writeBatch msgs s).1.2 = some .emsgsize ∧
        ∃ m, msgs[k]? = some m ∧ M < m.segmentSize)
  drain : ∀ s, wire (K.drain s).2 = wire s

section Loop
variable {σ : Type} {K : Kernel σ} {M : ℕ} {wire : σ → List Bytes}

private theorem reportRefused_wire (h : K.Limited M wire) (size : Option ℕ) (s : Net σ) :
    wire (reportRefused K size s).1 = wire s.1 := by
  have hd := h.drain s.1
  unfold reportRefused drainSendErrors
  dsimp only
  split
  · exact hd
  · exact hd

/-- The datagrams of the messages that the kernel does not refuse. -/
def accepted (M : ℕ) (msgs : List Outgoing) : List Bytes :=
  (msgs.filter fun m => m.segmentSize ≤ M).flatMap Outgoing.segments

theorem accepted_append (M : ℕ) (msgs msgs' : List Outgoing) :
    accepted M (msgs ++ msgs') = accepted M msgs ++ accepted M msgs' := by
  unfold accepted
  rw [filter_append, flatMap_append]

private theorem accepted_all {msgs : List Outgoing} (h : ∀ m ∈ msgs, m.segmentSize ≤ M) :
    accepted M msgs = msgs.flatMap Outgoing.segments := by
  unfold accepted
  rw [filter_eq_self.mpr fun m hm => decide_eq_true (h m hm)]

theorem accepted_refused {m : Outgoing} (h : M < m.segmentSize) (msgs : List Outgoing) :
    accepted M (m :: msgs) = accepted M msgs := by
  unfold accepted
  rw [filter_cons_of_neg (by simpa using h)]

/-- The loop ends without an error once every message was sent or refused. -/
theorem sendLoop_accepted (h : K.Limited M wire) {rounds : ℕ} {msgs : List Outgoing}
    (hro : msgs.length ≤ rounds) (sent : ℕ) (s : Net σ) :
    ∃ sent' t, sendLoop K rounds msgs sent s = some ((sent', none), t) ∧
      wire t.1 = wire s.1 ++ accepted M msgs := by
  induction rounds generalizing msgs sent s with
  | zero =>
    obtain rfl := length_eq_zero_iff.mp (Nat.le_zero.mp hro)
    exact ⟨sent, s, by rw [sendLoop], (append_nil _).symm⟩
  | succ rounds ih =>
    cases msgs with
    | nil => exact ⟨sent, s, by rw [sendLoop], (append_nil _).symm⟩
    | cons m msgs =>
      obtain ⟨k, _, hs, hwire, hn, hen⟩ := h.write (m :: msgs) s.1 (cons_ne_nil m msgs)
      have hsp : accepted M (m :: msgs) =
          ((m :: msgs).take k).flatMap Outgoing.segments ++ accepted M ((m :: msgs).drop k) := by
        rw [← accepted_all hs, ← accepted_append, take_append_drop]
      have hlen : ((m :: msgs).drop k).length = (m :: msgs).length - k := length_drop ..
      unfold sendLoop
      dsimp only
      rw [if_neg (by omega), hn]
      rcases hen with ⟨he, _⟩ | ⟨he, refused, hre, hl⟩
      · rw [he]
        rw [if_pos (by omega)]
        have hls : ((m :: msgs).drop k).length ≤ rounds := by omega
        obtain ⟨sent', t, hrun, hd⟩ := ih hls (sent + k) (_, s.2)
        refine ⟨sent', t, hrun, ?_⟩
        rw [hd, hwire, hsp, append_assoc]
      · rw [he]
        have hlt := lt_of_get hre
        have hr : (m :: msgs).drop k = refused :: (m :: msgs).drop (k + 1) := by
          rw [drop_eq_getElem_cons hlt]
          congr 1
          rw [getElem?_eq_getElem hlt] at hre
          exact Option.some.inj hre
        rw [hr, drop_one, tail_cons]
        have hls : ((m :: msgs).drop (k + 1)).length ≤ rounds := by
          rw [length_drop]
          omega
        obtain ⟨sent', t, hrun, hd⟩ := ih hls (sent + k) (reportRefused K _ (_, s.2))
        refine ⟨sent', t, hrun, ?_⟩
        rw [hd, reportRefused_wire h, hwire, hsp, hr, accepted_refused hl,
          append_assoc]

end Loop

/-! ### Coalescing -/

/-- Datagrams of one size with a last one that may be shorter. -/
structure Filled (g : ℕ) (full : List Bytes) (last : Bytes) : Prop where
  equal : ∀ p ∈ full, p.length = g
  shorter : last.length ≤ g
  nonempty : last ≠ []
  single : full = [] → last.length = g

/-- The kernel cuts a coalesced message into the datagrams it was made of. -/
structure Regular (m : Outgoing) : Prop where
  segments : m.segments = m.buffers
  filled : ∃ full last, m.buffers = full ++ [last] ∧ Filled m.segmentSize full last

/-- The message that the loop fills. -/
structure Filling (buffers : List Bytes) (baseLen g count : ℕ) (endBatch : Bool) : Prop where
  filled : ∃ full last, buffers = full ++ [last] ∧ Filled g full last ∧
    (endBatch = false → last.length = g)
  counted : count = buffers.length
  length : g ≤ baseLen
  small : 1 < count → g < 65536

theorem Filling.start {packet : Bytes} (h : packet ≠ []) :
    Filling [packet] packet.length packet.length 1 false :=
  ⟨⟨[], packet, rfl, ⟨fun p hp => absurd hp not_mem_nil, Nat.le_refl _, h, fun _ => rfl⟩,
    fun _ => rfl⟩, rfl, Nat.le_refl _, by omega⟩

theorem Filling.append {buffers : List Bytes} {baseLen g count : ℕ} {packet : Bytes}
    (h : Filling buffers baseLen g count false) (hne : packet ≠ []) (hle : packet.length ≤ g)
    (hs : packet.length + baseLen < 65536) :
    Filling (buffers ++ [packet]) (baseLen + packet.length) g (count + 1) (packet.length < g) := by
  obtain ⟨full, last, rfl, hf, hl⟩ := h.filled
  have hlen := h.length
  refine ⟨⟨full ++ [last], packet, rfl, ⟨fun p hp => ?_, hle, hne, fun hn => ?_⟩, fun he => ?_⟩,
    ?_, by omega, fun _ => by omega⟩
  · rcases mem_append.mp hp with hp | hp
    · exact hf.equal p hp
    · rw [mem_singleton.mp hp]
      exact hl rfl
  · simp at hn
  · have := of_decide_eq_false he
    omega
  · rw [h.counted]
    simp

theorem Filling.regular {buffers : List Bytes} {baseLen g count : ℕ} {endBatch : Bool}
    (h : Filling buffers baseLen g count endBatch) : Regular (finishMessage buffers g count) := by
  obtain ⟨full, last, rfl, hf, -⟩ := h.filled
  have hpos := length_pos_iff.mpr hf.nonempty
  have hle := hf.shorter
  have hg : 0 < g := by omega
  by_cases hm : 1 < count
  · have hgs : finishMessage (full ++ [last]) g count = ⟨full ++ [last], some g⟩ := by
      unfold finishMessage
      rw [if_pos hm, Nat.mod_eq_of_lt (h.small hm)]
    rw [hgs]
    exact ⟨cut_flatten hg hf.equal hf.nonempty hle, full, last, rfl, hf⟩
  · have hgs : finishMessage (full ++ [last]) g count = ⟨full ++ [last], none⟩ := by
      unfold finishMessage
      rw [if_neg hm]
    have hc := h.counted
    rw [length_append, length_singleton] at hc
    obtain rfl : full = [] := length_eq_zero_iff.mp (by omega)
    have hp : [last].flatten = last := flatten_singleton
    rw [hgs]
    refine ⟨?_, [], last, rfl, ?_⟩
    · show cut 0 [last].flatten = [last]
      rw [hp]
      rfl
    · show Filled [last].flatten.length [] last
      rw [hp, hf.single rfl]
      exact hf

section Coalesce
variable {maxPayloadLen : ℕ}

/-- The loop passes every packet on, in regular messages of adjacent packets. -/
theorem coalesceLoop_regular (hmax : maxPayloadLen < 65536)
    {packets buffers : List Bytes} {baseLen g count : ℕ} {endBatch : Bool}
    (h : Filling buffers baseLen g count endBatch) (hne : ∀ p ∈ packets, p ≠ []) :
    (coalesceLoop maxPayloadLen packets buffers baseLen g count endBatch).flatMap
        Outgoing.buffers = buffers ++ packets ∧
      ∀ m ∈ coalesceLoop maxPayloadLen packets buffers baseLen g count endBatch, Regular m := by
  induction packets generalizing buffers baseLen g count endBatch with
  | nil =>
    refine ⟨rfl, fun m hm => ?_⟩
    rw [mem_singleton.mp hm]
    exact h.regular
  | cons packet packets ih =>
    have hpk := hne packet mem_cons_self
    have hr : ∀ p ∈ packets, p ≠ [] := fun p hp => hne p (mem_cons_of_mem _ hp)
    unfold coalesceLoop
    split
    · next hjoin =>
      obtain ⟨_, hle, -, rfl⟩ := hjoin
      rw [append_cons buffers packet packets]
      exact ih (h.append hpk hle (by omega)) hr
    · obtain ⟨hal, hmsgs⟩ := ih (Filling.start hpk) hr
      refine ⟨?_, fun m hm => ?_⟩
      · rw [flatMap_cons, hal]
        rfl
      · rcases mem_cons.mp hm with rfl | hm
        · exact h.regular
        · exact hmsgs m hm

theorem coalesceMessages_regular {packets : List Bytes} (is6 : Bool)
    (hne : ∀ p ∈ packets, p ≠ []) :
    (coalesceMessages packets is6).flatMap Outgoing.buffers = packets ∧
      ∀ m ∈ coalesceMessages packets is6, Regular m := by
  cases packets with
  | nil => exact ⟨rfl, fun m hm => absurd hm not_mem_nil⟩
  | cons packet =>
    have hmax : (if is6 then maxIPv6PayloadLen else maxIPv4PayloadLen) < 65536 := by
      cases is6 <;> decide
    exact coalesceLoop_regular hmax (Filling.start (hne packet mem_cons_self))
      fun p hp => hne p (mem_cons_of_mem _ hp)

end Coalesce

/-! ### Isolation -/

section Isolation
variable {M : ℕ}

/-- The packets of a message are all within the limit, or all exceed it. -/
def Outgoing.Level (M : ℕ) (m : Outgoing) : Prop :=
  ∀ p ∈ m.buffers, ∀ q ∈ m.buffers, M < p.length → M < q.length

theorem plain_regular {packets : List Bytes} (hne : ∀ p ∈ packets, p ≠ []) {m : Outgoing}
    (h : m ∈ plainMessages packets) : Regular m := by
  obtain ⟨packet, hp, rfl⟩ := mem_map.mp h
  exact (Filling.start (hne packet hp)).regular

theorem plain_level {packets : List Bytes} {m : Outgoing} (h : m ∈ plainMessages packets) :
    m.Level M := by
  obtain ⟨packet, -, rfl⟩ := mem_map.mp h
  intro p hp q hq hlt
  rw [mem_singleton.mp hq, ← mem_singleton.mp hp]
  exact hlt

theorem plain_buffers (packets : List Bytes) :
    (plainMessages packets).flatMap Outgoing.buffers = packets := by
  unfold plainMessages
  rw [flatMap_map]
  exact flatMap_singleton' packets

section Regular
variable {m : Outgoing} (h : Regular m)
include h

theorem Regular.length_le {p : Bytes} (hp : p ∈ m.buffers) : p.length ≤ m.segmentSize := by
  obtain ⟨full, last, hb, hf⟩ := h.filled
  rw [hb] at hp
  rcases mem_append.mp hp with hp | hp
  · exact Nat.le_of_eq (hf.equal p hp)
  · rw [mem_singleton.mp hp]
    exact hf.shorter

/-- The segment size of a message is the length of its first packet. -/
theorem Regular.head : ∃ p ∈ m.buffers, p.length = m.segmentSize := by
  obtain ⟨full, last, hb, hf⟩ := h.filled
  rw [hb]
  cases full with
  | nil => exact ⟨last, mem_cons_self, hf.single rfl⟩
  | cons p full => exact ⟨p, mem_cons_self, hf.equal p mem_cons_self⟩

theorem Regular.accepted_within (hle : m.segmentSize ≤ M) :
    accepted M [m] = m.buffers.filter fun p => p.length ≤ M := by
  rw [filter_eq_self.mpr fun p hp => decide_eq_true (Nat.le_trans (h.length_le hp) hle),
    ← h.segments]
  unfold accepted
  rw [filter_cons_of_pos (by simpa using hle), filter_nil, flatMap_singleton]

theorem Regular.accepted_level (hlev : m.Level M) :
    accepted M [m] = m.buffers.filter fun p => p.length ≤ M := by
  by_cases hle : m.segmentSize ≤ M
  · exact h.accepted_within hle
  obtain ⟨p, hp, hsz⟩ := h.head
  have hn : m.buffers.filter (fun p => p.length ≤ M) = [] := by
    rw [filter_eq_nil_iff]
    intro q hq hs
    have := hlev p hp q hq (by omega)
    have := of_decide_eq_true hs
    omega
  rw [hn]
  exact accepted_refused (by omega) []

/-- A message that is not level is refused with a packet that is within the limit. -/
theorem Regular.accepted_lt (hlev : ¬ m.Level M) :
    (accepted M [m]).length < (m.buffers.filter fun p => p.length ≤ M).length := by
  unfold Outgoing.Level at hlev
  push Not at hlev
  obtain ⟨p, hp, q, hq, hlt, hle⟩ := hlev
  have hrefused : accepted M [m] = [] :=
    accepted_refused (Nat.lt_of_lt_of_le hlt (h.length_le hp)) []
  rw [hrefused]
  exact length_pos_of_mem (mem_filter.mpr ⟨hq, decide_eq_true hle⟩)

end Regular

private theorem accepted_le {msgs : List Outgoing} (h : ∀ m ∈ msgs, Regular m) :
    (accepted M msgs).length ≤
      ((msgs.flatMap Outgoing.buffers).filter fun p => p.length ≤ M).length := by
  induction msgs with
  | nil => exact Nat.le_refl 0
  | cons m msgs ih =>
    have hm := h m mem_cons_self
    have hr := ih fun m' hm' => h m' (mem_cons_of_mem _ hm')
    have hone : (accepted M [m]).length ≤ (m.buffers.filter fun p => p.length ≤ M).length := by
      by_cases hlev : m.Level M
      · exact Nat.le_of_eq (congrArg List.length (hm.accepted_level hlev))
      · exact Nat.le_of_lt (hm.accepted_lt hlev)
    rw [← singleton_append, accepted_append, flatMap_append, flatMap_singleton, filter_append,
      length_append, length_append]
    omega

/-- The kernel accepts exactly the packets within the limit if and only if every message is
level. -/
theorem accepted_iff {msgs : List Outgoing} (h : ∀ m ∈ msgs, Regular m) :
    (accepted M msgs = (msgs.flatMap Outgoing.buffers).filter fun p => p.length ≤ M) ↔
      ∀ m ∈ msgs, m.Level M := by
  induction msgs with
  | nil => exact ⟨fun _ m hm => absurd hm not_mem_nil, fun _ => rfl⟩
  | cons m msgs ih =>
    have hm := h m mem_cons_self
    have hrest : ∀ m' ∈ msgs, Regular m' := fun m' hm' => h m' (mem_cons_of_mem _ hm')
    have hle := accepted_le (M := M) hrest
    rw [← singleton_append, accepted_append, flatMap_append, flatMap_singleton, filter_append,
      singleton_append, forall_mem_cons, ← ih hrest]
    by_cases hlev : m.Level M
    · rw [hm.accepted_level hlev, append_cancel_left_eq]
      exact ⟨fun heq => ⟨hlev, heq⟩, And.right⟩
    · refine ⟨fun heq => ?_, fun hall => absurd hall.1 hlev⟩
      have hlen := congrArg List.length heq
      rw [length_append, length_append] at hlen
      have := hm.accepted_lt hlev
      omega

variable {σ : Type} {K : Kernel σ} {wire : σ → List Bytes}

/-- `send` ends without an error and sends exactly the packets within the limit, in order. -/
def Bind.Isolates (b : Bind) (K : Kernel σ) (M : ℕ) (wire : σ → List Bytes) (packets : List Bytes)
    (is6 : Bool) (s : Net σ) : Prop :=
  ∃ t, b.send K packets (some is6) s = some ((none, b), t) ∧
    wire t.1 = wire s.1 ++ packets.filter fun p => p.length ≤ M

/-- The messages of the packets, with or without GSO. -/
def outgoing (offload is6 : Bool) (packets : List Bytes) : List Outgoing :=
  if offload = false then plainMessages packets else coalesceMessages packets is6

private theorem outgoing_regular {packets : List Bytes} (offload is6 : Bool)
    (hne : ∀ p ∈ packets, p ≠ []) :
    (outgoing offload is6 packets).flatMap Outgoing.buffers = packets ∧
      ∀ m ∈ outgoing offload is6 packets, Regular m := by
  unfold outgoing
  split
  · exact ⟨plain_buffers packets, fun m hm => plain_regular hne hm⟩
  · exact coalesceMessages_regular is6 hne

private theorem outgoing_level (offload is6 : Bool) (packets : List Bytes) :
    (∀ m ∈ outgoing offload is6 packets, m.Level M) ↔
      offload = false ∨ ∀ m ∈ coalesceMessages packets is6, m.Level M := by
  unfold outgoing
  split
  · next hoff => exact ⟨fun _ => .inl hoff, fun _ m hm => plain_level hm⟩
  · next hoff => exact ⟨.inr, fun hall => hall.resolve_left hoff⟩

section Send
variable (h : K.Limited M wire) {b : Bind} {is6 offload : Bool} {packets : List Bytes}
  (hopen : b.isOpen = true) (hsocket : b.socket is6 = some offload)
  (hpool : packets.length ≤ b.pool) (s : Net σ)
include h hopen hsocket hpool

private theorem send_accepted : ∃ t, b.send K packets (some is6) s = some ((none, b), t) ∧
    wire t.1 = wire s.1 ++ accepted M (outgoing offload is6 packets) := by
  obtain ⟨_, t, hrun, hwire⟩ := sendLoop_accepted h
    (Nat.le_refl (outgoing offload is6 packets).length) 0 s
  unfold Bind.send
  split
  · next hemp =>
    subst hemp
    have hnil : outgoing offload is6 [] = [] := by
      unfold outgoing
      split <;> rfl
    rw [hnil]
    exact ⟨s, rfl, (append_nil _).symm⟩
  · dsimp only
    rw [if_neg (by rw [hopen]; decide), hsocket]
    dsimp only
    rw [if_neg (by omega)]
    refine ⟨t, ?_, hwire⟩
    cases offload with
    | false =>
      unfold sendPlain sendBatch
      rw [if_pos rfl, show plainMessages packets = outgoing false is6 packets from rfl, hrun]
      rfl
    | true =>
      unfold sendBatch
      rw [if_neg (by decide), show coalesceMessages packets is6 = outgoing true is6 packets from rfl,
        hrun]

/-- Oversized packets are isolated if and only if there is no GSO, or no message joins a packet that
exceeds the limit with one that does not. -/
theorem send_isolates_oversized (hne : ∀ p ∈ packets, p ≠ []) :
    b.Isolates K M wire packets is6 s ↔
      offload = false ∨ ∀ m ∈ coalesceMessages packets is6, m.Level M := by
  obtain ⟨hall, hregular⟩ := outgoing_regular offload is6 hne
  obtain ⟨t, hsend, hwire⟩ := send_accepted h hopen hsocket hpool s
  rw [← outgoing_level, ← accepted_iff hregular, hall]
  constructor
  · rintro ⟨t', hsend', hwire'⟩
    obtain rfl : t = t' := congrArg Prod.snd (Option.some.inj (hsend.symm.trans hsend'))
    exact append_cancel_left (hwire.symm.trans hwire')
  · intro heq
    rw [heq] at hwire
    exact ⟨t, hsend, hwire⟩

end Send

end Isolation

/-- A kernel that sends what it can in each call. -/
def greedyKernel (M : ℕ) : Kernel (List Bytes) where
  writeBatch := fun msgs s =>
    let run := msgs.takeWhile fun m => m.segmentSize ≤ M
    if run = [] then ((-1, some .emsgsize), s)
    else ((run.length, none), s ++ run.flatMap Outgoing.segments)
  writeTo := fun packet s =>
    if packet.length ≤ M then (none, s ++ [packet]) else (some .emsgsize, s)
  drain := fun s => (0, s)

private theorem greedyKernel_limited (M : ℕ) : (greedyKernel M).Limited M id := by
  refine ⟨fun msgs s hne => ?_, fun s => rfl⟩
  have hs : (msgs.takeWhile fun m => m.segmentSize ≤ M) ++
      (msgs.dropWhile fun m => m.segmentSize ≤ M) = msgs := takeWhile_append_dropWhile
  have ht : ((msgs.takeWhile fun m => m.segmentSize ≤ M) ++
      (msgs.dropWhile fun m => m.segmentSize ≤ M)).take
        (msgs.takeWhile fun m => m.segmentSize ≤ M).length =
      msgs.takeWhile fun m => m.segmentSize ≤ M := take_left' rfl
  rw [hs] at ht
  have hlen := congrArg List.length hs
  rw [length_append] at hlen
  refine ⟨(msgs.takeWhile fun m => m.segmentSize ≤ M).length, by omega, fun m hm => ?_, ?_⟩
  · rw [ht] at hm
    exact of_decide_eq_true (all_eq_true.mp all_takeWhile m hm)
  rw [ht]
  unfold greedyKernel
  dsimp only
  by_cases hrun : (msgs.takeWhile fun m => m.segmentSize ≤ M) = []
  · rw [if_pos hrun, hrun]
    cases msgs with
    | nil => exact absurd rfl hne
    | cons =>
      by_contra hle
      rw [takeWhile_cons_of_pos (by simpa using hle)] at hrun
      cases hrun
  · rw [if_neg hrun]
    exact ⟨rfl, Int.toNat_natCast _, .inl ⟨rfl, length_pos_iff.mpr hrun⟩⟩

/-- Two oversized packets are coalesced and refused, and the one after them is sent. -/
theorem send_isolates_oversized_sample : ∃ t,
    (⟨true, some true, none, 8⟩ : Bind).send (greedyKernel 1) [[1, 2, 3], [4, 5], [6]]
      (some false) ([], []) = some ((none, ⟨true, some true, none, 8⟩), t) ∧ t.1 = [[6]] :=
  (send_isolates_oversized (greedyKernel_limited 1) rfl rfl (by decide) ([], []) (by decide)).mpr
    (.inr (by
      unfold Outgoing.Level
      decide))

/-- The second packet is within the limit, but it is coalesced with an oversized one and lost. -/
theorem coalesced_packet_lost :
    (greedyKernel 2).Limited 2 id ∧
    (⟨true, some true, none, 8⟩ : Bind).send (greedyKernel 2) [[1, 2, 3], [4]] (some false)
      ([], []) = some ((none, ⟨true, some true, none, 8⟩), ([], [some 3])) :=
  ⟨greedyKernel_limited 2, by decide +kernel⟩

end WgFrag.Wgbind
