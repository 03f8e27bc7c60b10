import Mathlib.Data.Nat.Find
import WgFrag.Control.Padding
import WgFrag.Shim.ControlRing

/-! Frames that go through the CONTROL queue. The queue keeps a probe without its padding; the
frame that is sent for it is the frame that was enqueued. -/
namespace WgFrag.Shim
open WgFrag.Wire WgFrag.Lib WgFrag.Control WgFrag.Wire.Protobuf Engine List
variable {P : Proto}

/-! ### Padding by attempts -/

theorem varintLength_mono {a b : ℕ} (h : a ≤ b) : varintLength a ≤ varintLength b := by
  obtain ⟨m, hm⟩ := Nat.exists_eq_succ_of_ne_zero (Nat.ne_of_gt (varintLength_pos b))
  have hb : b < groupBound (m + 1) := varintLength_le_iff.mp (Nat.le_of_eq hm)
  rw [hm]
  exact varintLength_le_iff.mpr (by omega)

/-- The bounds of the lengths are so far apart that a short way reaches at most the next length,
and then the value before is of the same length. -/
theorem varintLength_near {n k : ℕ} (hk : k ≤ varintLength n + 1) :
    varintLength (n + k) = varintLength n ∨ varintLength (n + k) = varintLength n + 1 ∧
      0 < n ∧ varintLength (n - 1) = varintLength n := by
  obtain ⟨m, hm⟩ := Nat.exists_eq_succ_of_ne_zero (Nat.ne_of_gt (varintLength_pos n))
  have hgt := groupBound_gt m
  have hnx : groupBound (m + 1) = 128 * groupBound m := rfl
  have ha : groupBound (m + 1 + 1) = 128 * groupBound (m + 1) := rfl
  have hn : n < groupBound (m + 1) := varintLength_le_iff.mp (Nat.le_of_eq hm)
  by_cases heq : n + k < groupBound (m + 1)
  · left
    have hle := varintLength_le_iff.mpr heq
    have hge := varintLength_mono (Nat.le_add_right n k)
    omega
  · right
    have hmo : ¬ varintLength (n + k) ≤ m + 1 := fun h => heq (varintLength_le_iff.mp h)
    have hlt : varintLength (n + k) ≤ m + 1 + 1 := varintLength_le_iff.mpr (by omega)
    have hb := varintLength_mono (Nat.sub_le n 1)
    cases m with
    | zero =>
      have hpos := varintLength_pos (n - 1)
      omega
    | succ m =>
      have hlong : ¬ varintLength (n - 1) ≤ m + 1 := by
        intro h
        have := varintLength_le_iff.mp h
        omega
      omega

section Attempts
variable {size : ℕ → ℕ} {base n : ℕ}
  (hsize : ∀ k, headerSize + size k = base + 1 + varintLength k + k)
include hsize

theorem materializeLoop_step (attempts k : ℕ) :
    materializeLoop size (base + 1 + varintLength n + n) (attempts + 1) k =
      if varintLength k + k = varintLength n + n then some k
      else materializeLoop size (base + 1 + varintLength n + n) attempts
        ((varintLength n : ℤ) + n - varintLength k) := by
  rw [materializeLoop, if_neg (by omega)]
  dsimp only
  rw [Int.toNat_natCast, hsize]
  split_ifs with h1 h2
  · rfl
  · omega
  · omega
  · congr 1
    omega

/-- At most three of the eight attempts are made. -/
theorem materializeLoop_eq : materializeLoop size (base + 1 + varintLength n + n) 8
    ((n + (varintLength n + 1) : ℕ) : ℤ) = some n := by
  rw [materializeLoop_step hsize, if_neg (by omega)]
  rcases varintLength_near (Nat.le_refl (varintLength n + 1)) with heq | ⟨hm, _, hb⟩
  · rw [heq, show (varintLength n : ℤ) + n - varintLength n = (n : ℕ) by omega,
      materializeLoop_step hsize, if_pos rfl]
  rw [hm, show (varintLength n : ℤ) + n - (varintLength n + 1 : ℕ) = (n - 1 : ℕ) by omega,
    materializeLoop_step hsize, if_neg (by omega), hb,
    show (varintLength n : ℤ) + n - varintLength n = (n : ℕ) by omega,
    materializeLoop_step hsize, if_pos rfl]

end Attempts

/-! ### Padding by search -/

/-- The protobuf size of a padding: a one-byte tag, a base-128 length and the bytes. -/
def Proto.SizesPadding (P : Proto) : Prop := ∀ (m : Control) (padding : Bytes),
  P.size { m with padding := some padding } =
    P.size { m with padding := none } + 1 + varintLength padding.length + padding.length

theorem proto_sizesPadding : Proto.SizesPadding Protobuf.proto := by
  intro m padding
  show (encode _).length = (encode _).length + _ + _ + _
  have ht : (varint 34).length = 1 := rfl
  simp only [encode, scalar, encodePadding, encodeTail, delimited, length_append,
    length_nil, ht, varintLength]
  omega

/-- The message with a padding of `n` zero bytes. -/
def padded (m : Control) (n : ℕ) : Control :=
  { m with padding := some (List.replicate n 0) }

/-- The length of a frame without padding. -/
def bareLength (P : Proto) (m : Control) : ℕ := headerSize + P.size { m with padding := none }

theorem padded_length (hsize : Proto.SizesPadding P) (m : Control) (n : ℕ) :
    headerSize + P.size (padded m n) = bareLength P m + 1 + varintLength n + n := by
  unfold padded bareLength
  rw [hsize, length_replicate]
  omega

theorem padding_size (hsize : Proto.SizesPadding P) (m : Control) (padding : Bytes) :
    P.size { m with padding := some padding } = P.size (padded m padding.length) := by
  unfold padded
  rw [hsize, hsize, length_replicate]

theorem padded_le (hsize : Proto.SizesPadding P) {m : Control} {k n : ℕ} (h : k ≤ n) :
    headerSize + P.size (padded m k) ≤ headerSize + P.size (padded m n) := by
  have hmono := varintLength_mono h
  rw [padded_length hsize, padded_length hsize]
  omega

/-- The lengths up to a target are those of the paddings up to a largest one, which misses the
target by at most one byte. -/
theorem largest_padding {base target : ℕ} (h : base + 2 ≤ target) :
    ∃ n, (∀ k, base + 1 + varintLength k + k ≤ target ↔ k < n + 1) ∧
      target ≤ base + 1 + varintLength n + n + 1 := by
  have hex : ∃ k, target < base + 1 + varintLength k + k := ⟨target, by omega⟩
  have hz : varintLength 0 = 1 := varintLength_one (by omega)
  have hne : Nat.find hex ≠ 0 := by
    intro h0
    have := Nat.find_spec hex
    rw [h0] at this
    omega
  obtain ⟨n, hn⟩ := Nat.exists_eq_succ_of_ne_zero hne
  have ho := Nat.find_spec hex
  rw [hn] at ho
  refine ⟨n, fun k => ⟨fun hk => ?_, fun hk => ?_⟩, ?_⟩
  · by_contra hge
    have := varintLength_mono (Nat.not_lt.mp hge)
    rw [Nat.succ_eq_add_one] at ho
    omega
  · exact Nat.not_lt.mp (Nat.find_min hex (by omega))
  · rw [Nat.succ_eq_add_one] at ho
    rcases varintLength_near (n := n) (k := 1) (by omega) with _ | ⟨_, -⟩
    · omega
    · omega

/-! ### Frames -/

/-- A frame that is written to a buffer of `room` bytes. -/
def written (room : ℕ) (frame : Bytes) : Except MaterializeError Bytes :=
  if room < frame.length then .error .shortBuffer else .ok frame

section Frames
variable {P : Proto} {e : Engine} {codec : Codec} {m : Control} {n : ℕ} {target : UInt32}
  {payload frame : Bytes} {d : ControlDescriptor}

theorem encodeFrame_length (payload : Bytes) :
    (encodeFrame payload).length = headerSize + payload.length := by
  unfold encodeFrame headerSize
  simp only [length_cons]
  omega

theorem marshalTo_eq (hne : payload ≠ [])
    (hf : headerSize + payload.length ≤ codec.maxFrameSize) :
    codec.marshalTo payload = .ok (encodeFrame payload) := by
  have hpos := length_pos_iff.mpr hne
  unfold Codec.marshalTo
  rw [if_neg (by omega), if_neg (by omega), if_neg (by omega)]

theorem marshalInto_eq (hne : payload ≠ [])
    (hf : headerSize + payload.length ≤ codec.maxFrameSize) (room : ℕ) :
    marshalInto codec room payload = written room (encodeFrame payload) := by
  unfold marshalInto
  rw [marshalTo_eq hne hf]
  rfl

theorem marshalTo_fits (h : codec.marshalTo payload = .ok frame) :
    payload ≠ [] ∧ headerSize + payload.length ≤ codec.maxFrameSize := by
  unfold Codec.marshalTo at h
  split_ifs at h with he hmax hl
  refine ⟨fun hn => he (by rw [hn]; rfl), ?_⟩
  omega

theorem parse_encodeFrame (hne : payload ≠ [])
    (hf : headerSize + payload.length ≤ codec.maxFrameSize) :
    codec.parse (encodeFrame payload) = .ok payload := by
  have hpos := length_pos_iff.mpr hne
  have hlen := encodeFrame_length payload
  have hv : ¬ (protocolVersion ≠ protocolVersion) := fun h => h rfl
  unfold encodeFrame at hlen ⊢
  unfold Codec.parse
  dsimp only
  rw [if_neg (by simp), if_neg hv, if_neg (by omega), if_neg (by omega), if_neg hne]

/-- A codec accepts exactly the frames that it builds, and reads the message they were built of. -/
theorem frame_roundTrip (c : Codec) :
    (∀ frame payload, c.parse frame = .ok payload ↔ c.marshalTo payload = .ok frame) ∧
    ∀ m frame, c.marshalTo (Protobuf.proto.marshal m) = .ok frame →
      decode Protobuf.proto c frame = some m := by
  have hback : ∀ frame payload, c.marshalTo payload = .ok frame → c.parse frame = .ok payload := by
    intro frame payload h
    rw [Codec.marshalTo_ok h]
    exact parse_encodeFrame (marshalTo_fits h).1 (marshalTo_fits h).2
  refine ⟨fun frame payload => ⟨fun h => ?_, hback frame payload⟩, fun m frame h => ?_⟩
  · obtain rfl := Codec.parse_ok h
    have hlen := encodeFrame_length payload
    unfold encodeFrame at h hlen
    unfold Codec.parse at h
    dsimp only at h
    split_ifs at h with _ _ _ _ hne
    exact marshalTo_eq hne (by omega)
  · rw [decode, hback frame _ h]
    exact Protobuf.lawful m

/-- A target above the smallest padded length gets the largest padding that fits. -/
theorem padTo_largest (hsize : Proto.SizesPadding P) (hl : bareLength P m + 2 ≤ target.toNat) :
    ∃ n, padTo P m target = .ok (padded m n) ∧
      (∀ k, headerSize + P.size (padded m k) ≤ target.toNat ↔ k < n + 1) ∧
      target.toNat ≤ headerSize + P.size (padded m n) + 1 := by
  obtain ⟨n, hf, hn⟩ := largest_padding hl
  have hf' : ∀ k, headerSize + P.size (padded m k) ≤ target.toNat ↔ k < n + 1 := by
    intro k
    rw [padded_length hsize]
    exact hf k
  refine ⟨n, ?_, hf', ?_⟩
  · have hne : target ≠ 0 := by
      rintro rfl
      simp at hl
    have hs := (hf n).mpr (Nat.lt_succ_self n)
    have hse : searchPadding (fun k => decide (headerSize + P.size (padded m k) ≤ target.toNat))
        (target.toNat + 1) 0 (target.toNat + 1) = n + 1 :=
      searchPadding_eq (fun k => decide_eq_true_iff.trans (hf' k)) (Nat.zero_le _) (by omega)
        (Nat.le_refl _)
    have hp : (fun k => decide (headerSize +
        P.size { m with padding := some (List.replicate k 0) } ≤ target.toNat)) =
        fun k => decide (headerSize + P.size (padded m k) ≤ target.toNat) := rfl
    unfold padTo
    rw [if_pos hne]
    dsimp only
    rw [hp, hse]
    rfl
  · rw [padded_length hsize]
    exact hn

theorem padded_ne_nil (hsize : Proto.SizesPadding P) (m : Control) (n : ℕ) :
    P.marshal (padded m n) ≠ [] := by
  have hlen := padded_length hsize m n
  unfold bareLength Proto.size at hlen
  exact length_pos_iff.mp (by omega)

theorem describe_probe (hP : P.Lawful) (hne : P.marshal (padded m n) ≠ [])
    (hf : headerSize + P.size (padded m n) ≤ codec.maxFrameSize)
    (hb : m.body = some .mtuProbe) (peer : PeerID) :
    ∃ d, describe P codec peer (encodeFrame (P.marshal (padded m n))) = .ok d ∧
      d.message = some { m with padding := none } ∧
      d.targetSize = headerSize + P.size (padded m n) := by
  have hk : classifyControl (padded m n) = (.exploratory, .probe) := by
    unfold classifyControl padded
    rw [hb]
  unfold describe
  rw [parse_encodeFrame hne hf]
  dsimp only
  rw [hP]
  dsimp only
  rw [hk, if_pos rfl]
  exact ⟨_, rfl, rfl, encodeFrame_length _⟩

theorem materialize_probe (hsize : Proto.SizesPadding P)
    (hm : d.message = some { m with padding := none })
    (ht : d.targetSize = headerSize + P.size (padded m n))
    (hf : headerSize + P.size (padded m n) ≤ codec.maxFrameSize) (room : ℕ) :
    materializeControl P d room codec = written room (encodeFrame (P.marshal (padded m n))) := by
  have hlen := padded_length hsize m n
  have hbare : headerSize + P.size { m with padding := none } = bareLength P m := rfl
  have hp : (d.targetSize : ℤ) - headerSize - P.size { m with padding := none } =
      ((n + (varintLength n + 1) : ℕ) : ℤ) := by
    omega
  have hl : materializeLoop (fun k => P.size (padded m k)) d.targetSize 8
      ((n + (varintLength n + 1) : ℕ) : ℤ) = some n := by
    rw [ht, hlen]
    exact materializeLoop_eq (padded_length hsize m)
  have hpadd : (fun k => P.size { { m with padding := none } with
      padding := some (List.replicate k 0) }) = fun k => P.size (padded m k) := rfl
  unfold materializeControl
  rw [hm]
  dsimp only
  rw [if_pos (by omega), if_neg (by omega), hp, if_neg (by omega), hpadd, hl]
  dsimp only
  rw [if_neg fun h => h ht.symm]
  exact marshalInto_eq (padded_ne_nil hsize m n) hf room

theorem describe_other (hP : P.Lawful) (hne : P.marshal m ≠ [])
    (hf : headerSize + P.size m ≤ codec.maxFrameSize) (hb : m.body ≠ some .mtuProbe)
    (peer : PeerID) : ∃ d, describe P codec peer (encodeFrame (P.marshal m)) = .ok d ∧
      d.message = some m ∧ d.targetSize = 0 := by
  have hk : (classifyControl m).2 ≠ .probe := by
    unfold classifyControl
    split
    · next hp => exact absurd hp hb
    all_goals exact nofun
  unfold describe
  rw [parse_encodeFrame hne hf]
  dsimp only
  rw [hP]
  dsimp only
  rw [if_neg hk]
  exact ⟨_, rfl, rfl, rfl⟩

theorem materialize_other (hm : d.message = some m) (ht : d.targetSize = 0)
    (hne : P.marshal m ≠ []) (hf : headerSize + P.size m ≤ codec.maxFrameSize) (room : ℕ) :
    materializeControl P d room codec = written room (encodeFrame (P.marshal m)) := by
  unfold materializeControl
  rw [hm]
  dsimp only
  rw [if_neg (not_not.mpr ht)]
  exact marshalInto_eq hne hf room

theorem padTo_body {m' : Control} (h : padTo P m target = .ok m') : m'.body = m.body := by
  unfold padTo at h
  dsimp only at h
  split at h
  · split at h
    · cases h
    · cases h
      rfl
  · cases h
    rfl

/-- What `marshal` returns is the frame of the padded message. -/
theorem marshal_frame (h : Engine.marshal P e m target = .ok frame) :
    ∃ m', padTo P m target = .ok m' ∧ frame = encodeFrame (P.marshal m') ∧
      P.marshal m' ≠ [] ∧ headerSize + P.size m' ≤ e.codec.maxFrameSize := by
  unfold Engine.marshal at h
  split at h
  · cases h
  split at h
  · cases h
  rename_i m' hp
  split at h
  · cases h
  · next hfr =>
    cases h
    exact ⟨m', hp, Codec.marshalTo_ok hfr, marshalTo_fits hfr⟩

end Frames

/-! ### The queue -/

theorem Enqueued.mem {d : ControlDescriptor} {q q' : List ControlDescriptor}
    {outcome : EnqueueOutcome} (h : Enqueued d q outcome q') (hd : outcome.dropped = false) :
    ∃ i : ℕ, q'[i]? = some d := by
  refine mem_iff_getElem?.mp ?_
  cases h with
  | dropped => cases hd
  | appended | replaced => simp

namespace ControlScheduler

/-- The frame is accepted by the scheduler after every run; if it is not dropped, it is queued, and
popping its descriptor and writing it to a buffer gives the frame back. -/
def SentAs (P : Proto) (codec : Codec) (frame : Bytes) : Prop :=
  ∀ (capacity : ℤ) (peers : List PeerID) (calls : List RingCall) (peer : PeerID),
    (new capacity peers).ValidRun P codec calls →
    ∀ s t, s = ((new capacity peers).ringRun P codec {} calls).1 →
      t = (s.enqueue P codec peer frame).2 →
      ∃ outcome, (s.enqueue P codec peer frame).1 = .ok outcome ∧
        (outcome.dropped = false → ∃ (i : ℕ) (d : ControlDescriptor), t.queue[i]? = some d ∧
          d.peer = peer ∧ (t.pop (t.descriptors.slot i)).1 = d ∧
          ∀ room, materializeControl P d room codec = written room frame)

theorem SentAs.of_describe {P : Proto} {codec : Codec} {frame : Bytes}
    (h : ∀ peer, ∃ d, describe P codec peer frame = .ok d ∧
      ∀ room, materializeControl P d room codec = written room frame) :
    SentAs P codec frame := by
  intro capacity peers calls peer hv s t hs ht
  obtain ⟨d, hd, hse⟩ := h peer
  have hr := (new_ring capacity peers).run hv
  rw [← hs] at hr
  have hlist : IsList P codec s := hr.isList
  have hlist' : IsList P codec t := by
    rw [ht]
    exact (hr.enqueued peer frame).isList
  obtain ⟨outcome, hok, he⟩ := hlist.enqueue peer frame d hd
  refine ⟨outcome, hok, fun hdr => ?_⟩
  rw [← ht] at he
  obtain ⟨i, hi⟩ := he.mem hdr
  exact ⟨i, d, hi, describe_peer hd, (hlist'.pop i d hi).1, hse⟩

/-- The frame of a message for a target: of all lengths that some padding gives, it has the largest
one that is not above the target, which misses the target by at most one byte. -/
structure Built (P : Proto) (codec : Codec) (m : Control) (target : ℕ) (frame : Bytes) : Prop where
  fits : frame.length ≤ target
  near : target - 1 ≤ frame.length
  largest : ∀ padding, headerSize + P.size { m with padding := padding } ≤ target →
    headerSize + P.size { m with padding := padding } ≤ frame.length
  decodes : ∃ n, codec.parse frame = .ok (P.marshal (padded m n)) ∧
    P.unmarshal (P.marshal (padded m n)) = some (padded m n)

section Survive
variable {P : Proto} (hP : P.Lawful) (hsize : Proto.SizesPadding P) {e : Engine} {codec : Codec}
  (hcodec : e.codec.maxFrameSize ≤ codec.maxFrameSize)
include hP hsize hcodec

private theorem probe_built {m : Control} {target : UInt32} (hb : m.body = some .mtuProbe)
    (hl : bareLength P m + 2 ≤ target.toNat) (hhi : target.toNat ≤ e.codec.maxFrameSize) :
    ∃ frame, Engine.marshal P e m target = .ok frame ∧ Built P codec m target.toNat frame ∧
      SentAs P codec frame := by
  obtain ⟨n, hp, hf, hn⟩ := padTo_largest hsize hl
  have hs := (hf n).mpr (Nat.lt_succ_self n)
  have hne := padded_ne_nil hsize m n
  have hlen := encodeFrame_length (P.marshal (padded m n))
  have hc' : headerSize + P.size (padded m n) ≤ codec.maxFrameSize := by omega
  refine ⟨encodeFrame (P.marshal (padded m n)), ?_,
    ⟨?_, ?_, fun padding hle => ?_, n, parse_encodeFrame hne hc', hP _⟩, ?_⟩
  · unfold Engine.marshal
    rw [if_neg (by omega), hp]
    dsimp only
    rw [marshalTo_eq hne (Nat.le_trans hs hhi)]
  · rw [hlen]
    exact hs
  · rw [hlen]
    unfold Proto.size at hn
    omega
  · rw [hlen]
    cases padding with
    | none =>
      have hm := padded_length hsize m n
      unfold bareLength Proto.size at hm
      unfold Proto.size
      omega
    | some =>
      rw [padding_size hsize] at hle ⊢
      exact padded_le hsize (Nat.le_of_lt_succ ((hf _).mp hle))
  · refine .of_describe fun peer => ?_
    obtain ⟨d, hd, hms, ht⟩ := describe_probe hP hne hc' hb peer
    exact ⟨d, hd, materialize_probe hsize hms ht hc'⟩

omit hsize in
private theorem other_sentAs {m : Control} {target : UInt32} {frame : Bytes}
    (hb : m.body ≠ some .mtuProbe) (h : Engine.marshal P e m target = .ok frame) :
    SentAs P codec frame := by
  obtain ⟨m', hp, rfl, hne, _⟩ := marshal_frame h
  have hb' : m'.body ≠ some .mtuProbe := by
    rw [padTo_body hp]
    exact hb
  have hf' : headerSize + P.size m' ≤ codec.maxFrameSize := by omega
  refine .of_describe fun peer => ?_
  obtain ⟨d, hd, hm, ht⟩ := describe_other hP hne hf' hb' peer
  exact ⟨d, hd, materialize_other hm ht hne hf'⟩

/-- A probe of every representable target and every other frame is sent from the queue as it was
enqueued. -/
theorem frames_survive_queue (m : Control) :
    (m.body = some .mtuProbe → ∀ target : UInt32, bareLength P m + 2 ≤ target.toNat →
      target.toNat ≤ e.codec.maxFrameSize →
      ∃ frame, Engine.marshal P e m target = .ok frame ∧ Built P codec m target.toNat frame ∧
        SentAs P codec frame) ∧
    (m.body ≠ some .mtuProbe → ∀ target frame, Engine.marshal P e m target = .ok frame →
      SentAs P codec frame) :=
  ⟨fun hbody _ => probe_built hP hsize hcodec hbody, fun hbody _ _ => other_sentAs hP hcodec hbody⟩

end Survive

/-- The target whose length the padding skips, and a Pong. -/
theorem frames_survive_queue_sample :
    (∃ frame, Engine.marshal Protobuf.proto (skippedEngine true none)
        (bareProbe 0x8000000000000000 5) 16407 = .ok frame ∧
      Built Protobuf.proto ⟨65448⟩ (bareProbe 0x8000000000000000 5) 16407 frame ∧
      SentAs Protobuf.proto ⟨65448⟩ frame) ∧
    ∀ frame, Engine.marshal Protobuf.proto (skippedEngine true none) skippedPong 0 = .ok frame →
      SentAs Protobuf.proto ⟨65448⟩ frame := by
  have hcodec : (skippedEngine true none).codec.maxFrameSize ≤ (⟨65448⟩ : Codec).maxFrameSize :=
    (by decide : 65432 ≤ 65448)
  constructor
  · exact (frames_survive_queue Protobuf.lawful proto_sizesPadding hcodec _).1 rfl 16407
      (by decide) (by decide)
  · exact (frames_survive_queue Protobuf.lawful proto_sizesPadding hcodec skippedPong).2 nofun 0

end ControlScheduler

end WgFrag.Shim
