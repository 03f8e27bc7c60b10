import WgFrag.Control.Inbound
import WgFrag.Wire.Protobuf

/-! The length of a padded probe. A frame is padded to its target, except at the one target in
range that the length prefix of the padding skips. -/
namespace WgFrag.Control
open WgFrag.Lib WgFrag.Wire Protobuf Engine List
variable {e : Engine} {m k n : ℕ}

/-! ### Varint lengths -/

theorem varintGroups_length (h : n ≤ k) : (varintGroups k n).length =
    if n < 128 then 1 else (varintGroups (k - 1) (n / 128)).length + 1 := by
  cases k with
  | zero =>
    obtain rfl : n = 0 := by omega
    rfl
  | succ =>
    conv_lhs => rw [varintGroups]
    split
    · rfl
    · rfl

def varintLength (n : ℕ) : ℕ := (varint n).length

theorem varintLength_one (h : n < 128) : varintLength n = 1 := by
  unfold varintLength varint
  rw [varintGroups_length (Nat.le_refl n), if_pos h]

theorem varintLength_two (h : 128 ≤ n) (h' : n < 16384) : varintLength n = 2 := by
  unfold varintLength varint
  rw [varintGroups_length (Nat.le_refl n), if_neg (by omega), varintGroups_length (by omega),
    if_pos (by omega)]

theorem varintLength_three (h : 16384 ≤ n) (h' : n < 2097152) : varintLength n = 3 := by
  unfold varintLength varint
  rw [varintGroups_length (Nat.le_refl n), if_neg (by omega), varintGroups_length (by omega),
    if_neg (by omega), varintGroups_length (by omega), if_pos (by omega)]

/-- The values that fit into a number of groups. -/
def groupBound : ℕ → ℕ
  | 0 => 1
  | m + 1 => 128 * groupBound m

theorem groupBound_gt (m : ℕ) : m < groupBound m := by
  induction m with
  | zero => exact Nat.one_pos
  | succ =>
    unfold groupBound
    omega

private theorem varintGroups_le (h : n ≤ k) (hm : n < groupBound (m + 1)) :
    (varintGroups k n).length ≤ m + 1 := by
  induction m generalizing k n with
  | zero =>
    have hs : n < 128 := hm
    have hlen := varintGroups_length h
    rw [if_pos hs] at hlen
    omega
  | succ m ih =>
    rw [varintGroups_length h]
    split
    · omega
    have hlt : n / 128 < groupBound (m + 1) := by
      rw [Nat.div_lt_iff_lt_mul (by omega), Nat.mul_comm]
      exact hm
    exact Nat.succ_le_succ (ih (by omega) hlt)

private theorem varintGroups_gt (h : n ≤ k) (hm : groupBound (m + 1) ≤ n) :
    m + 1 < (varintGroups k n).length := by
  induction m generalizing k n with
  | zero =>
    have hl : 128 ≤ n := hm
    have hr : 0 < (varintGroups (k - 1) (n / 128)).length := by
      rw [varintGroups_length (by omega)]
      split <;> omega
    rw [varintGroups_length h, if_neg (by omega)]
    omega
  | succ m ih =>
    have hmo : groupBound (m + 1) ≤ n / 128 := by
      rw [Nat.le_div_iff_mul_le (by omega), Nat.mul_comm]
      exact hm
    have hpos := groupBound_gt (m + 1)
    rw [varintGroups_length h, if_neg (by omega)]
    exact Nat.succ_lt_succ (ih (by omega) hmo)

theorem varintLength_le_iff : varintLength n ≤ m + 1 ↔ n < groupBound (m + 1) := by
  constructor
  · intro h
    by_contra hge
    exact Nat.not_lt.mpr h (varintGroups_gt (Nat.le_refl n) (Nat.not_lt.mp hge))
  · exact varintGroups_le (Nat.le_refl n)

theorem varintLength_pos (n : ℕ) : 0 < varintLength n :=
  length_pos_iff.mpr (varint_ne_nil n)

private theorem varintLength_word (x : UInt64) : varintLength x.toNat ≤ 10 := by
  refine varintGroups_le (Nat.le_refl _) (Nat.lt_trans x.toNat_lt ?_)
  decide

/-! ### The size of a probe -/

/-- The probe that carries a message identifier under an epoch, with `n` bytes of padding. -/
def paddedProbe (epoch messageID : UInt64) (n : ℕ) : Control :=
  { buildControl 0 epoch .mtuProbe with
    messageID := messageID, padding := some (List.replicate n 0) }

/-- The protobuf size of probes: one-byte tags and base-128 lengths. -/
def Proto.SizesProbes (P : Proto) : Prop := ∀ epoch messageID n,
  P.size (paddedProbe epoch messageID n) =
    7 + varintLength messageID.toNat + varintLength epoch.toNat + varintLength n + n

theorem proto_sizesProbes : Proto.SizesProbes Protobuf.proto := by
  intro epoch messageID n
  show (Protobuf.encode (paddedProbe epoch messageID n)).length = _
  have h1 : (varint 8).length = 1 := rfl
  have h2 : (varint 16).length = 1 := rfl
  have h3 : (varint 24).length = 1 := rfl
  have h4 : (varint 34).length = 1 := rfl
  have h5 : (varint 90).length = 1 := rfl
  have h6 : (varint 0).length = 1 := rfl
  simp only [encode, paddedProbe, buildControl, scalar, encodePadding, encodeTail, delimited,
    encodeBody, length_append, length_replicate, UInt64.reduceToNat, length_nil,
    h1, h2, h3, h4, h5, h6, varintLength]
  omega

/-- The bytes of a probe frame besides the padding and its length. -/
def probeOverhead (epoch messageID : UInt64) : ℕ :=
  10 + varintLength messageID.toNat + varintLength epoch.toNat

theorem probeOverhead_le (epoch messageID : UInt64) : probeOverhead epoch messageID ≤ 30 := by
  have h1 := varintLength_word messageID
  have h2 := varintLength_word epoch
  unfold probeOverhead
  omega

/-- The largest padding that fits into a target. -/
def bestPadding (overhead target : ℕ) : ℕ :=
  if target ≤ overhead + 16385 then target - overhead - 2
  else if target = overhead + 16386 then 16383
  else target - overhead - 3

/-- The length prefix takes a third byte at 16384 bytes of padding, which skips one length. -/
theorem padding_fits {overhead target : ℕ} (hlow : overhead + 200 ≤ target)
    (hhigh : target ≤ 65535) :
    overhead + varintLength n + n ≤ target ↔ n < bestPadding overhead target + 1 := by
  unfold bestPadding
  by_cases h1 : n < 128
  · rw [varintLength_one h1]
    split_ifs <;> omega
  by_cases h2 : n < 16384
  · rw [varintLength_two (by omega) h2]
    split_ifs <;> omega
  by_cases h3 : n < 2097152
  · rw [varintLength_three (by omega) h3]
    split_ifs <;> omega
  · split_ifs <;> omega

theorem padding_length {overhead target : ℕ} (hlow : overhead + 200 ≤ target)
    (hhigh : target ≤ 65535) :
    overhead + varintLength (bestPadding overhead target) + bestPadding overhead target =
      if target = overhead + 16386 then target - 1 else target := by
  unfold bestPadding
  split_ifs with h1 h2 h2
  · omega
  · rw [varintLength_two (by omega) (by omega)]
    omega
  · rw [varintLength_two (by omega) (by omega)]
    omega
  · rw [varintLength_three (by omega) (by omega)]
    omega

/-- The binary search finds the first length that does not fit. -/
theorem searchPadding_eq {fits : ℕ → Bool} (hf : ∀ n, fits n = true ↔ n < k)
    {fuel lo hi : ℕ} (hlo : lo ≤ k) (hhi : k ≤ hi) (hfl : hi - lo ≤ fuel) :
    searchPadding fits fuel lo hi = k := by
  induction fuel generalizing lo hi with
  | zero =>
    unfold searchPadding
    omega
  | succ fuel ih =>
    unfold searchPadding
    dsimp only
    split
    · split
      · next hlt hfi =>
        have := (hf _).mp hfi
        exact ih (by omega) hhi (by omega)
      · next hlt hfi =>
        have : k ≤ lo + (hi - lo) / 2 := by
          by_contra hls
          exact hfi ((hf _).mpr (by omega))
        exact ih hlo this (by omega)
    · omega

/-! ### Frames -/

def bareProbe (epoch messageID : UInt64) : Control :=
  { buildControl 0 epoch .mtuProbe with messageID := messageID }

/-- The length of the frame that is built for a target. -/
def probeLength (epoch messageID : UInt64) (target : ℕ) : ℕ :=
  if target = probeOverhead epoch messageID + 16386 then target - 1 else target

section Marshal
variable {P : Proto} (hP : Proto.SizesProbes P) {e : Engine} {target : UInt32}
  (hlow : 613 ≤ target.toNat) (hhigh : target.toNat ≤ 65535)
  (hmax : target.toNat ≤ e.codec.maxFrameSize) (epoch messageID : UInt64)
include hP hlow hhigh

private theorem padTo_probe : ∃ n, padTo P (bareProbe epoch messageID) target =
      .ok (paddedProbe epoch messageID n) ∧
    headerSize + P.size (paddedProbe epoch messageID n) =
      probeLength epoch messageID target.toNat := by
  have ho := probeOverhead_le epoch messageID
  have hsz : ∀ n, headerSize + P.size (paddedProbe epoch messageID n) =
      probeOverhead epoch messageID + varintLength n + n := by
    intro n
    rw [hP]
    unfold headerSize probeOverhead
    omega
  refine ⟨bestPadding (probeOverhead epoch messageID) target.toNat, ?_, ?_⟩
  · have hne : target ≠ 0 := by
      rintro rfl
      simp at hlow
    have hs : searchPadding
        (fun n => decide (headerSize + P.size (paddedProbe epoch messageID n) ≤ target.toNat))
        (target.toNat + 1) 0 (target.toNat + 1) =
          bestPadding (probeOverhead epoch messageID) target.toNat + 1 := by
      refine searchPadding_eq (fun n => ?_) (Nat.zero_le _) ?_ (Nat.le_refl _)
      · rw [decide_eq_true_iff, hsz]
        exact padding_fits (by omega) hhigh
      · unfold bestPadding
        split_ifs <;> omega
    unfold padTo
    rw [if_pos hne]
    have heq : (fun n => decide (headerSize +
        P.size { bareProbe epoch messageID with padding := some (List.replicate n 0) } ≤
          target.toNat)) =
        fun n => decide (headerSize + P.size (paddedProbe epoch messageID n) ≤ target.toNat) := rfl
    dsimp only
    rw [heq, hs]
    rfl
  · rw [hsz]
    exact padding_length (by omega) hhigh

include hmax in
/-- A probe frame has its target length, unless that length is the one that is skipped. -/
theorem marshal_probe : ∃ frame, marshal P e (bareProbe epoch messageID) target = .ok frame ∧
    frame.length = probeLength epoch messageID target.toNat := by
  obtain ⟨n, hp, hlen⟩ := padTo_probe hP hlow hhigh epoch messageID
  have hle : probeLength epoch messageID target.toNat ≤ target.toNat := by
    unfold probeLength
    split_ifs <;> omega
  have hge : 600 ≤ probeLength epoch messageID target.toNat := by
    unfold probeLength
    split_ifs <;> omega
  refine ⟨encodeFrame (P.marshal (paddedProbe epoch messageID n)), ?_, ?_⟩
  · unfold Proto.size headerSize at hlen
    unfold marshal Codec.marshalTo headerSize
    rw [if_neg (by omega), hp]
    dsimp only
    rw [if_neg (by omega), if_neg (by omega), if_neg (by omega)]
  · unfold Proto.size headerSize at hlen
    unfold encodeFrame
    simp only [length_cons]
    omega

end Marshal

/-! ### The BASE probe -/

/-- The BASE sizes that the configuration accepts, with the frame limit of the engine. -/
structure AcceptedBase (e : Engine) (mtu : ℕ) : Prop where
  minimum : Limits.ValidMinCarrierPayload mtu e.base.toNat
  ceiling : e.base.toNat ≤ e.codec.maxFrameSize
  maximum : e.codec.maxFrameSize ≤ 65448

open Eff (Succeeds)

private theorem retryDelayCapped_succeeds (attempt : ℕ) (maxDelay : Duration) :
    Succeeds (retryDelayCapped attempt maxDelay) e fun _ t => t.outstanding = e.outstanding := by
  refine Succeeds.bind ⟨_, _, rfl, ?_⟩
  dsimp only
  split
  · exact .pure rfl
  · exact .pure rfl

private theorem armRetry_succeeds (kind : RequestKind) (sentAt : Time) :
    Succeeds (armRetry kind sentAt) e fun _ t => ∃ deadline : OutstandingRequest → Time,
      t.outstanding = e.outstanding.map fun o => { o with retryDeadline := deadline o } := by
  unfold armRetry
  split
  · refine Succeeds.bind (Succeeds.get_bind ?_)
    refine (retryDelayCapped_succeeds 0 _).mono fun delay t ht => ?_
    refine .modify ⟨fun _ => sentAt + delay, ?_⟩
    rw [ht]
  · refine .pure ⟨fun o => o.retryDeadline, ?_⟩
    cases e.outstanding <;> rfl

section Base
variable {P : Proto} (hP : Proto.SizesProbes P) {e : Engine} {mtu : ℕ} {id : UInt64}
  (hbase : AcceptedBase e mtu) (hid : nextID e.localMessageID = .ok id)
include hP hbase hid

omit hid in
private theorem base_frame : ∃ frame, marshal P { e with localMessageID := id }
      { buildControl 0 e.localEpoch .mtuProbe with messageID := id } e.base = .ok frame ∧
    frame.length = probeLength e.localEpoch id e.base.toNat := by
  have hmin := hbase.minimum.2
  unfold Limits.defaultCarrierPayload at hmin
  have hc := hbase.ceiling
  have hm := hbase.maximum
  exact marshal_probe hP (by omega) (by omega) hbase.ceiling e.localEpoch id

omit hP hbase in
theorem nextLocalMessageID_eq :
    nextLocalMessageID e = (.ok id, { e with localMessageID := id }) := by
  unfold nextLocalMessageID
  simp only [Eff.bind_apply, Eff.get_apply, Engine.liftExcept, hid]
  rfl

theorem sendRequest_skipped (hg : e.base.toNat = probeOverhead e.localEpoch id + 16386) :
    sendRequest P .baseProbe (buildControl 0 e.localEpoch .mtuProbe) 0 e.base e =
      (.error .unrepresentableProbe, { e with localMessageID := id }) := by
  obtain ⟨frame, hfr, hlen⟩ := base_frame hP hbase
  have hsh : UInt32.ofNat frame.length < e.base := by
    rw [UInt32.lt_iff_toNat_lt, hlen, probeLength, if_pos hg, UInt32.toNat_ofNat']
    omega
  unfold sendRequest
  rw [Eff.bind_apply, nextLocalMessageID_eq hid]
  dsimp only
  rw [Eff.get_bind, Eff.bind_apply, Engine.liftExcept, hfr]
  dsimp only
  rw [Eff.get_bind, if_pos ⟨rfl, hsh⟩]
  rfl

theorem sendRequest_exact (hg : e.base.toNat ≠ probeOverhead e.localEpoch id + 16386) :
    Succeeds (sendRequest P .baseProbe (buildControl 0 e.localEpoch .mtuProbe) 0 e.base) e
      fun out t => (∃ frame, out = [frame] ∧ frame.length = e.base.toNat) ∧
        ∃ o, t.outstanding = some o ∧ o.kind = .baseProbe ∧ o.probeSize = e.base := by
  obtain ⟨frame, hfr, hlen⟩ := base_frame hP hbase
  have hex : frame.length = e.base.toNat := by
    rw [hlen]
    exact if_neg hg
  have hsz : UInt32.ofNat frame.length = e.base := by
    apply UInt32.toNat_inj.mp
    rw [UInt32.toNat_ofNat', hex]
    have := e.base.toNat_lt
    omega
  refine Succeeds.bind ⟨_, _, nextLocalMessageID_eq hid, ?_⟩
  refine Succeeds.get_bind (Succeeds.bind ⟨frame, _, congrArg (·, _) hfr, ?_⟩)
  refine Succeeds.get_bind ?_
  rw [if_neg (by rw [hsz]; exact fun h => UInt32.lt_irrefl _ h.2)]
  refine Succeeds.bind ⟨_, _, rfl, ?_⟩
  refine Succeeds.bind (.modify ?_)
  refine Succeeds.bind ((armRetry_succeeds _ _).mono fun _ t ht => ?_)
  obtain ⟨_, ho⟩ := ht
  exact .pure ⟨⟨frame, rfl, hex⟩, _, ho, rfl, hsz⟩

end Base

/-! ### After a Pong -/

/-- Every gate up to the BASE probe is open and the correlation slot is free. -/
structure AtBase (e : Engine) : Prop where
  started : e.started = true
  terminal : e.terminalError = false
  outstanding : e.outstanding = none
  flags : e.state.flags = ⟨true, true, true, true, true, true, false⟩

theorem progress_atBase {P : Proto} (h : AtBase e) : progress P e =
    sendRequest P .baseProbe (buildControl 0 e.localEpoch .mtuProbe) 0 e.base e := by
  unfold progress
  rw [Eff.get_bind]
  simp [h.started, h.terminal, h.outstanding, h.flags]

/-- The Pong that the engine waits for before its BASE probe. -/
structure Awaited (e : Engine) (message : Control) (o : OutstandingRequest) : Prop where
  response : requireResponse e message .ping = .ok o
  accepted : (e.state.observePong message o.messageID o.ping).1 = .accepted
  started : e.started = true
  terminal : e.terminalError = false
  flags : e.state.flags = ⟨true, true, true, true, true, false, false⟩

/-- What the engine keeps until the BASE probe is built. -/
structure Kept (e t : Engine) : Prop where
  base : t.base = e.base
  codec : t.codec = e.codec
  localEpoch : t.localEpoch = e.localEpoch
  localMessageID : t.localMessageID = e.localMessageID

theorem AcceptedBase.kept {t : Engine} {mtu : ℕ} (h : AcceptedBase e mtu) (hk : Kept e t) :
    AcceptedBase t mtu := by
  refine ⟨?_, ?_, ?_⟩
  · rw [hk.base]
    exact h.minimum
  · rw [hk.base, hk.codec]
    exact h.ceiling
  · rw [hk.codec]
    exact h.maximum

private theorem observeRTT_succeeds (o : OutstandingRequest) :
    Succeeds (observeRTT o) e fun _ t => Kept e t ∧ t.started = e.started ∧
      t.terminalError = e.terminalError ∧ t.state.flags = e.state.flags := by
  have hk : Kept e e := ⟨rfl, rfl, rfl, rfl⟩
  unfold observeRTT
  split
  · refine Succeeds.bind ⟨_, _, rfl, ?_⟩
    dsimp only
    split
    · exact .modify ⟨⟨rfl, rfl, rfl, rfl⟩, rfl, rfl, rfl⟩
    · exact .pure ⟨⟨rfl, rfl, rfl, rfl⟩, rfl, rfl, rfl⟩
  · exact .pure ⟨hk, rfl, rfl, rfl⟩

private theorem observePong_flags {s : State} {m : Control} {reply : UInt64} {sequence : UInt32}
    (h : (s.observePong m reply sequence).1 = .accepted) :
    (s.observePong m reply sequence).2.flags = { s.flags with pingPong := true } := by
  unfold State.observePong at h ⊢
  split at h
  · split at h
    · next hok => rw [if_pos hok]
    · cases h
  · cases h

theorem handlePong_progresses {P : Proto} {message : Control} {o : OutstandingRequest}
    (h : Awaited e message o) : ∃ t, AtBase t ∧ Kept e t ∧
      ((handlePong P message e).1 = (progress P t).1 ∧
        (handlePong P message e).2.outstanding = (progress P t).2.outstanding) := by
  have hf := observePong_flags h.accepted
  obtain ⟨_, t, hr, hk, hs, ht, heq⟩ :=
    observeRTT_succeeds (e := { e with state := (e.state.observePong message o.messageID o.ping).2 }) o
  have hat : AtBase { t with outstanding := none } := by
    refine ⟨hs.trans h.started, ht.trans h.terminal, rfl, ?_⟩
    rw [h.flags] at hf
    exact heq.trans hf
  have hk' : Kept e { t with outstanding := none } :=
    ⟨hk.base, hk.codec, hk.localEpoch, hk.localMessageID⟩
  have hrun : handlePong P message e =
      if e.baseError then outsideBaseError (progress P) { t with outstanding := none }
      else progress P { t with outstanding := none } := by
    unfold handlePong
    rw [Eff.get_bind, Eff.bind_apply, Engine.liftExcept, h.response]
    dsimp only
    rw [Eff.get_bind]
    have hpong : onState (State.observePong · message o.messageID o.ping) e =
      (.ok (e.state.observePong message o.messageID o.ping).1,
        { e with state := (e.state.observePong message o.messageID o.ping).2 }) := rfl
    rw [Eff.bind_apply, hpong]
    dsimp only
    rw [if_neg (not_not.mpr h.accepted), Eff.bind_apply, hr]
    show (if e.baseError = true then _ else _ : EngineM (List Bytes)) _ = _
    split <;> rfl
  rw [hrun]
  split
  · exact ⟨{ t with outstanding := none, baseError := false },
      ⟨hat.started, hat.terminal, rfl, hat.flags⟩,
      ⟨hk.base, hk.codec, hk.localEpoch, hk.localMessageID⟩, rfl, rfl⟩
  · exact ⟨_, hat, hk', rfl, rfl⟩

/-- The result is the frame of a BASE probe, which occupies the correlation slot. -/
def BuildsBase (e : Engine) (r : Except EngineError (List Bytes) × Engine) : Prop :=
  (∃ frame, r.1 = .ok [frame] ∧ frame.length = e.base.toNat) ∧
    ∃ o, r.2.outstanding = some o ∧ o.kind = .baseProbe ∧ o.probeSize = e.base

/-- There is a next message identifier, and BASE is not the length that its frames skip. -/
def Representable (e : Engine) : Prop :=
  e.localMessageID ≠ 0xffffffffffffffff ∧
    e.base.toNat ≠ probeOverhead e.localEpoch (e.localMessageID + 1) + 16386

private theorem sendRequest_exhausted {P : Proto} {kind : RequestKind} {message : Control}
    {ping size : UInt32} (hid : e.localMessageID = 0xffffffffffffffff) :
    sendRequest P kind message ping size e = (.error .messageIDExhausted, e) := by
  have hnext : nextLocalMessageID e = (.error .messageIDExhausted, e) := by
    unfold nextLocalMessageID
    rw [Eff.get_bind, Eff.bind_apply, Engine.liftExcept, nextID, if_pos hid]
  unfold sendRequest
  rw [Eff.bind_apply, hnext]

section Exact
variable {P : Proto} (hP : Proto.SizesProbes P) {e : Engine} {mtu : ℕ}
  (hbase : AcceptedBase e mtu)
include hP hbase

private theorem progress_builds_iff (hat : AtBase e) :
    BuildsBase e (progress P e) ↔ Representable e := by
  rw [progress_atBase hat]
  constructor
  · rintro ⟨⟨frame, hok, -⟩, -⟩
    constructor
    · intro hmax
      rw [sendRequest_exhausted hmax] at hok
      cases hok
    · intro hgap
      by_cases hmax : e.localMessageID = 0xffffffffffffffff
      · rw [sendRequest_exhausted hmax] at hok
        cases hok
      · rw [sendRequest_skipped hP hbase (if_neg hmax) hgap] at hok
        cases hok
  · rintro ⟨hmax, hgap⟩
    obtain ⟨out, t, hrun, ⟨frame, rfl, hlen⟩, ho⟩ :=
      sendRequest_exact hP hbase (if_neg hmax) hgap
    rw [hrun]
    exact ⟨⟨frame, rfl, hlen⟩, ho⟩

/-- The BASE probe has exactly its size and occupies the correlation slot, also after a Pong, if and
only if its frames do not skip BASE. -/
theorem base_probe_exact :
    (AtBase e → (BuildsBase e (progress P e) ↔ Representable e)) ∧
    ∀ message o, Awaited e message o →
      (BuildsBase e (handlePong P message e) ↔ Representable e) := by
  refine ⟨progress_builds_iff hP hbase, fun message o hpong => ?_⟩
  obtain ⟨t, hat, hkept, hres, hout⟩ := handlePong_progresses (P := P) hpong
  have hsame : BuildsBase e (handlePong P message e) ↔ BuildsBase t (progress P t) := by
    unfold BuildsBase
    rw [hres, hout, hkept.base]
  have hcond : Representable t ↔ Representable e := by
    unfold Representable
    rw [hkept.base, hkept.localEpoch, hkept.localMessageID]
  rw [hsame, progress_builds_iff hP (hbase.kept hkept) hat, hcond]

end Exact

/-- An engine before or after its Pong, whose BASE is accepted by the configuration. -/
def skippedEngine (pingPong : Bool) (outstanding : Option OutstandingRequest) : Engine where
  state := {
    config := {
      maxCarrierPayload := 65432
      minCarrierPayload := 16407
      supportedFeatureBits := 0
      requiredFeatureBits := 0
      reassemblyLifetimeMs := 1000
      localPeerMTU := 1500
      stateSyncMinInterval := second
      clock := fun n => n
      entropy := fun _ => none }
    flags := ⟨true, true, true, true, true, pingPong, false⟩
    localEpoch := 0x8000000000000000 }
  codec := ⟨65432⟩
  base := 16407
  canonicalizeCarrierPayload := none
  transportDatagramSize := none
  onConfirmedPayloadChange := false
  started := true
  localEpoch := 0x8000000000000000
  localMessageID := 4
  outstanding := outstanding

def skippedPing : OutstandingRequest := { kind := .ping, messageID := 4, ping := 1 }

def skippedPong : Control := { buildControl 4 0x8000000000000000 (.pong 1) with messageID := 9 }

private theorem skippedEngine_accepted (pingPong : Bool) (o : Option OutstandingRequest) :
    AcceptedBase (skippedEngine pingPong o) 1500 :=
  ⟨(by decide : Limits.ValidMinCarrierPayload 1500 16407), (by decide : 16407 ≤ 65432),
    (by decide : 65432 ≤ 65448)⟩

/-- One byte more than the skipped length. -/
theorem base_probe_exact_sample :
    AcceptedBase { skippedEngine true none with base := 16408 } 1500 ∧
    BuildsBase { skippedEngine true none with base := 16408 }
      (progress Protobuf.proto { skippedEngine true none with base := 16408 }) ∧
    BuildsBase { skippedEngine false (some skippedPing) with base := 16408 }
      (handlePong Protobuf.proto skippedPong
        { skippedEngine false (some skippedPing) with base := 16408 }) := by
  have hbase : ∀ pingPong o, AcceptedBase { skippedEngine pingPong o with base := 16408 } 1500 :=
    fun _ _ => ⟨(by decide : Limits.ValidMinCarrierPayload 1500 16408), (by decide : 16408 ≤ 65432),
      (by decide : 65432 ≤ 65448)⟩
  have hrep : ∀ pingPong o, Representable { skippedEngine pingPong o with base := 16408 } :=
    fun _ _ => ⟨(by decide : (4 : UInt64) ≠ 0xffffffffffffffff),
      (by decide : (16408 : UInt32).toNat ≠ probeOverhead 0x8000000000000000 (4 + 1) + 16386)⟩
  refine ⟨hbase true none, ?_, ?_⟩
  · exact ((base_probe_exact proto_sizesProbes (hbase true none)).1 ⟨rfl, rfl, rfl, rfl⟩).mpr
      (hrep true none)
  · exact ((base_probe_exact proto_sizesProbes (hbase false (some skippedPing))).2 skippedPong
      skippedPing ⟨rfl, rfl, rfl, rfl, rfl⟩).mpr (hrep false (some skippedPing))

/-- A BASE of 16407 bytes is accepted, but under an epoch of ten bytes and a message identifier of
one byte its probe cannot be built, and the Pong leaves the engine without a request. -/
theorem base_probe_unrepresentable :
    AcceptedBase (skippedEngine true none) 1500 ∧ AtBase (skippedEngine true none) ∧
    (progress Protobuf.proto (skippedEngine true none)).1 = .error .unrepresentableProbe ∧
    Awaited (skippedEngine false (some skippedPing)) skippedPong skippedPing ∧
    (handlePong Protobuf.proto skippedPong (skippedEngine false (some skippedPing))).1 =
      .error .unrepresentableProbe ∧
    (handlePong Protobuf.proto skippedPong (skippedEngine false (some skippedPing))).2.outstanding =
      none := by
  have hat : AtBase (skippedEngine true none) := ⟨rfl, rfl, rfl, rfl⟩
  have hawa : Awaited (skippedEngine false (some skippedPing)) skippedPong skippedPing :=
    ⟨rfl, rfl, rfl, rfl, rfl⟩
  refine ⟨skippedEngine_accepted true none, hat, ?_, hawa, ?_⟩
  · have hid : nextID (skippedEngine true none).localMessageID = .ok 5 := rfl
    rw [progress_atBase hat, sendRequest_skipped proto_sizesProbes
      (skippedEngine_accepted true none) hid (by decide)]
  · obtain ⟨t, hat', hkept, hres, hout⟩ := handlePong_progresses (P := Protobuf.proto) hawa
    have hbase := (skippedEngine_accepted false (some skippedPing)).kept hkept
    have hid : nextID t.localMessageID = .ok 5 := by
      rw [hkept.localMessageID]
      rfl
    have hgap : t.base.toNat = probeOverhead t.localEpoch 5 + 16386 := by
      rw [hkept.base, hkept.localEpoch]
      decide
    rw [progress_atBase hat', sendRequest_skipped proto_sizesProbes hbase hid hgap] at hres hout
    exact ⟨hres, hout.trans hat'.outstanding⟩

end WgFrag.Control
