import WgFrag.Data.Sender

/-! What packing keeps, whatever becomes of the carriers. Each carrier that is begun costs one of a
budget, and one packet begins no more carriers than its full records need. -/
namespace WgFrag.Data
open WgFrag.Lib Limits List
open Fragment (Metadata split ceilDiv_spec)

/-! ### The number of fragments -/

namespace Fragment
variable {packet : Bytes} {metadata : Metadata}

theorem ceilDiv_le {n d k : ℕ} (h : n ≤ k * d) : ceilDiv n d ≤ k := by
  unfold ceilDiv
  split
  · exact Nat.zero_le k
  rename_i hn
  have hd : 0 < d := by
    by_contra hz
    obtain rfl : d = 0 := by omega
    omega
  apply Nat.le_of_lt_succ
  rw [Nat.div_lt_iff_lt_mul hd, Nat.succ_mul]
  omega

theorem ceilDiv_mono {m n d : ℕ} (hd : 0 < d) (h : m ≤ n) : ceilDiv m d ≤ ceilDiv n d :=
  ceilDiv_le (Nat.le_trans h (ceilDiv_spec n hd).1)

/-- A full first record leaves one record less. -/
theorem ceilDiv_sub {n d : ℕ} (hn : 0 < n) (hd : 0 < d) :
    1 + ceilDiv (n - min n d) d ≤ ceilDiv n d := by
  obtain ⟨hc, _⟩ := ceilDiv_spec n hd
  obtain ⟨k, hk⟩ : ∃ k, ceilDiv n d = k + 1 := ⟨ceilDiv n d - 1, by omega⟩
  rw [hk, Nat.succ_mul] at hc
  have hr : ceilDiv (n - min n d) d ≤ k := ceilDiv_le (by omega)
  omega

/-- A packet that starts in the tail of a carrier in use takes at most one record more. -/
theorem split_count {carrierPayload remaining minPack output : ℕ} {result : Result}
    (h : split packet metadata ⟨carrierPayload, remaining, minPack⟩ output = .ok result) :
    result.fragments.length ≤ ceilDiv packet.length (carrierPayload - headerSize) + 1 ∧
      (result.startInTail = false ∨ remaining = carrierPayload →
        result.fragments.length ≤ ceilDiv packet.length (carrierPayload - headerSize)) := by
  obtain ⟨hsz, -, -, -, _, hpl, -, rfl, hlen⟩ := split_plan h
  have hfu : 0 < carrierPayload - headerSize := Nat.sub_pos_of_lt (makePlan_good hpl).carrier
  rw [hlen]
  rcases makePlan_cases hpl with ⟨rfl, -⟩ | ⟨rfl, -⟩
  · have hmono : ceilDiv (packet.length - min packet.length (remaining - headerSize))
        (carrierPayload - headerSize) ≤ ceilDiv packet.length (carrierPayload - headerSize) :=
      ceilDiv_mono hfu (Nat.sub_le _ _)
    refine ⟨by dsimp only; omega, fun hcase => ?_⟩
    rcases hcase with hcase | rfl
    · cases hcase
    · exact ceilDiv_sub hsz.1 hfu
  · exact ⟨Nat.le_succ _, fun _ => Nat.le_refl _⟩

end Fragment

/-! ### Packing under a budget -/

namespace Packetizer
variable {τ ε : Type} {emit : Bytes → Eff τ ε Unit} {limit n : ℕ}
  {I : ℕ → Bytes → τ → Prop} {fs : List Record} {s : Packetizer × τ}

/-- `I n buffer t` holds while `n` more carriers may be begun. -/
structure Spends (emit : Bytes → Eff τ ε Unit) (limit : ℕ) (I : ℕ → Bytes → τ → Prop) : Prop where
  weaken : ∀ {n buffer t}, I (n + 1) buffer t → I n buffer t
  flushed : ∀ {n buffer t t'}, I n buffer t → buffer ≠ [] → buffer.length ≤ limit →
    emit buffer t = (.ok (), t') → I n [] t'
  begun : ∀ {n t} (bytes : Bytes), I (n + 1) [] t → I n bytes t
  extended : ∀ {n buffer t} (bytes : Bytes), I n buffer t → buffer ≠ [] → I n (buffer ++ bytes) t

/-- How packing ends: within the budget, or with a failed emission that was within it. -/
structure Kept (emit : Bytes → Eff τ ε Unit) (limit : ℕ) (I : ℕ → Bytes → τ → Prop) (n : ℕ)
    (s : Packetizer × τ) (out : Except (PackError ε) Unit × (Packetizer × τ)) : Prop where
  carrierPayload : out.2.1.carrierPayload = s.1.carrierPayload
  minPack : out.2.1.minPack = s.1.minPack
  fits : out.2.1.buffer.length ≤ limit
  ok : out.1 = .ok () → I n out.2.1.buffer out.2.2
  error : ∀ e, out.1 = .error e → ∃ e' t, e = .emit e' ∧ I n out.2.1.buffer t ∧
    out.2.1.buffer ≠ [] ∧ emit out.2.1.buffer t = (.error e', out.2.2)

section Rules
variable (hspends : Spends emit limit I)
include hspends

theorem Spends.weaken_add (k : ℕ) {buffer : Bytes} {t : τ} (h : I (n + k) buffer t) :
    I n buffer t := by
  induction k with
  | zero => exact h
  | succ _ ih => exact ih (hspends.weaken h)

theorem Goes.kept {out : Except (PackError ε) Unit × (Packetizer × τ)} (h : Goes emit s fs out)
    (hl : s.1.carrierPayload = limit) (hf : s.1.buffer.length ≤ limit)
    (hI : I (n + fs.length) s.1.buffer s.2) : Kept emit limit I n s out := by
  induction h with
  | done => exact ⟨rfl, rfl, hf, fun _ => hI, nofun⟩
  | flushed hne hem _ ih =>
    exact { ih hl (Nat.zero_le _) (hspends.flushed hI hne hf hem) with }
  | failed hne hem =>
    refine ⟨rfl, rfl, hf, nofun, fun e he => ?_⟩
    cases he
    exact ⟨_, _, rfl, hspends.weaken_add _ hI, hne, hem⟩
  | @written s f fs _ _ hrm _ ih =>
    have hlen : (s.1.buffer ++ encodeRecord f).length ≤ limit := by
      rw [length_append, length_encodeRecord]
      omega
    -- The record costs one carrier if it begins it, and nothing otherwise.
    have hnx : I (n + fs.length) (s.1.buffer ++ encodeRecord f) s.2 := by
      rw [length_cons, ← Nat.add_assoc] at hI
      by_cases hep : s.1.buffer = []
      · rw [hep] at hI ⊢
        exact hspends.begun _ hI
      · exact hspends.extended _ (hspends.weaken hI) hep
    exact { ih hl hlen hnx with }

omit hspends in
private theorem pack_fits {f : Record} (hv : f.Valid)
    (hrm : headerSize + f.data.length ≤ s.1.carrierPayload - s.1.buffer.length) :
    pack emit (f :: fs) s =
      pack emit fs ({ s.1 with buffer := s.1.buffer ++ encodeRecord f }, s.2) := by
  rw [pack, Eff.get_bind]
  rw [if_neg (by omega)]
  show (write f >>= fun _ => pack emit fs) s = _
  rw [Eff.bind_apply, write_eq hv (by omega)]

/-- A packet begins at most as many carriers as it has full records. -/
theorem add_kept (packet : Bytes) (metadata : Metadata) {k : ℕ} (hl : s.1.carrierPayload = limit)
    (hft : s.1.buffer.length ≤ limit)
    (hk : ceilDiv packet.length (limit - headerSize) ≤ k ∨ maxFragments ≤ k)
    (h : I (n + k) s.1.buffer s.2) :
    (∃ e, add emit packet metadata s = (.error (.fragment e), s)) ∨
      Kept emit limit I n s (add emit packet metadata s) := by
  cases hc : split packet metadata
      ⟨s.1.carrierPayload, s.1.carrierPayload - s.1.buffer.length, s.1.minPack⟩ maxFragments with
  | error e => exact .inl ⟨e, add_refused hc⟩
  | ok =>
    right
    obtain ⟨_, result, hs, hgo, hcase⟩ := add_goes emit hc
    have hre := Fragment.split_isSplit hs
    obtain ⟨hcn, hfe⟩ := Fragment.split_count hs
    obtain ⟨ho, hmax⟩ := hre.count
    rw [hl] at hcn hfe
    have hfu : result.fragments.length ≤ k →
        Kept emit limit I n s (add emit packet metadata s) := by
      intro hle
      obtain ⟨_, rfl⟩ := Nat.exists_eq_add_of_le hle
      rw [← Nat.add_assoc] at h
      exact hgo.kept hspends hl hft (hspends.weaken_add _ h)
    rcases hcase with ht | hr | ⟨rfl, hb, ha⟩
    · have := hfe (.inl ht)
      exact hfu (by omega)
    · have := hfe (.inr (hr.trans hl))
      exact hfu (by omega)
    rcases Bool.eq_false_or_eq_true result.startInTail with ht | ht
    · -- The first record goes into the tail and begins no carrier.
      have hv := hre.fits
      have hfs := hre.tail ht
      rw [ha]
      generalize result.fragments = fs at ho hmax hcn hv hfs
      cases fs with
      | nil => cases ho
      | cons f fs =>
        obtain ⟨hf, -⟩ := hv f (mem_cons_self ..)
        have hrm : headerSize + f.data.length ≤ s.1.carrierPayload - s.1.buffer.length :=
          hfs f rfl
        rw [length_cons] at hcn hmax
        have hle : fs.length ≤ k := by omega
        obtain ⟨_, rfl⟩ := Nat.exists_eq_add_of_le hle
        rw [← Nat.add_assoc] at h
        rw [pack_fits hf hrm]
        have hlen : (s.1.buffer ++ encodeRecord f).length ≤ limit := by
          rw [length_append, length_encodeRecord]
          omega
        have hgo : Goes emit ({ s.1 with buffer := s.1.buffer ++ encodeRecord f }, s.2) fs _ :=
          pack_goes fun g hg => hv g (mem_cons_of_mem _ hg)
        exact { hgo.kept hspends hl hlen (hspends.extended _ (hspends.weaken_add _ h) hb) with }
    · have := hfe (.inl ht)
      exact hfu (by omega)

end Rules
end Packetizer

/-! ### Senders -/

namespace Sender
variable {τ ε : Type} {deliver : PeerID → Bytes → Eff τ ε Unit} {limit n : ℕ}
  {I : ℕ → Bytes → τ → Prop} {s : Sender × τ}

/-- How a call of a sender ends: within the budget, or with a failed emission that was within
it. -/
structure Kept (deliver : PeerID → Bytes → Eff τ ε Unit) (I : ℕ → Bytes → τ → Prop) (n : ℕ)
    (s : Sender × τ) (out : Except (SendError ε) Unit × (Sender × τ)) : Prop where
  config : out.2.1.config = s.1.config
  carrierPayload : out.2.1.packetizer.carrierPayload = s.1.packetizer.carrierPayload
  minPack : out.2.1.packetizer.minPack = s.1.packetizer.minPack
  reuseWait : out.2.1.reuseWait = s.1.reuseWait
  fits : out.2.1.packetizer.buffer.length ≤ s.1.packetizer.carrierPayload
  ok : out.1 = .ok () → I n out.2.1.packetizer.buffer out.2.2
  error : ∀ e, out.1 = .error e →
    (I n out.2.1.packetizer.buffer out.2.2 ∧ ∀ e', e ≠ .pack (.emit e')) ∨
    ∃ e' t, e = .pack (.emit e') ∧ I n out.2.1.packetizer.buffer t ∧
      out.2.1.packetizer.buffer ≠ [] ∧
      deliver s.1.config.peerID out.2.1.packetizer.buffer t = (.error e', out.2.2)

theorem flush_eq :
    flush deliver s = onPacketizer (Packetizer.flush (deliver s.1.config.peerID)) s :=
  rfl

private theorem onPacketizer_kept {x : PackM τ ε Unit}
    (h : Packetizer.Kept (deliver s.1.config.peerID) s.1.packetizer.carrierPayload I n
      (s.1.packetizer, s.2) (x (s.1.packetizer, s.2))) : Kept deliver I n s (onPacketizer x s) := by
  unfold onPacketizer
  generalize x (s.1.packetizer, s.2) = out at h
  obtain ⟨res, _, _⟩ := out
  cases res with
  | ok =>
    exact ⟨rfl, h.carrierPayload, h.minPack, rfl, h.fits, fun _ => h.ok rfl,
      fun e he => by cases he⟩
  | error e =>
    refine ⟨rfl, h.carrierPayload, h.minPack, rfl, h.fits, nofun, fun e' he => .inr ?_⟩
    obtain ⟨e'', u, heq, hI, hne, hem⟩ := h.error e rfl
    cases he
    exact ⟨e'', u, congrArg SendError.pack heq, hI, hne, hem⟩

theorem add_kept (now later : UnixTime) (packet : Bytes) {k : ℕ}
    (hspends : Packetizer.Spends (deliver s.1.config.peerID) s.1.packetizer.carrierPayload I)
    (hf : s.1.packetizer.buffer.length ≤ s.1.packetizer.carrierPayload)
    (hk : ∀ data, s.1.inspect packet = (.ok data : Except (SendError ε) Bytes) →
      ceilDiv data.length (s.1.packetizer.carrierPayload - headerSize) ≤ k ∨ maxFragments ≤ k)
    (h : I (n + k) s.1.packetizer.buffer s.2) :
    Kept deliver I n s (add deliver now later packet s) := by
  have hn := hspends.weaken_add k h
  cases hi : (s.1.inspect packet : Except (SendError ε) Bytes) with
  | error =>
    rw [add_refused hi]
    refine ⟨rfl, rfl, rfl, rfl, hf, nofun, fun e' he => .inl ⟨hn, ?_⟩⟩
    cases he
    exact fun e' => inspect_error hi _
  | ok data =>
    by_cases ho : s.1.Open now (s.1.lane data)
    · obtain ⟨hp, hcf, -, hw⟩ := opened_packetizer (s := s.1) (s.1.lane data)
      rw [add_open hi ho, Eff.bind_apply]
      rcases Packetizer.add_kept (s := (s.1.packetizer, s.2)) hspends data
        (s.1.metadata (s.1.lane data)) rfl hf (hk data hi) h with ⟨e, hrun⟩ | hkp
      · rw [onPacketizer_eq (show _ = (.error (.fragment e), _) by rw [hp, hrun])]
        refine ⟨hcf, rfl, rfl, hw, hf, nofun, fun e' he => .inl ⟨hn, ?_⟩⟩
        cases he
        exact fun e' heq => by cases heq
      · have ha : Kept deliver I n (s.1.opened (s.1.lane data), s.2) (onPacketizer
            (Packetizer.add (deliver s.1.config.peerID) data (s.1.metadata (s.1.lane data)))
            (s.1.opened (s.1.lane data), s.2)) :=
          onPacketizer_kept (by rw [hcf, hp]; exact hkp)
        generalize onPacketizer (Packetizer.add (deliver s.1.config.peerID) data
          (s.1.metadata (s.1.lane data))) (s.1.opened (s.1.lane data), s.2) = out at ha
        obtain ⟨res, _, _⟩ := out
        obtain ⟨hc', hc, hmin, hw', hlen, hok, her⟩ := ha
        rw [hp] at hc hmin hlen
        rw [hcf] at her
        cases res with
        | error =>
          exact ⟨hc'.trans hcf, hc, hmin, hw'.trans hw, hlen, nofun, her⟩
        | ok =>
          exact ⟨hc'.trans hcf, hc, hmin, hw'.trans hw, hlen,
            fun _ => hok rfl, fun e he => by cases he⟩
    · rw [add_blocked hi ho]
      refine ⟨rfl, rfl, rfl, rfl, hf, nofun, fun e' he => .inl ⟨hn, ?_⟩⟩
      cases he
      exact fun e' heq => by cases heq

theorem add_open_error {now later : UnixTime} {packet data : Bytes} {e : SendError ε}
    (hi : s.1.inspect packet = (.ok data : Except (SendError ε) Bytes))
    (ho : s.1.Open now (s.1.lane data)) (h : (add deliver now later packet s).1 = .error e) :
    ∃ e', e = .pack e' := by
  rw [add_open hi ho, Eff.bind_apply] at h
  unfold onPacketizer at h
  generalize Packetizer.add (deliver s.1.config.peerID) data (s.1.metadata (s.1.lane data))
    ((s.1.opened (s.1.lane data)).packetizer, s.2) = out at h
  obtain ⟨res, _⟩ := out
  cases res with
  | ok => cases h
  | error e' =>
    cases h
    exact ⟨e', rfl⟩

theorem inspect_length {s : Sender} {packet data : Bytes}
    (h : s.inspect packet = (.ok data : Except (SendError ε) Bytes)) :
    data.length ≤ packet.length := by
  unfold inspect at h
  cases hp : InnerIP.parse packet with
  | error => simp [hp] at h
  | ok =>
    simp only [hp] at h
    split_ifs at h
    obtain rfl := Except.ok.inj h
    obtain ⟨_, hn⟩ := InnerIP.parse_take hp
    rw [hn, length_take]
    exact Nat.min_le_right _ _

end Sender
end WgFrag.Data
