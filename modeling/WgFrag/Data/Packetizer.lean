import WgFrag.Data.Fragment

/-! Packing of records into carriers. A carrier is handed to an emitter when the next record does
not fit into it. -/
namespace WgFrag.Data
open WgFrag.Lib Limits List
open Fragment (Metadata Cuts split split_isSplit)

structure Packetizer where
  carrierPayload : ℕ
  minPack : ℕ
  /-- the part of the carrier in use -/
  buffer : Bytes

/-- The errors of the emitter are passed on. -/
inductive PackError (ε : Type) where
  | carrierPayload
  | minPack
  | fragment (e : Fragment.Error)
  | marshal (e : MarshalError)
  | emit (e : ε)
  deriving DecidableEq, Repr

abbrev PackM (τ ε : Type) := Eff (Packetizer × τ) (PackError ε)

namespace Packetizer

/-- `room` is the length of the buffer. -/
def init {ε : Type} (room carrierPayload minPack : ℕ) : Except (PackError ε) Packetizer :=
  if carrierPayload ≤ headerSize ∨ maxUint16 < carrierPayload ∨ room < carrierPayload then
    .error .carrierPayload
  else if minPack < 1 then .error .minPack
  else .ok ⟨carrierPayload, minPack, []⟩

variable {τ ε : Type} (emit : Bytes → Eff τ ε Unit)

def reset (p : Packetizer) : Packetizer := { p with buffer := [] }

/-- A failed emission leaves the carrier as it is. -/
def flush : PackM τ ε Unit := fun s =>
  if s.1.buffer = [] then (.ok (), s)
  else
    match emit s.1.buffer s.2 with
    | (.ok (), t) => (.ok (), (s.1.reset, t))
    | (.error e, t) => (.error (.emit e), (s.1, t))

def write (record : Record) : PackM τ ε Unit := fun s =>
  match marshalTo (s.1.carrierPayload - s.1.buffer.length) record.header record.data with
  | .ok bytes => (.ok (), ({ s.1 with buffer := s.1.buffer ++ bytes }, s.2))
  | .error e => (.error (.marshal e), s)

def pack : List Record → PackM τ ε Unit
  | [] => pure ()
  | record :: records => do
    let s ← get
    if s.1.carrierPayload - s.1.buffer.length < headerSize + record.data.length then flush emit
    write record
    pack records

/-- Split the packet for a carrier with `remaining` bytes left. -/
def cut (packet : Bytes) (metadata : Metadata) (remaining : ℕ) :
    PackM τ ε Fragment.Result := fun s =>
  match split packet metadata ⟨s.1.carrierPayload, remaining, s.1.minPack⟩ maxFragments with
  | .ok result => (.ok result, s)
  | .error e => (.error (.fragment e), s)

def add (packet : Bytes) (metadata : Metadata) : PackM τ ε Unit := do
  let s ← get
  let result ← cut packet metadata (s.1.carrierPayload - s.1.buffer.length)
  if ¬ result.startInTail ∧ s.1.buffer ≠ [] then
    flush emit
    let result ← cut packet metadata s.1.carrierPayload
    pack emit result.fragments
  else pack emit result.fragments

/-! ### The stream of records -/

/-- An emitter adds one carrier to what `view` sees, or fails and adds none. -/
structure Appends (emit : Bytes → Eff τ ε Unit) (view : τ → List Bytes) : Prop where
  ok : ∀ {payload t t'}, emit payload t = (.ok (), t') → view t' = view t ++ [payload]
  error : ∀ {payload t e t'}, emit payload t = (.error e, t') → view t' = view t

/-- After the carriers of `base`, those that went out and the one in the buffer hold exactly the
records, in order. -/
def Packed (limit : ℕ) (base : List Bytes) (records : List Record) (out : List Bytes)
    (buffer : Bytes) : Prop :=
  ∃ (groups : List (List Record)) (rest : List Record),
    out = base ++ groups.map (List.flatMap encodeRecord) ∧
    buffer = rest.flatMap encodeRecord ∧ groups.flatten ++ rest = records ∧
    (∀ group ∈ groups, group ≠ []) ∧ (∀ record ∈ records, record.Valid) ∧ buffer.length ≤ limit

variable {emit} {view : τ → List Bytes} {limit : ℕ} {base out : List Bytes}
  {records fs : List Record} {s : Packetizer × τ} {buffer : Bytes}

theorem Packed.length_le (h : Packed limit base records out buffer) : buffer.length ≤ limit := by
  obtain ⟨-, -, -, -, -, -, -, hl⟩ := h
  exact hl

theorem Packed.flushed (h : Packed limit base records out buffer) (hne : buffer ≠ []) :
    Packed limit base records (out ++ [buffer]) [] := by
  obtain ⟨groups, rest, ho, hb, hr, hgr, hv, _⟩ := h
  refine ⟨groups ++ [rest], [], ?_, rfl, ?_, ?_, hv, Nat.zero_le _⟩
  · rw [ho, hb, map_append, append_assoc]
    rfl
  · rw [← hr]
    simp
  intro group hg
  rcases mem_append.mp hg with hg | hg
  · exact hgr group hg
  · rw [mem_singleton.mp hg]
    rintro rfl
    exact hne hb

theorem Packed.written {record : Record} (h : Packed limit base records out buffer)
    (hv : record.Valid) (hrm : headerSize + record.data.length ≤ limit - buffer.length) :
    Packed limit base (records ++ [record]) out (buffer ++ encodeRecord record) := by
  obtain ⟨groups, rest, ho, hb, hre, hg, ha, _⟩ := h
  refine ⟨groups, rest ++ [record], ho, ?_, ?_, hg, ?_, ?_⟩
  · rw [hb, flatMap_append]
    simp
  · rw [← hre, append_assoc]
  · intro r hr
    rcases mem_append.mp hr with hr | hr
    · exact ha r hr
    · rw [mem_singleton.mp hr]
      exact hv
  · rw [length_append, length_encodeRecord]
    omega

/-- How packing `fs` after `records` ends: all of them are packed, or the emitter failed and only
the first ones are. -/
structure Packs (emit : Bytes → Eff τ ε Unit) (view : τ → List Bytes) (base : List Bytes)
    (records fs : List Record) (s : Packetizer × τ)
    (out : Except (PackError ε) Unit × (Packetizer × τ)) : Prop where
  carrierPayload : out.2.1.carrierPayload = s.1.carrierPayload
  minPack : out.2.1.minPack = s.1.minPack
  ok : out.1 = .ok () → Packed s.1.carrierPayload base (records ++ fs) (view out.2.2) out.2.1.buffer
  error : ∀ e, out.1 = .error e → (∃ e' payload t t', e = .emit e' ∧
    emit payload t = (.error e', t') ∧ payload.length ≤ s.1.carrierPayload) ∧
    ∃ k, Packed s.1.carrierPayload base (records ++ fs.take k) (view out.2.2) out.2.1.buffer

theorem write_eq {f : Record} (hv : f.Valid)
    (hrm : ¬ s.1.carrierPayload - s.1.buffer.length < headerSize + f.data.length) :
    (write f : PackM τ ε Unit) s =
      (.ok (), ({ s.1 with buffer := s.1.buffer ++ encodeRecord f }, s.2)) := by
  unfold write marshalTo
  rw [show validate f.header f.data.length = .ok () from hv]
  rw [if_neg hrm]

/-! ### The steps of packing -/

/-- How the records `fs` are packed: the emitter is given the buffer, which it may refuse, or the
next record goes into the buffer. -/
inductive Goes (emit : Bytes → Eff τ ε Unit) :
    Packetizer × τ → List Record → Except (PackError ε) Unit × (Packetizer × τ) → Prop
  | done (s : Packetizer × τ) : Goes emit s [] (.ok (), s)
  | flushed {s t fs out} : s.1.buffer ≠ [] → emit s.1.buffer s.2 = (.ok (), t) →
    Goes emit (s.1.reset, t) fs out → Goes emit s fs out
  | failed {s t fs e} : s.1.buffer ≠ [] → emit s.1.buffer s.2 = (.error e, t) →
    Goes emit s fs (.error (.emit e), (s.1, t))
  | written {s f fs out} : f.Valid →
    headerSize + f.data.length ≤ s.1.carrierPayload - s.1.buffer.length →
    Goes emit ({ s.1 with buffer := s.1.buffer ++ encodeRecord f }, s.2) fs out →
    Goes emit s (f :: fs) out

theorem reset_eq {p : Packetizer} (h : p.buffer = []) : p.reset = p := by
  unfold reset
  rw [← h]

theorem flush_empty (h : (flush emit s).1 = .ok ()) : (flush emit s).2.1.buffer = [] := by
  unfold flush at h ⊢
  split
  · next he => exact he
  next hne =>
  rw [if_neg hne] at h
  generalize emit s.1.buffer s.2 = out at h
  obtain ⟨res, t⟩ := out
  cases res with
  | ok => rfl
  | error => cases h

theorem flush_bind {x : PackM τ ε Unit}
    (h : ∀ t, Goes emit (s.1.reset, t) fs (x (s.1.reset, t))) :
    Goes emit s fs ((flush emit >>= fun _ => x) s) := by
  rw [Eff.bind_apply]
  unfold flush
  by_cases he : s.1.buffer = []
  · have hx := h s.2
    rw [reset_eq he] at hx
    rw [if_pos he]
    exact hx
  rw [if_neg he]
  cases hem : emit s.1.buffer s.2 with
  | mk res t =>
    cases res with
    | ok => exact .flushed he hem (h t)
    | error => exact .failed he hem

theorem flush_goes (s : Packetizer × τ) : Goes emit s [] (flush emit s) := by
  have h := flush_bind (s := s) (x := (pure () : PackM τ ε Unit))
    fun t => (.done _ : Goes emit (s.1.reset, t) [] _)
  rw [Eff.bind_apply] at h
  generalize flush emit s = out at h
  obtain ⟨res, _⟩ := out
  cases res <;> exact h

theorem pack_goes (hf : ∀ f ∈ fs, f.Valid ∧ headerSize + f.data.length ≤ s.1.carrierPayload) :
    Goes emit s fs (pack emit fs s) := by
  induction fs generalizing s with
  | nil => exact .done s
  | cons f fs ih =>
    obtain ⟨hv, _⟩ := hf f (mem_cons_self ..)
    -- Once there is room, the record is written and the rest follows.
    have hgo : ∀ s' : Packetizer × τ, s'.1.carrierPayload = s.1.carrierPayload →
        ¬ s'.1.carrierPayload - s'.1.buffer.length < headerSize + f.data.length →
        Goes emit s' (f :: fs) ((write f >>= fun _ => pack emit fs) s') := by
      intro s' hc hrm
      rw [Eff.bind_apply, write_eq hv hrm]
      refine .written hv (by omega) (ih fun g hg => ?_)
      rw [hc]
      exact hf g (mem_cons_of_mem _ hg)
    unfold pack
    rw [Eff.get_bind]
    by_cases hrm : s.1.carrierPayload - s.1.buffer.length < headerSize + f.data.length
    · rw [if_pos hrm]
      refine flush_bind fun t => hgo (s.1.reset, t) rfl ?_
      show ¬ s.1.carrierPayload - 0 < _
      omega
    · rw [if_neg hrm]
      exact hgo s rfl hrm

private theorem cut_ok {packet : Bytes} {metadata : Metadata} {remaining : ℕ}
    {result : Fragment.Result}
    (h : split packet metadata ⟨s.1.carrierPayload, remaining, s.1.minPack⟩ maxFragments =
      .ok result) :
    (cut packet metadata remaining : PackM τ ε Fragment.Result) s =
      (.ok result, s) := by
  unfold cut
  rw [h]

theorem add_refused {packet : Bytes} {metadata : Metadata} {e : Fragment.Error}
    (h : split packet metadata ⟨s.1.carrierPayload, s.1.carrierPayload - s.1.buffer.length,
      s.1.minPack⟩ maxFragments = .error e) :
    add emit packet metadata s = (.error (.fragment e), s) := by
  unfold add
  rw [Eff.get_bind, Eff.bind_apply]
  unfold cut
  rw [h]

/-- A packet that can be split is split for an empty carrier, or its records are packed after
those of the carrier in use. -/
theorem add_goes (emit : Bytes → Eff τ ε Unit) {packet : Bytes} {metadata : Metadata}
    {result : Fragment.Result}
    (h : split packet metadata ⟨s.1.carrierPayload, s.1.carrierPayload - s.1.buffer.length,
      s.1.minPack⟩ maxFragments = .ok result) :
    ∃ remaining result,
      split packet metadata ⟨s.1.carrierPayload, remaining, s.1.minPack⟩ maxFragments = .ok result ∧
      Goes emit s result.fragments (add emit packet metadata s) ∧
      (result.startInTail = false ∨ remaining = s.1.carrierPayload ∨
        remaining = s.1.carrierPayload - s.1.buffer.length ∧ s.1.buffer ≠ [] ∧
          add emit packet metadata s = pack emit result.fragments s) := by
  have ha : add emit packet metadata s = (if ¬ result.startInTail ∧ s.1.buffer ≠ [] then
      flush emit >>= fun _ => cut packet metadata s.1.carrierPayload >>= fun result =>
        pack emit result.fragments
      else pack emit result.fragments) s := by
    unfold add
    rw [Eff.get_bind, Eff.bind_apply, cut_ok h]
  by_cases hfl : ¬ result.startInTail ∧ s.1.buffer ≠ []
  · obtain ⟨result', hag⟩ := Fragment.split_again h (by simpa using hfl.1)
    refine ⟨_, result', hag, ?_, .inr (.inl rfl)⟩
    rw [ha, if_pos hfl]
    refine flush_bind fun t => ?_
    rw [Eff.bind_apply, cut_ok (s := (s.1.reset, t)) hag]
    exact pack_goes (split_isSplit hag).fits
  · rw [if_neg hfl] at ha
    refine ⟨_, result, h, ha ▸ pack_goes (split_isSplit h).fits, ?_⟩
    by_cases he : s.1.buffer = []
    · rw [he]
      exact .inr (.inl rfl)
    · exact .inr (.inr ⟨rfl, he, ha⟩)

section Spec
variable (happends : Appends emit view)
include happends

theorem Goes.packs {out : Except (PackError ε) Unit × (Packetizer × τ)} (h : Goes emit s fs out)
    (hp : Packed s.1.carrierPayload base records (view s.2) s.1.buffer) :
    Packs emit view base records fs s out := by
  induction h generalizing records with
  | done =>
    refine ⟨rfl, rfl, fun _ => ?_, nofun⟩
    rw [append_nil]
    exact hp
  | flushed hne hem _ ih =>
    have hfl := hp.flushed hne
    rw [← happends.ok hem] at hfl
    exact { ih hfl with }
  | failed hne hem =>
    have hl := hp.length_le
    refine ⟨rfl, rfl, nofun, fun e he => ?_⟩
    cases he
    refine ⟨⟨_, _, _, _, rfl, hem, hl⟩, 0, ?_⟩
    rw [happends.error hem, take_zero, append_nil]
    exact hp
  | written hv hrm _ ih =>
    have hr := ih (hp.written hv hrm)
    refine ⟨hr.carrierPayload, hr.minPack, fun hok => ?_, fun e he => ?_⟩
    · have ha := hr.ok hok
      rw [append_assoc] at ha
      exact ha
    · obtain ⟨hem, k, ha⟩ := hr.error e he
      rw [append_assoc] at ha
      exact ⟨hem, k + 1, ha⟩

/-- A packet is refused and nothing changes, or it is cut and its fragments are packed. -/
theorem add_spec (packet : Bytes) (metadata : Metadata)
    (h : Packed s.1.carrierPayload base records (view s.2) s.1.buffer) :
    (∃ e, split packet metadata ⟨s.1.carrierPayload,
      s.1.carrierPayload - s.1.buffer.length, s.1.minPack⟩ maxFragments = .error e ∧
      add emit packet metadata s = (.error (.fragment e), s)) ∨ ∃ fs, Cuts packet metadata fs ∧
        Packs emit view base records fs s (add emit packet metadata s) := by
  cases hc : split packet metadata
      ⟨s.1.carrierPayload, s.1.carrierPayload - s.1.buffer.length, s.1.minPack⟩ maxFragments with
  | error e => exact .inl ⟨e, rfl, add_refused hc⟩
  | ok =>
    obtain ⟨_, result, hs, hgo, -⟩ := add_goes emit hc
    exact .inr ⟨result.fragments, (split_isSplit hs).cuts, hgo.packs happends h⟩

end Spec

end Packetizer
end WgFrag.Data
