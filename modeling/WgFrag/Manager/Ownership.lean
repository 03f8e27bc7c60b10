import WgFrag.Manager.Supervisor

/-! The primitive updates of the manager's state: each keeps the invariant of names, public keys
and runtimes, and leaves alone what other operations rely on. -/
namespace WgFrag.Manager
open WgFrag.Lib List

namespace InterfaceManager
variable {C : Type} {checks : Checks C} {i : ℕ} {held gone : Option ℕ}
  {s s' : InterfaceManager C} {id : ℕ} {v : Supervisor C}
variable {cfg : C} {rt : ℕ} {name : String} {key newKey oldKey : PublicKey}
  {instanceID : InstanceID} {f : Supervisor C → Supervisor C} {keys : AList fun _ : PublicKey => ℕ}

def Alive (s : InterfaceManager C) (rt id : ℕ) (key : PublicKey) : Prop :=
  s.runtimes[rt]? = some { owner := id, key := key, alive := true }

abbrev Quiet (s : InterfaceManager C) (id : ℕ) : Prop := ∀ rt key, ¬ s.Alive rt id key

abbrev OnlyKey (s : InterfaceManager C) (id : ℕ) (key : PublicKey) : Prop :=
  ∀ k, s.byPublicKey.lookup k = some id → k = key

def Dead (s : InterfaceManager C) (rt : ℕ) : Prop :=
  ∃ r, s.runtimes[rt]? = some r ∧ r.alive = false

/-- Names and keys lead to their supervisors and back, a supervisor that may have a runtime is
registered, and every live runtime has its key reserved for its supervisor. -/
structure Sound (checks : Checks C) (s : InterfaceManager C) : Prop where
  names : ∀ {n id}, s.interfaces.lookup n = some id → ∃ v, s.supervisors[id]? = some v ∧
    v.name = n ∧ s.byPublicKey.lookup v.publicKey = some id
  keys : ∀ {k id}, s.byPublicKey.lookup k = some id → ∃ v, s.supervisors[id]? = some v ∧
    s.interfaces.lookup v.name = some id ∧ (v.opMu = none → k = v.publicKey)
  busy : ∀ {id : ℕ} {v}, s.supervisors[id]? = some v → v.anchor = true ∨ v.running ≠ none →
    s.interfaces.lookup v.name = some id
  live : ∀ {rt id key}, s.Alive rt id key → s.byPublicKey.lookup key = some id ∧
    ∀ v, s.supervisors[id]? = some v → v.opMu = none → v.running = some rt
  single : ∀ {rt rt' id key key'}, s.Alive rt id key → s.Alive rt' id key' → rt = rt'
  plan : ∀ {id : ℕ} {v}, s.supervisors[id]? = some v →
    checks.preparePeers v.config = some v.publicKey

/-! ### Reading the updates -/

theorem modify_self (h : s.supervisors[id]? = some v) :
    (s.modify id f).supervisors[id]? = some (f v) := by
  show (s.supervisors.modify id f)[id]? = _
  rw [getElem?_modify_eq, h]
  rfl

theorem modify_ne {other : ℕ} (h : other ≠ id) :
    (s.modify id f).supervisors[other]? = s.supervisors[other]? :=
  getElem?_modify_ne _ _ (Ne.symm h)

theorem kill_alive {rt' : ℕ} : (s.kill rt).Alive rt' id key ↔ rt' ≠ rt ∧ s.Alive rt' id key := by
  unfold Alive kill
  dsimp only
  by_cases h : rt = rt'
  · subst h
    rw [getElem?_modify_eq]
    refine ⟨fun h => ?_, fun h => absurd rfl h.1⟩
    cases hr : s.runtimes[rt]? with
    | none =>
      rw [hr] at h
      cases h
    | some =>
      rw [hr] at h
      cases congrArg Runtime.alive (Option.some.inj h)
  · rw [getElem?_modify_ne _ _ h]
    exact ⟨fun hr => ⟨Ne.symm h, hr⟩, fun hr => hr.2⟩

theorem kill_dead {rt' : ℕ} (h : s.Dead rt') : (s.kill rt).Dead rt' := by
  obtain ⟨r, hr, hd⟩ := h
  unfold Dead kill
  dsimp only
  by_cases heq : rt = rt'
  · subst heq
    rw [getElem?_modify_eq, hr]
    exact ⟨_, rfl, rfl⟩
  · rw [getElem?_modify_ne _ _ heq]
    exact ⟨r, hr, hd⟩

def launch (s : InterfaceManager C) (id : ℕ) (key : PublicKey) : InterfaceManager C :=
  { s with runtimes := s.runtimes ++ [{ owner := id, key := key }] }

theorem launch_alive {id' : ℕ} {key' : PublicKey} :
    (s.launch id key).Alive rt id' key' ↔
      s.Alive rt id' key' ∨ rt = s.runtimes.length ∧ id' = id ∧ key' = key := by
  unfold Alive launch
  dsimp only
  rcases Nat.lt_trichotomy rt s.runtimes.length with hlt | rfl | hgt
  · rw [getElem?_append_left hlt]
    exact ⟨.inl, fun h => h.resolve_right fun h => absurd h.1 (Nat.ne_of_lt hlt)⟩
  · rw [getElem?_concat_length, getElem?_eq_none (Nat.le_refl _)]
    refine ⟨fun h => ?_, fun h => ?_⟩
    · cases h
      exact .inr ⟨rfl, rfl, rfl⟩
    · rcases h with h | ⟨-, rfl, rfl⟩
      · cases h
      · rfl
  · have hn : (s.runtimes ++ [{ owner := id, key := key }])[rt]? = none := by
      refine getElem?_eq_none ?_
      rw [length_append, length_singleton]
      omega
    rw [hn, getElem?_eq_none (Nat.le_of_lt hgt)]
    exact ⟨fun h => (by cases h), fun h => h.elim (fun h => (by cases h)) fun h => by omega⟩

theorem launch_dead (h : s.Dead rt) : (s.launch id key).Dead rt := by
  obtain ⟨r, hr, hd⟩ := h
  refine ⟨r, ?_, hd⟩
  show (s.runtimes ++ [_])[rt]? = some r
  rw [getElem?_append_left (lt_of_get hr)]
  exact hr

/-! ### The invariant is kept -/

/-- An update of one supervisor. When it leaves the operation lock free, only the own key is
reserved and a live runtime is the recorded one. -/
theorem Sound.modify (h : Sound checks s)
    (hv : s.supervisors[id]? = some v) (hna : (f v).name = v.name)
    (hpl : checks.preparePeers (f v).config = some (f v).publicKey)
    (hkey : s.interfaces.lookup v.name = some id → s.byPublicKey.lookup (f v).publicKey = some id)
    (hbu : (f v).anchor = true ∨ (f v).running ≠ none → s.interfaces.lookup v.name = some id)
    (hfr : (f v).opMu = none → s.OnlyKey id (f v).publicKey ∧
      ∀ rt key, s.Alive rt id key → (f v).running = some rt) : Sound checks (s.modify id f) := by
  have hs := modify_self (f := f) hv
  refine ⟨fun {n id'} hn => ?_, fun {k id'} hk => ?_, fun {id' w} hw => ?_,
    fun {rt id' key} ha => ?_, h.single, fun {id' w} hw => ?_⟩
  · obtain ⟨w, hw, rfl, hr⟩ := h.names hn
    by_cases hid : id' = id
    · subst hid
      obtain rfl := Option.mem_unique hv hw
      exact ⟨f v, hs, hna, hkey hn⟩
    · exact ⟨w, (modify_ne hid).trans hw, rfl, hr⟩
  · obtain ⟨w, hw, hn, hc⟩ := h.keys hk
    by_cases hid : id' = id
    · subst hid
      obtain rfl := Option.mem_unique hv hw
      refine ⟨f v, hs, ?_, fun hno => (hfr hno).1 k hk⟩
      rw [hna]
      exact hn
    · exact ⟨w, (modify_ne hid).trans hw, hn, hc⟩
  · by_cases hid : id' = id
    · subst hid
      obtain rfl := Option.mem_unique hs hw
      intro hb
      rw [hna]
      exact hbu hb
    · rw [modify_ne hid] at hw
      exact h.busy hw
  · obtain ⟨hr, hrun⟩ := h.live ha
    refine ⟨hr, fun w hw hno => ?_⟩
    by_cases hid : id' = id
    · subst hid
      obtain rfl := Option.mem_unique hs hw
      exact (hfr hno).2 rt key ha
    · rw [modify_ne hid] at hw
      exact hrun w hw hno
  · by_cases hid : id' = id
    · subst hid
      obtain rfl := Option.mem_unique hs hw
      exact hpl
    · rw [modify_ne hid] at hw
      exact h.plan hw

theorem Sound.kill (h : Sound checks s) (rt : ℕ) : Sound checks (s.kill rt) where
  names := h.names
  keys := h.keys
  busy := h.busy
  live ha := h.live (kill_alive.mp ha).2
  single ha ha' := h.single (kill_alive.mp ha).2 (kill_alive.mp ha').2
  plan := h.plan

/-- A supervisor without a live runtime starts one while its operation lock is held. -/
theorem Sound.launch (h : Sound checks s) (hv : s.supervisors[id]? = some v)
    (hopMu : v.opMu ≠ none) (hkey : s.byPublicKey.lookup key = some id)
    (hqt : s.Quiet id) : Sound checks (s.launch id key) := by
  refine ⟨h.names, h.keys, h.busy, fun {rt id' key'} ha => ?_,
    fun {rt rt' id' key' key''} ha ha' => ?_, h.plan⟩
  · rcases launch_alive.mp ha with ha | ⟨-, rfl, rfl⟩
    · exact h.live ha
    · refine ⟨hkey, fun w hw hn => ?_⟩
      obtain rfl := Option.mem_unique hv hw
      exact absurd hn hopMu
  · rcases launch_alive.mp ha with hold | ⟨rfl, rfl, rfl⟩
    · rcases launch_alive.mp ha' with hold' | ⟨-, rfl, -⟩
      · exact h.single hold hold'
      · exact absurd hold (hqt rt key')
    · rcases launch_alive.mp ha' with hold' | ⟨rfl, -, -⟩
      · exact absurd hold' (hqt rt' key'')
      · rfl

theorem Sound.rekey (h : Sound checks s) (hv : s.supervisors[id]? = some v) (hopMu : v.opMu ≠ none)
    (ho : ∀ k j, j ≠ id → (keys.lookup k = some j ↔ s.byPublicKey.lookup k = some j))
    (hna : ∀ k, keys.lookup k = some id → s.interfaces.lookup v.name = some id)
    (how : s.interfaces.lookup v.name = some id → keys.lookup v.publicKey = some id)
    (hl : ∀ rt key, s.Alive rt id key → keys.lookup key = some id) :
    Sound checks { s with byPublicKey := keys } := by
  refine ⟨fun {n id'} hn => ?_, fun {k id'} hk => ?_, h.busy, fun {rt id' key} ha => ?_,
    h.single, h.plan⟩
  · obtain ⟨w, hw, rfl, hr⟩ := h.names hn
    refine ⟨w, hw, rfl, ?_⟩
    by_cases hid : id' = id
    · subst hid
      obtain rfl := Option.mem_unique hv hw
      exact how hn
    · exact (ho _ _ hid).mpr hr
  · by_cases hid : id' = id
    · subst hid
      exact ⟨v, hv, hna k hk, fun hno => absurd hno hopMu⟩
    · exact h.keys ((ho _ _ hid).mp hk)
  · obtain ⟨hr, hrun⟩ := h.live ha
    refine ⟨?_, hrun⟩
    by_cases hid : id' = id
    · subst hid
      exact hl rt key ha
    · exact (ho _ _ hid).mpr hr

theorem removeSupervisor_keys {k : PublicKey} {j : ℕ} :
    (s.removeSupervisor id name).byPublicKey.lookup k = some j ↔
      s.byPublicKey.lookup k = some j ∧ j ≠ id := by
  show (sweep _ _).lookup k = _ ↔ _
  rw [lookup_sweep, beq_eq_false_iff_ne]

theorem removeSupervisor_names {n : String} {j : ℕ} (hj : j ≠ id) :
    (s.removeSupervisor id name).interfaces.lookup n = some j ↔ s.interfaces.lookup n = some j := by
  unfold removeSupervisor
  split
  · next ho =>
    by_cases hn : n = name
    · subst hn
      rw [AList.lookup_erase, ho]
      exact ⟨nofun, fun h => absurd (Option.some.inj h).symm hj⟩
    · rw [AList.lookup_erase_ne hn]
  · rfl

private theorem removeSupervisor_gone {n : String} (h : Sound checks s)
    (hv : s.supervisors[id]? = some v) :
    (s.removeSupervisor id v.name).interfaces.lookup n ≠ some id := by
  intro hn
  have hold : s.interfaces.lookup n = some id ∧ n ≠ v.name := by
    unfold removeSupervisor at hn
    split at hn
    · by_cases heq : n = v.name
      · rw [heq, AList.lookup_erase] at hn
        cases hn
      · rw [AList.lookup_erase_ne heq] at hn
        exact ⟨hn, heq⟩
    · next hno =>
      refine ⟨hn, ?_⟩
      rintro rfl
      exact hno hn
  obtain ⟨_, hw, hna, -⟩ := h.names hold.1
  obtain rfl := Option.mem_unique hv hw
  exact hold.2 hna.symm

theorem Sound.remove (h : Sound checks s) (hv : s.supervisors[id]? = some v)
    (han : v.anchor = false) (hrun : v.running = none)
    (hqt : s.Quiet id) : Sound checks (s.removeSupervisor id v.name) := by
  refine ⟨fun {n id'} hn => ?_, fun {k id'} hk => ?_, fun {id' w} hw hb => ?_,
    fun {rt id' key} ha => ?_, h.single, h.plan⟩
  · have hid : id' ≠ id := by
      rintro rfl
      exact removeSupervisor_gone h hv hn
    obtain ⟨w, hw, rfl, hre⟩ := h.names ((removeSupervisor_names hid).mp hn)
    exact ⟨w, hw, rfl, removeSupervisor_keys.mpr ⟨hre, hid⟩⟩
  · obtain ⟨hk, hid⟩ := removeSupervisor_keys.mp hk
    obtain ⟨w, hw, hn, hc⟩ := h.keys hk
    exact ⟨w, hw, (removeSupervisor_names hid).mpr hn, hc⟩
  · have hid : id' ≠ id := by
      rintro rfl
      obtain rfl := Option.mem_unique hv hw
      rcases hb with hb | hb
      · rw [han] at hb
        cases hb
      · exact hb hrun
    exact (removeSupervisor_names hid).mpr (h.busy hw hb)
  · obtain ⟨hre, hr⟩ := h.live ha
    refine ⟨removeSupervisor_keys.mpr ⟨hre, ?_⟩, hr⟩
    rintro rfl
    exact hqt rt key ha

/-! ### Registration -/

theorem lookup_insert_fresh {κ : Type} [DecidableEq κ] {m : AList fun _ : κ => ℕ} {k k' : κ} {j : ℕ}
    (hk : m.lookup k = none) (h : m.lookup k' = some id) : (m.insert k j).lookup k' = some id := by
  refine (AList.lookup_insert_ne ?_).trans h
  rintro rfl
  cases hk.symm.trans h

theorem register_old (hv : s.supervisors[id]? = some v) :
    (s.register name instanceID cfg key).supervisors[id]? = some v := by
  show (s.supervisors ++ [_])[id]? = some v
  rw [getElem?_append_left (lt_of_get hv)]
  exact hv

theorem register_new :
    (s.register name instanceID cfg key).supervisors[s.supervisors.length]? =
      some { name := name, instanceID := instanceID, config := cfg, publicKey := key } :=
  getElem?_concat_length

theorem register_cases (hv : (s.register name instanceID cfg key).supervisors[id]? = some v) :
    s.supervisors[id]? = some v ∨ id = s.supervisors.length ∧
      v = { name := name, instanceID := instanceID, config := cfg, publicKey := key } := by
  rcases Nat.lt_trichotomy id s.supervisors.length with hlt | rfl | _
  · refine .inl (Eq.trans ?_ hv)
    exact (getElem?_append_left hlt).symm
  · exact .inr ⟨rfl, (Option.mem_unique register_new hv).symm⟩
  have hlt := lt_of_get hv
  have hlen : (s.register name instanceID cfg key).supervisors.length =
      s.supervisors.length + 1 := length_append ..
  omega

theorem Sound.lt_of_alive (h : Sound checks s)
    (ha : s.Alive rt id key) : ∃ v, s.supervisors[id]? = some v := by
  obtain ⟨v, hv, -⟩ := h.keys (h.live ha).1
  exact ⟨v, hv⟩

theorem Sound.register (h : Sound checks s) (hpl : checks.preparePeers cfg = some key)
    (hna : s.interfaces.lookup name = none) (hkey : s.byPublicKey.lookup key = none) :
    Sound checks (s.register name instanceID cfg key) := by
  refine ⟨fun {n id'} hn => ?_, fun {k id'} hk => ?_, fun {id' w} hw hb => ?_,
    fun {rt id' key'} ha => ?_, h.single, fun {id' w} hw => ?_⟩
  · by_cases heq : n = name
    · subst heq
      obtain rfl := Option.mem_unique (AList.lookup_insert s.interfaces) hn
      exact ⟨_, register_new, rfl, AList.lookup_insert _⟩
    · obtain ⟨w, hw, rfl, hr⟩ := h.names ((AList.lookup_insert_ne heq).symm.trans hn)
      exact ⟨w, register_old hw, rfl, lookup_insert_fresh hkey hr⟩
  · by_cases heq : k = key
    · subst heq
      obtain rfl := Option.mem_unique (AList.lookup_insert s.byPublicKey) hk
      exact ⟨_, register_new, AList.lookup_insert _, fun _ => rfl⟩
    · obtain ⟨w, hw, hn, hc⟩ := h.keys ((AList.lookup_insert_ne heq).symm.trans hk)
      exact ⟨w, register_old hw, lookup_insert_fresh hna hn, hc⟩
  · rcases register_cases hw with hw | ⟨-, rfl⟩
    · exact lookup_insert_fresh hna (h.busy hw hb)
    · rcases hb with hb | hb
      · cases hb
      · exact absurd rfl hb
  · obtain ⟨hr, hrun⟩ := h.live ha
    refine ⟨lookup_insert_fresh hkey hr, fun w hw => ?_⟩
    obtain ⟨u, hu⟩ := h.lt_of_alive ha
    obtain rfl := Option.mem_unique (register_old hu) hw
    exact hrun u hu
  · rcases register_cases hw with hw | ⟨-, rfl⟩
    · exact h.plan hw
    · exact hpl

/-! ### Key changes -/

/-- Only reservations of one supervisor differ. -/
def OthersSame (s : InterfaceManager C) (id : ℕ) (keys : AList fun _ : PublicKey => ℕ) : Prop :=
  ∀ k j, j ≠ id → (keys.lookup k = some j ↔ s.byPublicKey.lookup k = some j)

theorem reservePublicKeyChange_some (h : s.reservePublicKeyChange id oldKey newKey = some s') :
    (oldKey = newKey ∧ s' = s) ∨ (oldKey ≠ newKey ∧ s.byPublicKey.lookup oldKey = some id ∧
      ∃ keys, s' = { s with byPublicKey := keys } ∧ OthersSame s id keys ∧
        ∀ k, keys.lookup k = some id ↔ k = oldKey ∨ k = newKey ∨
          s.byPublicKey.lookup k = some id) := by
  unfold reservePublicKeyChange at h
  split at h
  · next heq =>
    cases h
    exact .inl ⟨heq, rfl⟩
  · next hne =>
    split at h
    · cases h
    rename_i hnw
    split at h
    · cases h
    rename_i hold
    cases h
    have hold := not_not.mp hold
    have hnw : s.byPublicKey.lookup newKey = none ∨ s.byPublicKey.lookup newKey = some id := by
      cases hl : s.byPublicKey.lookup newKey with
      | none => exact .inl rfl
      | some =>
        rw [hl] at hnw
        simp only [Option.any_some, decide_eq_true_eq, ne_eq, not_not] at hnw
        exact .inr (congrArg some hnw)
    refine .inr ⟨hne, hold, _, rfl, fun k j hj => ?_, fun k => ?_⟩
    · by_cases hk : k = oldKey
      · subst hk
        rw [AList.lookup_insert, hold]
      · rw [AList.lookup_insert_ne hk]
        by_cases hk' : k = newKey
        · subst hk'
          rw [AList.lookup_insert]
          refine ⟨fun heq => absurd (Option.some.inj heq).symm hj, fun heq => ?_⟩
          rcases hnw with hn | ho
          · rw [hn] at heq
            cases heq
          · exact absurd (Option.mem_unique ho heq).symm hj
        · rw [AList.lookup_insert_ne hk']
    · by_cases hk : k = oldKey
      · subst hk
        rw [AList.lookup_insert]
        exact ⟨fun _ => .inl rfl, fun _ => rfl⟩
      · rw [AList.lookup_insert_ne hk]
        by_cases hk' : k = newKey
        · subst hk'
          rw [AList.lookup_insert]
          exact ⟨fun _ => .inr (.inl rfl), fun _ => rfl⟩
        · rw [AList.lookup_insert_ne hk']
          exact ⟨fun h => .inr (.inr h), fun h => (h.resolve_left hk).resolve_left hk'⟩

private theorem erase_others (hkey : keys.lookup key = some id) (k : PublicKey) (j : ℕ)
    (hj : j ≠ id) :
    (keys.erase key).lookup k = some j ↔ keys.lookup k = some j := by
  by_cases hk : k = key
  · subst hk
    rw [AList.lookup_erase, hkey]
    exact ⟨nofun, fun h => absurd (Option.some.inj h).symm hj⟩
  · rw [AList.lookup_erase_ne hk]

private theorem erase_own (k : PublicKey) :
    (keys.erase key).lookup k = some id ↔ keys.lookup k = some id ∧ k ≠ key := by
  by_cases hk : k = key
  · subst hk
    rw [AList.lookup_erase]
    exact ⟨nofun, fun h => absurd rfl h.2⟩
  · rw [AList.lookup_erase_ne hk]
    exact ⟨fun h => ⟨h, hk⟩, fun h => h.1⟩

theorem commitPublicKeyChange_eq (s : InterfaceManager C) (id : ℕ) (oldKey newKey : PublicKey) :
    ∃ keys, s.commitPublicKeyChange id oldKey newKey = { s with byPublicKey := keys } ∧
      OthersSame s id keys ∧ ∀ k, keys.lookup k = some id ↔
        s.byPublicKey.lookup k = some id ∧ (oldKey = newKey ∨ k ≠ oldKey) := by
  unfold commitPublicKeyChange
  split
  · next heq =>
    exact ⟨s.byPublicKey, rfl, fun _ _ _ => Iff.rfl, fun k =>
      ⟨fun h => ⟨h, .inl heq⟩, fun h => h.1⟩⟩
  · next hne =>
    split
    · next hold =>
      refine ⟨_, rfl, fun k j hj => erase_others hold k j hj, fun k => (erase_own k).trans ?_⟩
      exact ⟨fun h => ⟨h.1, .inr h.2⟩, fun h => ⟨h.1, h.2.resolve_left hne⟩⟩
    · next hold =>
      refine ⟨s.byPublicKey, rfl, fun _ _ _ => Iff.rfl, fun k => ⟨fun h => ⟨h, .inr ?_⟩,
        fun h => h.1⟩⟩
      rintro rfl
      exact hold h

theorem commitPublicKeyChange_supervisors (oldKey newKey : PublicKey) :
    (s.commitPublicKeyChange id oldKey newKey).supervisors = s.supervisors := by
  obtain ⟨_, heq, -⟩ := commitPublicKeyChange_eq s id oldKey newKey
  rw [heq]

theorem restorePublicKeyChange_supervisors (oldKey newKey : PublicKey) :
    (s.restorePublicKeyChange id oldKey newKey).supervisors = s.supervisors := by
  unfold restorePublicKeyChange
  split <;> rfl

theorem reservePublicKeyChange_supervisors
    (h : s.reservePublicKeyChange id oldKey newKey = some s') : s'.supervisors = s.supervisors := by
  rcases reservePublicKeyChange_some h with ⟨-, rfl⟩ | ⟨-, -, _, rfl, -⟩
  · rfl
  · rfl

/-- A restored key was never given away. -/
theorem restorePublicKeyChange_eq (hold : oldKey ≠ newKey → s.byPublicKey.lookup oldKey = some id) :
    ∃ keys, s.restorePublicKeyChange id oldKey newKey = { s with byPublicKey := keys } ∧
      OthersSame s id keys ∧ ∀ k, keys.lookup k = some id ↔
        s.byPublicKey.lookup k = some id ∧ (oldKey = newKey ∨ k ≠ newKey) := by
  unfold restorePublicKeyChange
  split
  · next heq =>
    exact ⟨s.byPublicKey, rfl, fun _ _ _ => Iff.rfl, fun k =>
      ⟨fun h => ⟨h, .inl heq⟩, fun h => h.1⟩⟩
  · next hne =>
    have hold := hold hne
    -- The keys without the new one still have the old one, so inserting it changes nothing.
    obtain ⟨keys, hks, ho, how⟩ : ∃ keys, (if s.byPublicKey.lookup newKey = some id
        then s.byPublicKey.erase newKey else s.byPublicKey) = keys ∧ OthersSame s id keys ∧
        ∀ k, keys.lookup k = some id ↔ s.byPublicKey.lookup k = some id ∧ k ≠ newKey := by
      split
      · next hn => exact ⟨_, rfl, fun k j hj => erase_others hn k j hj, fun k => erase_own k⟩
      rename_i hn
      refine ⟨_, rfl, fun _ _ _ => Iff.rfl, fun k => ⟨fun h => ⟨h, ?_⟩, fun h => h.1⟩⟩
      rintro rfl
      exact hn h
    have hkp : keys.lookup oldKey = some id := (how oldKey).mpr ⟨hold, hne⟩
    have hi : ∀ k, (keys.insert oldKey id).lookup k = keys.lookup k := by
      intro k
      by_cases hk : k = oldKey
      · subst hk
        rw [AList.lookup_insert, hkp]
      · exact AList.lookup_insert_ne hk
    refine ⟨_, rfl, ?_⟩
    rw [hks, if_pos (.inr hkp)]
    refine ⟨fun k j hj => ?_, fun k => ?_⟩
    · rw [hi]
      exact ho k j hj
    · rw [hi, how]
      exact ⟨fun h => ⟨h.1, .inr h.2⟩, fun h => ⟨h.1, h.2.resolve_left hne⟩⟩

/-! ### What a step of a thread may do -/

section
variable (checks i held gone s)

/-- The updates of thread `i`, which has locked the supervisor `held`. Only the supervisor `gone`
is touched without its lock. -/
inductive Effect : InterfaceManager C → Prop
  | same : Effect s
  | acquire {id : ℕ} {v : Supervisor C} : s.supervisors[id]? = some v → v.opMu = none →
    Effect (s.modify id fun v => { v with opMu := some i })
  | update {id : ℕ} {v : Supervisor C} (f : Supervisor C → Supervisor C) : held = some id →
    s.supervisors[id]? = some v → (f v).name = v.name →
    checks.preparePeers (f v).config = some (f v).publicKey →
    (s.interfaces.lookup v.name = some id → s.byPublicKey.lookup (f v).publicKey = some id) →
    ((f v).anchor = true ∨ (f v).running ≠ none → s.interfaces.lookup v.name = some id) →
    ((f v).opMu = none → s.OnlyKey id (f v).publicKey ∧
      ∀ rt key, s.Alive rt id key → (f v).running = some rt) → Effect (s.modify id f)
  | kill (rt : ℕ) : Effect (s.kill rt)
  | launch {id : ℕ} {v : Supervisor C} {key : PublicKey} : held = some id →
    s.supervisors[id]? = some v → v.opMu = some i → s.byPublicKey.lookup key = some id →
    s.Quiet id → Effect (s.launch id key)
  | rekey {id : ℕ} {v : Supervisor C} {keys : AList fun _ : PublicKey => ℕ} : held = some id →
    s.supervisors[id]? = some v → v.opMu = some i → OthersSame s id keys →
    (∀ k, keys.lookup k = some id → s.interfaces.lookup v.name = some id) →
    (s.interfaces.lookup v.name = some id → keys.lookup v.publicKey = some id) →
    (∀ rt key, s.Alive rt id key → keys.lookup key = some id) →
    Effect { s with byPublicKey := keys }
  | remove {id : ℕ} {v : Supervisor C} : held = some id ∨ gone = some id →
    s.supervisors[id]? = some v → v.anchor = false → v.running = none →
    s.Quiet id → Effect (s.removeSupervisor id v.name)
  | register {name : String} {instanceID : InstanceID} {cfg : C} {key : PublicKey} :
    checks.preparePeers cfg = some key → s.interfaces.lookup name = none →
    s.byPublicKey.lookup key = none → Effect (s.register name instanceID cfg key)

end

theorem Effect.sound (e : Effect checks i held gone s s') (h : Sound checks s) :
    Sound checks s' := by
  cases e with
  | same => exact h
  | @acquire _ _ hv =>
    have hpl := h.plan hv
    have hb := h.busy hv
    refine h.modify hv rfl hpl (fun hn => ?_) hb nofun
    obtain ⟨_, hw, -, hr⟩ := h.names hn
    obtain rfl := Option.mem_unique hv hw
    exact hr
  | update _ _ hv hna hpl hkey hb hfr => exact h.modify hv hna hpl hkey hb hfr
  | kill rt => exact h.kill rt
  | launch _ hv hlk hkey hqt =>
    exact h.launch hv (fun hno => by rw [hlk] at hno; cases hno) hkey hqt
  | rekey _ hv hlk ho hnm how hl =>
    exact h.rekey hv (fun hno => by rw [hlk] at hno; cases hno) ho hnm how
      hl
  | remove _ hv ha hrun hqt => exact h.remove hv ha hrun hqt
  | register hpl hna hkey => exact h.register hpl hna hkey

theorem Effect.length_le (e : Effect checks i held gone s s') :
    s.supervisors.length ≤ s'.supervisors.length := by
  have hm : ∀ {id : ℕ} {f : Supervisor C → Supervisor C},
      s.supervisors.length ≤ (s.modify id f).supervisors.length :=
    Nat.le_of_eq (length_modify ..).symm
  cases e with
  | same => exact Nat.le_refl _
  | acquire | update => exact hm
  | kill | launch | rekey | remove => exact Nat.le_refl _
  | register =>
    show _ ≤ (s.supervisors ++ [_]).length
    rw [length_append]
    exact Nat.le_add_right _ _

/-- What a step of thread `i` leaves of the supervisors it has not locked. -/
structure Frame (i : ℕ) (held gone : Option ℕ) (s s' : InterfaceManager C) : Prop where
  sup : ∀ {id : ℕ} {v}, s.supervisors[id]? = some v → held ≠ some id →
    s'.supervisors[id]? = some v ∨
      v.opMu = none ∧ s'.supervisors[id]? = some { v with opMu := some i }
  keys : ∀ {id : ℕ} {v k}, s.supervisors[id]? = some v → held ≠ some id →
    s'.byPublicKey.lookup k = some id → s.byPublicKey.lookup k = some id
  pinned : ∀ {id k}, held ≠ some id → gone ≠ some id →
    s.byPublicKey.lookup k = some id → s'.byPublicKey.lookup k = some id
  names : ∀ {id n}, held ≠ some id → gone ≠ some id →
    s.interfaces.lookup n = some id → s'.interfaces.lookup n = some id
  live : ∀ {id rt key}, held ≠ some id → s'.Alive rt id key → s.Alive rt id key
  dead : ∀ {rt}, s.Dead rt → s'.Dead rt

theorem Effect.frame (e : Effect checks i held gone s s') : Frame i held gone s s' := by
  have hot : ∀ {id id' : ℕ}, held = some id → held ≠ some id' → id' ≠ id := by
    rintro id id' hh hnt rfl
    exact hnt hh
  cases e with
  | same =>
    exact ⟨fun hv _ => .inl hv, fun _ _ h => h, fun _ _ h => h, fun _ _ h => h, fun _ h => h,
      fun h => h⟩
  | @acquire id _ hv hno =>
    refine ⟨fun {id' w} hw _ => ?_, fun _ _ h => h, fun _ _ h => h, fun _ _ h => h,
      fun _ h => h, fun h => h⟩
    by_cases hid : id' = id
    · subst hid
      obtain rfl := Option.mem_unique hv hw
      exact .inr ⟨hno, modify_self hv⟩
    · exact .inl ((modify_ne hid).trans hw)
  | update _ hh =>
    exact ⟨fun hw hnt => .inl ((modify_ne (hot hh hnt)).trans hw), fun _ _ h => h,
      fun _ _ h => h, fun _ _ h => h, fun _ h => h, fun h => h⟩
  | kill =>
    exact ⟨fun hw _ => .inl hw, fun _ _ h => h, fun _ _ h => h, fun _ _ h => h,
      fun _ h => (kill_alive.mp h).2, kill_dead⟩
  | launch hh =>
    refine ⟨fun hw _ => .inl hw, fun _ _ h => h, fun _ _ h => h, fun _ _ h => h,
      fun hnt ha => ?_, launch_dead⟩
    rcases launch_alive.mp ha with ha | ⟨-, hid, -⟩
    · exact ha
    · exact absurd hid (hot hh hnt)
  | rekey hh _ _ ho =>
    exact ⟨fun hw _ => .inl hw, fun _ hnt h => (ho _ _ (hot hh hnt)).mp h,
      fun hnt _ h => (ho _ _ (hot hh hnt)).mpr h, fun _ _ h => h, fun _ h => h,
      fun h => h⟩
  | @remove id _ hwh =>
    have hne : ∀ {id' : ℕ}, held ≠ some id' → gone ≠ some id' → id' ≠ id := by
      rintro id' hnt hg rfl
      exact hwh.elim hnt hg
    exact ⟨fun hw _ => .inl hw, fun _ _ h => (removeSupervisor_keys.mp h).1,
      fun hnt hg h => removeSupervisor_keys.mpr ⟨h, hne hnt hg⟩,
      fun hnt hg h => (removeSupervisor_names (hne hnt hg)).mpr h, fun _ h => h,
      fun h => h⟩
  | @register _ _ _ key _ hn hkey =>
    refine ⟨fun hw _ => .inl (register_old hw), fun {id' w k} hw _ h => ?_,
      fun _ _ h => lookup_insert_fresh hkey h, fun _ _ h => lookup_insert_fresh hn h,
      fun _ h => h, fun h => h⟩
    by_cases hk : k = key
    · subst hk
      obtain rfl := Option.mem_unique (AList.lookup_insert s.byPublicKey) h
      exact absurd (lt_of_get hw) (Nat.lt_irrefl _)
    · exact (AList.lookup_insert_ne hk).symm.trans h

end InterfaceManager
end WgFrag.Manager
