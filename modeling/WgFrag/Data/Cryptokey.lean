import WgFrag.Data.Arrival
import WgFrag.Lib.Longest
import Mathlib.Data.List.Dedup

/-! The table routes an address to the peer of its longest prefix, whatever the order in which
the prefixes were listed, and a receiver delivers only what this route sends back to its peer. -/
namespace WgFrag.Data.Route
open WgFrag.Lib List

namespace RouteTrie
variable {t t' : RouteTrie} {paths : List (List Bool)} {i j : ℕ} {bit : Bool} {p q bits : List Bool}

/-! ### Walks -/

/-- The node at the end of the bits, if there is one. -/
def walk (t : RouteTrie) : List Bool → ℕ → Option ℕ
  | [], i => some i
  | bit :: bits, i => ((t.node i).child bit).bind (walk t bits)

/-- The peer whose prefix ends after the bits. -/
def owner (t : RouteTrie) (bits : List Bool) : Option PeerID :=
  (t.walk bits 0).bind fun i => (t.node i).peer

private theorem walk_append (p q : List Bool) (i : ℕ) :
    t.walk (p ++ q) i = (t.walk p i).bind (t.walk q) := by
  induction p generalizing i with
  | nil => rfl
  | cons bit _ ih =>
    rw [cons_append, walk, walk]
    cases (t.node i).child bit with
    | none => rfl
    | some j => exact ih j

theorem walk_concat (p : List Bool) (bit : Bool) :
    t.walk (p ++ [bit]) 0 = (t.walk p 0).bind fun i => (t.node i).child bit := by
  rw [walk_append]
  congr 1
  funext i
  rw [walk]
  cases (t.node i).child bit with
  | none | some => rfl

private theorem lookupLoop_eq (bits : List Bool) (i : ℕ) (best : Option PeerID) :
    t.lookupLoop bits i ((t.node i).peer.or best) =
      (longest (fun p => (t.walk p i).bind fun j => (t.node j).peer) bits).or best := by
  induction bits generalizing i best with
  | nil => rfl
  | cons bit bits ih =>
    rw [lookupLoop, longest]
    simp only [walk]
    cases hc : (t.node i).child bit with
    | none =>
      have hn : longest (fun _ : List Bool => (none : Option PeerID)) bits = none :=
        longest_eq_none.mpr fun _ _ => rfl
      simp only [Option.bind_none, hn, Option.none_or, Option.bind_some]
    | some j =>
      simp only [Option.bind_some, Option.or_assoc]
      exact ih j _

theorem lookup_eq (hne : t.nodes ≠ []) (bytes : Bytes) :
    t.lookup bytes = longest t.owner (addressBits bytes) := by
  have h := lookupLoop_eq (t := t) (addressBits bytes) 0 none
  rw [Option.or_none, Option.or_none] at h
  unfold lookup
  rw [if_neg (by simpa using hne), h]
  rfl

/-! ### The nodes and their bits -/

theorem getElem?_concat {α : Type} {l : List α} {x y : α} {k : ℕ} :
    (l ++ [x])[k]? = some y ↔ l[k]? = some y ∨ k = l.length ∧ x = y := by
  rw [getElem?_append]
  split
  · next hlt =>
    constructor
    · exact .inl
    · rintro (h | ⟨rfl, -⟩)
      · exact h
      · exact absurd hlt (Nat.lt_irrefl _)
  · next hge =>
    rw [getElem?_eq_none (Nat.le_of_not_lt hge), getElem?_singleton]
    split
    · next hz =>
      simp
      omega
    · next hpos =>
      simp
      omega

/-- The node `i` is at the end of the bits `paths[i]`, and of no others. -/
structure Spelled (t : RouteTrie) (paths : List (List Bool)) : Prop where
  length : t.nodes.length = paths.length
  walk : ∀ p i, t.walk p 0 = some i ↔ paths[i]? = some p

theorem Spelled.nodup (h : Spelled t paths) : paths.Nodup := by
  rw [nodup_iff_getElem?_ne_getElem?]
  intro i j hij hj heq
  have hg : paths[j]? = some paths[j] := getElem?_eq_getElem hj
  have hi := (h.walk _ i).mpr (heq.trans hg)
  have hj := (h.walk _ j).mpr hg
  rw [hi] at hj
  exact absurd (Option.some.inj hj) (Nat.ne_of_lt hij)

theorem Spelled.child (h : Spelled t paths) (hi : paths[i]? = some p) :
    (t.node i).child bit = some j ↔ paths[j]? = some (p ++ [bit]) := by
  rw [← h.walk, walk_concat, (h.walk p i).mpr hi]
  rfl

private theorem child_setChild (node : RouteNode) (bit bit' : Bool) (index : ℕ) :
    (node.setChild bit index).child bit' = if bit' = bit then some index else node.child bit' := by
  cases bit <;> cases bit' <;> rfl

/-- A node linked to a new one, which has neither children nor a peer. -/
def grown (t : RouteTrie) (i : ℕ) (bit : Bool) : RouteTrie :=
  ⟨(t.nodes ++ [({} : RouteNode)]).set i ((t.node i).setChild bit t.nodes.length)⟩

theorem node_grown (hi : i < t.nodes.length) (k : ℕ) : (t.grown i bit).node k =
    if k = i then (t.node i).setChild bit t.nodes.length else t.node k := by
  unfold node grown
  rw [getD_eq_getElem?_getD, getElem?_set]
  by_cases hk : i = k
  · subst hk
    rw [if_pos rfl, if_pos rfl, if_pos (by simp; omega)]
    rfl
  · rw [if_neg hk, if_neg (Ne.symm hk), getD_eq_getElem?_getD, getElem?_append]
    split
    · rfl
    rename_i hge
    rw [getElem?_eq_none (Nat.le_of_not_lt hge)]
    cases hl : k - t.nodes.length with
    | zero => rfl
    | succ => rfl

private theorem child_grown (hi : i < t.nodes.length) (k : ℕ) (bit' : Bool) :
    ((t.grown i bit).node k).child bit' =
      if k = i ∧ bit' = bit then some t.nodes.length else (t.node k).child bit' := by
  rw [node_grown hi]
  by_cases hk : k = i
  · subst hk
    simp [child_setChild]
  · simp [hk]

theorem Spelled.grown (h : Spelled t paths) (hi : paths[i]? = some p)
    (hn : (t.node i).child bit = none) : Spelled (t.grown i bit) (paths ++ [p ++ [bit]]) := by
  have hlt : i < t.nodes.length := by
    rw [h.length]
    exact lt_of_get hi
  refine ⟨by simp [RouteTrie.grown, h.length], fun q k => ?_⟩
  rw [getElem?_concat]
  induction q using List.reverseRecOn generalizing k with
  | nil =>
    have hr : (t.grown i bit).walk [] 0 = t.walk [] 0 := rfl
    rw [hr, h.walk]
    simp
  | append_singleton q c ih =>
    rw [walk_concat, Option.bind_eq_some_iff]
    constructor
    · rintro ⟨m, hm, hch⟩
      rw [child_grown hlt] at hch
      rcases (ih m).mp hm with hold | ⟨rfl, rfl⟩
      · split at hch
        · next hne =>
          obtain ⟨rfl, rfl⟩ := hne
          obtain rfl := Option.some.inj hch
          obtain rfl := Option.mem_unique hi hold
          exact .inr ⟨h.length, rfl⟩
        · exact .inl ((h.child hold).mp hch)
      · -- The new node has no children.
        have he : t.node paths.length = {} := by
          unfold node
          rw [getD_eq_getElem?_getD, getElem?_eq_none (Nat.le_of_eq h.length)]
          rfl
        rw [if_neg (fun hb => by rw [h.length] at hlt; omega), he] at hch
        cases c <;> cases hch
    · rintro (hold | ⟨rfl, heq⟩)
      · have hwalk := (h.walk _ k).mpr hold
        rw [walk_concat, Option.bind_eq_some_iff] at hwalk
        obtain ⟨m, hm, hch⟩ := hwalk
        refine ⟨m, (ih m).mpr (.inl ((h.walk q m).mp hm)), ?_⟩
        rw [child_grown hlt, if_neg, hch]
        rintro ⟨rfl, rfl⟩
        rw [hn] at hch
        cases hch
      · obtain ⟨rfl, hc⟩ := append_inj' heq rfl
        obtain rfl := (List.cons.inj hc).1
        refine ⟨i, (ih i).mpr (.inl hi), ?_⟩
        rw [child_grown hlt, if_pos ⟨rfl, rfl⟩, h.length]

/-! ### Insertion -/

/-- What a walk that adds nodes ends with: nodes for the bits after `p`, and the old ones as they
were. -/
structure Extends (t : RouteTrie) (paths : List (List Bool)) (p bits : List Bool)
    (t' : RouteTrie) (paths' : List (List Bool)) : Prop where
  spelled : Spelled t' paths'
  old : paths <+: paths'
  only : ∀ q ∈ paths', q ∈ paths ∨ ∃ r, r <+: bits ∧ q = p ++ r
  peers : ∀ k, (t'.node k).peer = (t.node k).peer

section
variable (h : Spelled t paths) (hi : paths[i]? = some p)
include h hi

theorem child_spec (hrun : t.child i bit = some (j, t')) :
    ∃ paths', Extends t paths p [bit] t' paths' ∧ paths'[j]? = some (p ++ [bit]) := by
  unfold RouteTrie.child at hrun
  cases hc : (t.node i).child bit with
  | some =>
    rw [hc] at hrun
    obtain ⟨rfl, rfl⟩ := Prod.mk.inj (Option.some.inj hrun)
    exact ⟨paths, ⟨h, prefix_rfl, fun q hq => .inl hq, fun _ => rfl⟩, (h.child hi).mp hc⟩
  | none =>
    rw [hc] at hrun
    dsimp only at hrun
    split at hrun
    · cases hrun
    obtain ⟨rfl, rfl⟩ := Prod.mk.inj (Option.some.inj hrun)
    have hlt : i < t.nodes.length := by
      rw [h.length]
      exact lt_of_get hi
    refine ⟨paths ++ [p ++ [bit]], ⟨h.grown hi hc, prefix_append .., ?_, ?_⟩, ?_⟩
    · intro q hq
      rcases mem_append.mp hq with hq | hq
      · exact .inl hq
      · exact .inr ⟨[bit], prefix_rfl, mem_singleton.mp hq⟩
    · intro k
      show ((t.grown i bit).node k).peer = _
      rw [node_grown hlt]
      split
      · next hk =>
        subst hk
        unfold RouteNode.setChild
        split <;> rfl
      · rfl
    · exact getElem?_concat.mpr (.inr ⟨h.length, rfl⟩)

/-- Without room for a child there are too many nodes already, and it would be one more. -/
theorem child_none (hrun : t.child i bit = none) :
    maxUint32 ≤ paths.length ∧ p ++ [bit] ∉ paths := by
  unfold RouteTrie.child at hrun
  cases hc : (t.node i).child bit with
  | some =>
    rw [hc] at hrun
    cases hrun
  | none =>
    rw [hc] at hrun
    dsimp only at hrun
    split at hrun
    · next hfu =>
      refine ⟨h.length ▸ hfu, fun hmem => ?_⟩
      obtain ⟨_, hj⟩ := mem_iff_getElem?.mp hmem
      rw [(h.child hi).mpr hj] at hc
      cases hc
    · cases hrun

theorem insertLoop_spec (hrun : insertLoop bits i t = some (j, t')) :
    ∃ paths', Extends t paths p bits t' paths' ∧ paths'[j]? = some (p ++ bits) := by
  induction bits generalizing t paths i p with
  | nil =>
    obtain ⟨rfl, rfl⟩ := Prod.mk.inj (Option.some.inj hrun)
    exact ⟨paths, ⟨h, prefix_rfl, fun q hq => .inl hq, fun _ => rfl⟩, by simpa using hi⟩
  | cons bit bits ih =>
    unfold insertLoop at hrun
    split at hrun
    · cases hrun
    rename_i k t1 hc
    obtain ⟨paths1, hf, hk⟩ := child_spec h hi hc
    obtain ⟨paths', hre, hj⟩ := ih hf.spelled hk hrun
    refine ⟨paths', ⟨hre.spelled, hf.old.trans hre.old, fun q hq => ?_, fun k => ?_⟩, ?_⟩
    · rcases hre.only q hq with hq | ⟨r, hr, rfl⟩
      · rcases hf.only q hq with hq | ⟨r, hr, rfl⟩
        · exact .inl hq
        · exact .inr ⟨r, hr.trans ⟨bits, rfl⟩, rfl⟩
      · refine .inr ⟨bit :: r, prefix_cons_iff.mpr (.inr ⟨r, rfl, hr⟩), ?_⟩
        rw [append_assoc]
        rfl
    · rw [hre.peers, hf.peers]
    · rw [hj, append_assoc]
      rfl

theorem insertLoop_none (hrun : insertLoop bits i t = none) :
    ∃ paths' : List (List Bool), paths'.Nodup ∧ maxUint32 < paths'.length ∧
      ∀ q ∈ paths', q ∈ paths ∨ ∃ r, r <+: bits ∧ q = p ++ r := by
  induction bits generalizing t paths i p with
  | nil => cases hrun
  | cons bit bits ih =>
    have hh : [bit] <+: bit :: bits := ⟨bits, rfl⟩
    unfold insertLoop at hrun
    split at hrun
    · next hc =>
      obtain ⟨_, hn⟩ := child_none h hi hc
      refine ⟨(p ++ [bit]) :: paths, nodup_cons.mpr ⟨hn, h.nodup⟩, by simp; omega, ?_⟩
      intro q hq
      rcases mem_cons.mp hq with rfl | hq
      · exact .inr ⟨[bit], hh, rfl⟩
      · exact .inl hq
    · next k t1 hc =>
      obtain ⟨_, hf, hk⟩ := child_spec h hi hc
      obtain ⟨paths', hnd, hlen, honly⟩ := ih hf.spelled hk hrun
      refine ⟨paths', hnd, hlen, fun q hq => ?_⟩
      rcases honly q hq with hq | ⟨r, hr, rfl⟩
      · rcases hf.only q hq with hq | ⟨r, hr, rfl⟩
        · exact .inl hq
        · exact .inr ⟨r, hr.trans hh, rfl⟩
      · refine .inr ⟨bit :: r, prefix_cons_iff.mpr (.inr ⟨r, rfl, hr⟩), ?_⟩
        rw [append_assoc]
        rfl

end

theorem Spelled.root (h : Spelled t paths) : paths[0]? = some [] := (h.walk [] 0).mp rfl

private theorem walk_congr (h : ∀ k bit, (t'.node k).child bit = (t.node k).child bit)
    (p : List Bool) (i : ℕ) : t'.walk p i = t.walk p i := by
  induction p generalizing i with
  | nil => rfl
  | cons bit _ ih =>
    rw [walk, walk, h]
    cases (t.node i).child bit with
    | none => rfl
    | some j => exact ih j

theorem insert_spec {peer : PeerID} (h : Spelled t paths) (hrun : t.insert bits peer = some t') :
    ∃ paths', Spelled t' paths' ∧ (∀ q ∈ paths', q ∈ paths ∨ q <+: bits) ∧
      t'.owner = Function.update t.owner bits (some peer) := by
  unfold insert at hrun
  split at hrun
  · cases hrun
  rename_i j t1 hl
  obtain rfl := Option.some.inj hrun
  obtain ⟨paths', he, hj⟩ := insertLoop_spec h h.root hl
  rw [nil_append] at hj
  have hlt : j < t1.nodes.length := by
    rw [he.spelled.length]
    exact lt_of_get hj
  have hnode : ∀ k, RouteTrie.node ⟨t1.nodes.set j { t1.node j with peer := some peer }⟩ k =
      if k = j then { t1.node j with peer := some peer } else t1.node k := by
    intro k
    unfold node
    rw [getD_eq_getElem?_getD, getElem?_set]
    by_cases hk : j = k
    · subst hk
      rw [if_pos rfl, if_pos rfl, if_pos hlt]
      rfl
    · rw [if_neg hk, if_neg (Ne.symm hk)]
      rfl
  have hwalk : ∀ q, RouteTrie.walk ⟨t1.nodes.set j { t1.node j with peer := some peer }⟩ q 0 =
      t1.walk q 0 := by
    intro q
    apply walk_congr
    intro k bit
    rw [hnode]
    split
    · next hk =>
      subst hk
      rfl
    · rfl
  refine ⟨paths', ⟨by simp [he.spelled.length], fun q k => ?_⟩, fun q hq => ?_, ?_⟩
  · rw [hwalk]
    exact he.spelled.walk q k
  · rcases he.only q hq with hq | ⟨_, hr, rfl⟩
    · exact .inl hq
    · exact .inr hr
  · funext q
    unfold owner
    rw [hwalk]
    by_cases hq : q = bits
    · subst hq
      rw [Function.update_self, (he.spelled.walk q j).mpr hj, Option.bind_some, hnode, if_pos rfl]
    · rw [Function.update_of_ne hq]
      have hne : ∀ k, t1.walk q 0 = some k → k ≠ j := by
        rintro k hk rfl
        rw [he.spelled.walk, hj] at hk
        exact hq (Option.some.inj hk).symm
      obtain ⟨_, hm⟩ := he.old
      cases hold : t.walk q 0 with
      | some k =>
        have hk : t1.walk q 0 = some k := by
          rw [he.spelled.walk, ← hm, getElem?_append_left]
          · exact (h.walk q k).mp hold
          · exact lt_of_get ((h.walk q k).mp hold)
        rw [hk, Option.bind_some, Option.bind_some, hnode, if_neg (hne k hk), he.peers]
      | none =>
        cases hn : t1.walk q 0 with
        | none => rfl
        | some k =>
          rw [Option.bind_some, hnode, if_neg (hne k hn), he.peers]
          -- A node that is new has no peer.
          have hge : t.nodes.length ≤ k := by
            by_contra hlt
            have hlt : k < paths.length := by
              rw [← h.length]
              exact Nat.lt_of_not_le hlt
            have hg := (he.spelled.walk q k).mp hn
            rw [← hm, getElem?_append_left hlt, ← h.walk, hold] at hg
            cases hg
          unfold node
          rw [getD_eq_getElem?_getD, getElem?_eq_none hge]
          rfl

theorem insert_none {peer : PeerID} (h : Spelled t paths) (hrun : t.insert bits peer = none) :
    ∃ paths' : List (List Bool), paths'.Nodup ∧ maxUint32 < paths'.length ∧
      ∀ q ∈ paths', q ∈ paths ∨ q <+: bits := by
  unfold insert at hrun
  split at hrun
  · next hl =>
    obtain ⟨paths', hnd, hlen, honly⟩ := insertLoop_none h h.root hl
    refine ⟨paths', hnd, hlen, fun q hq => ?_⟩
    rcases honly q hq with hq | ⟨_, hr, rfl⟩
    · exact .inl hq
    · exact .inr hr
  · cases hrun

end RouteTrie

/-! ### Construction -/

open RouteTrie

variable {allowed done rest : List AllowedIP} {seen : List Owner} {s s' : Snapshot}
  {paths : Bool → List (List Bool)} {address : Addr}
variable {allowed' : List AllowedIP}

def Snapshot.trie (s : Snapshot) (four : Bool) : RouteTrie := if four then s.v4 else s.v6

/-- The bits of the nodes that the trie of a family needs. -/
def neededPaths (allowed : List AllowedIP) (four : Bool) : List (List Bool) :=
  [] :: (allowed.filter fun e => e.ipPrefix.masked.is4 = four).flatMap
    fun e => e.ipPrefix.masked.bits.inits

def trieNodes (allowed : List AllowedIP) (four : Bool) : ℕ :=
  (neededPaths allowed four).dedup.length

theorem neededPaths_mono (h : done ⊆ allowed) (four : Bool) :
    neededPaths done four ⊆ neededPaths allowed four := by
  intro p hp
  simp only [neededPaths, mem_cons, mem_flatMap, mem_filter] at hp ⊢
  rcases hp with rfl | ⟨e, ⟨he, hfour⟩, hp⟩
  · exact .inl rfl
  · exact .inr ⟨e, ⟨h he, hfour⟩, hp⟩

theorem length_le_trieNodes {four : Bool} {l : List (List Bool)} (hnd : l.Nodup)
    (hs : l ⊆ neededPaths allowed four) : l.length ≤ trieNodes allowed four :=
  (List.Nodup.subperm hnd fun _ hp => mem_dedup.mpr (hs hp)).length_le

/-- The tries after the entries of `done`. -/
structure Holds (done : List AllowedIP) (seen : List Owner) (s : Snapshot)
    (paths : Bool → List (List Bool)) : Prop where
  spelled : ∀ four, Spelled (s.trie four) (paths four)
  only : ∀ four, paths four ⊆ neededPaths done four
  owner : ∀ four bits peer, (s.trie four).owner bits = some peer ↔
    ∃ e ∈ done, e.ipPrefix.masked = ⟨four, bits⟩ ∧ e.peerID = peer
  seen : ∀ p, (∃ o ∈ seen, o.masked = p) ↔ ∃ e ∈ done, e.ipPrefix.masked = p
  valid : ∀ e ∈ done, validAllowedPrefix e.ipPrefix = true
  distinct : (done.map fun e => e.ipPrefix.masked).Nodup

theorem holds_empty : Holds [] [] ⟨⟨[({} : RouteNode)]⟩, ⟨[({} : RouteNode)]⟩⟩ fun _ => [[]] := by
  have hs : Spelled ⟨[({} : RouteNode)]⟩ [[]] := by
    refine ⟨rfl, fun p i => ?_⟩
    cases p with
    | nil =>
      cases i with
      | zero | succ => simp [walk]
    | cons bit =>
      cases i with
      | zero | succ => cases bit <;> simp [walk, node, RouteNode.child]
  refine ⟨?_, ?_, ?_, by simp, by simp, by simp⟩
  · intro four
    cases four with
    | true | false => exact hs
  · intro four
    simp [neededPaths]
  · intro four bits peer
    have hn : RouteTrie.owner ⟨[({} : RouteNode)]⟩ bits = none := by
      cases bits with
      | nil => rfl
      | cons bit => cases bit <;> rfl
    have htrie : Snapshot.trie ⟨⟨[({} : RouteNode)]⟩, ⟨[({} : RouteNode)]⟩⟩ four =
        ⟨[({} : RouteNode)]⟩ := by
      cases four with
      | true | false => rfl
    rw [htrie, hn]
    simp

theorem Snapshot.insert_eq {p : Masked} {peer : PeerID} (h : s.insert p peer = some s') :
    ∃ t, (s.trie p.is4).insert p.bits peer = some t ∧
      ∀ four, s'.trie four = if four = p.is4 then t else s.trie four := by
  unfold Snapshot.insert at h
  unfold Snapshot.trie
  split at h
  · next h4 =>
    obtain ⟨t, ht, rfl⟩ := Option.map_eq_some_iff.mp h
    refine ⟨t, by rw [if_pos h4]; exact ht, fun four => ?_⟩
    rw [h4]
    cases four with
    | true | false => rfl
  · next h6 =>
    obtain ⟨t, ht, rfl⟩ := Option.map_eq_some_iff.mp h
    refine ⟨t, by rw [if_neg h6]; exact ht, fun four => ?_⟩
    rw [eq_false_of_ne_true h6]
    cases four with
    | true | false => rfl

theorem Snapshot.insert_none {p : Masked} {peer : PeerID} (h : s.insert p peer = none) :
    (s.trie p.is4).insert p.bits peer = none := by
  unfold Snapshot.insert at h
  unfold Snapshot.trie
  split at h
  · next h4 =>
    rw [if_pos h4]
    exact Option.map_eq_none_iff.mp h
  · next h6 =>
    rw [if_neg h6]
    exact Option.map_eq_none_iff.mp h

theorem mem_neededPaths {e : AllowedIP} {q : List Bool} (he : e ∈ done)
    (hq : q <+: e.ipPrefix.masked.bits) : q ∈ neededPaths done e.ipPrefix.masked.is4 := by
  simp only [neededPaths, mem_cons, mem_flatMap, mem_filter, mem_inits]
  exact .inr ⟨e, ⟨he, by simp⟩, hq⟩

theorem Holds.insert {entry : AllowedIP} (index : ℕ) (h : Holds done seen s paths)
    (hvalid : validAllowedPrefix entry.ipPrefix = true)
    (hn : ∀ e ∈ done, e.ipPrefix.masked ≠ entry.ipPrefix.masked)
    (hrun : s.insert entry.ipPrefix.masked entry.peerID = some s') :
    ∃ paths', Holds (done ++ [entry])
      (⟨entry.ipPrefix.masked, index, entry.peerID⟩ :: seen) s' paths' := by
  obtain ⟨_, ht, htrie⟩ := Snapshot.insert_eq hrun
  obtain ⟨new, hs, honly, ho⟩ := insert_spec (h.spelled _) ht
  have hmono : ∀ four, neededPaths done four ⊆ neededPaths (done ++ [entry]) four :=
    neededPaths_mono (subset_append_left ..)
  refine ⟨fun four => if four = entry.ipPrefix.masked.is4 then new else paths four,
    ?_, ?_, ?_, ?_, ?_, ?_⟩
  · intro four
    rw [htrie]
    split
    · exact hs
    · exact h.spelled four
  · intro four q hq
    split at hq
    · next hfour =>
      subst hfour
      rcases honly q hq with hq | hq
      · exact hmono _ (h.only _ hq)
      · exact mem_neededPaths (by simp) hq
    · exact hmono _ (h.only four hq)
  · intro four bits peer
    rw [htrie]
    by_cases hfour : four = entry.ipPrefix.masked.is4
    · rw [if_pos hfour, ho]
      by_cases hbi : bits = entry.ipPrefix.masked.bits
      · have hm : entry.ipPrefix.masked = ⟨four, bits⟩ := by rw [hfour, hbi]
        rw [hbi, Function.update_self, ← hbi]
        constructor
        · intro hpr
          exact ⟨entry, by simp, hm, Option.some.inj hpr⟩
        rintro ⟨e, he, hp, rfl⟩
        rcases mem_append.mp he with he | he
        · exact absurd (hp.trans hm.symm) (hn e he)
        · rw [mem_singleton.mp he]
      · rw [Function.update_of_ne hbi, ← hfour, h.owner]
        constructor
        · rintro ⟨e, he, hp⟩
          exact ⟨e, mem_append_left _ he, hp⟩
        rintro ⟨e, he, hp, hpr⟩
        rcases mem_append.mp he with he | he
        · exact ⟨e, he, hp, hpr⟩
        · rw [mem_singleton.mp he] at hp
          exact absurd (congrArg Masked.bits hp).symm hbi
    · rw [if_neg hfour, h.owner]
      constructor
      · rintro ⟨e, he, hp⟩
        exact ⟨e, mem_append_left _ he, hp⟩
      rintro ⟨e, he, hp, hpr⟩
      rcases mem_append.mp he with he | he
      · exact ⟨e, he, hp, hpr⟩
      · rw [mem_singleton.mp he] at hp
        exact absurd (congrArg Masked.is4 hp).symm hfour
  · intro p
    simp only [mem_cons, exists_eq_or_imp, h.seen, mem_append, not_mem_nil, or_false]
    constructor
    · rintro (hp | ⟨e, he, hp⟩)
      · exact ⟨entry, .inr rfl, hp⟩
      · exact ⟨e, .inl he, hp⟩
    · rintro ⟨e, he | rfl, hp⟩
      · exact .inr ⟨e, he, hp⟩
      · exact .inl hp
  · intro e he
    rcases mem_append.mp he with he | he
    · exact h.valid e he
    · rw [mem_singleton.mp he]
      exact hvalid
  · rw [map_append, nodup_append]
    refine ⟨h.distinct, nodup_singleton _, ?_⟩
    intro a ha b hb
    obtain ⟨e, he, rfl⟩ := mem_map.mp ha
    obtain rfl := mem_singleton.mp hb
    exact hn e he

theorem newSnapshotLoop_spec (index : ℕ) (h : Holds done seen s paths)
    (hsize : ∀ four, trieNodes (done ++ rest) four < 4294967296) :
    (∃ s' seen' paths', newSnapshotLoop rest index seen s = .ok s' ∧
      Holds (done ++ rest) seen' s' paths') ∨
    ∃ e, newSnapshotLoop rest index seen s = .error e ∧
      ((∃ entry ∈ rest, validAllowedPrefix entry.ipPrefix = false) ∨
        ¬ ((done ++ rest).map fun e => e.ipPrefix.masked).Nodup) := by
  induction rest generalizing done seen s paths index with
  | nil =>
    rw [append_nil]
    exact .inl ⟨s, seen, paths, rfl, h⟩
  | cons entry rest ih =>
    have ha : done ++ entry :: rest = (done ++ [entry]) ++ rest := by simp
    unfold newSnapshotLoop
    by_cases hvalid : validAllowedPrefix entry.ipPrefix = true
    · rw [if_neg (not_not.mpr hvalid)]
      split
      · next first hf =>
        -- The prefix was met before.
        refine .inr ⟨_, rfl, .inr fun hnd => ?_⟩
        have hm := find?_some hf
        simp only [decide_eq_true_eq] at hm
        obtain ⟨e, he, hp⟩ := (h.seen _).mp ⟨first, mem_of_find?_eq_some hf, hm⟩
        rw [map_append, nodup_append] at hnd
        exact hnd.2.2 _ (mem_map_of_mem he) _ (mem_cons_self ..) hp
      · next hf =>
        have hne : ∀ e ∈ done, e.ipPrefix.masked ≠ entry.ipPrefix.masked := by
          intro e he hp
          obtain ⟨o, ho, heq⟩ := (h.seen _).mpr ⟨e, he, hp⟩
          have := find?_eq_none.mp hf o ho
          simp only [decide_eq_true_eq] at this
          exact this heq
        split
        · next hn =>
          -- There would be more nodes than are needed.
          obtain ⟨more, hnd, hlen, honly⟩ :=
            RouteTrie.insert_none (h.spelled _) (Snapshot.insert_none hn)
          have hs : more ⊆ neededPaths (done ++ entry :: rest) entry.ipPrefix.masked.is4 := by
            intro q hq
            rcases honly q hq with hq | hq
            · exact neededPaths_mono (subset_append_left ..) _ (h.only _ hq)
            · exact mem_neededPaths (by simp) hq
          have hle := length_le_trieNodes hnd hs
          have hlt := hsize entry.ipPrefix.masked.is4
          simp only [maxUint32] at hlen
          omega
        · next s1 hrun =>
          obtain ⟨_, hnx⟩ := h.insert index hvalid hne hrun
          rw [ha] at hsize ⊢
          rcases ih (index + 1) hnx hsize with hok | ⟨e, her, hb⟩
          · exact .inl hok
          · refine .inr ⟨e, her, hb.imp_left ?_⟩
            rintro ⟨e', he', hi⟩
            exact ⟨e', mem_cons_of_mem _ he', hi⟩
    · rw [if_pos hvalid]
      exact .inr ⟨_, rfl, .inl ⟨entry, mem_cons_self .., eq_false_of_ne_true hvalid⟩⟩

/-! ### The longest match -/

/-- The address has the bits that the prefix fixes. -/
def Prefix.contains (p : Prefix) (address : Addr) : Prop :=
  p.masked.is4 = address.is4 ∧ p.masked.bits <+: addressBits address.bytes

/-- A listed prefix that contains the address, and none that does is longer. -/
structure LongestMatch (allowed : List AllowedIP) (address : Addr) (entry : AllowedIP) : Prop where
  listed : entry ∈ allowed
  contains : entry.ipPrefix.contains address
  longest : ∀ other ∈ allowed, other.ipPrefix.contains address →
    other.ipPrefix.bits.getD 0 ≤ entry.ipPrefix.bits.getD 0

theorem Prefix.length_bits (p : Prefix) : p.masked.bits.length = p.bits.getD 0 := by
  unfold Prefix.masked
  cases hb : p.bits with
  | none => simp
  | some n =>
    have := p.fits n hb
    simp
    exact this

theorem Holds.lookupPeer_eq (h : Holds allowed seen s paths)
    (hvalid : validLookupAddress address = true) :
    s.lookupPeer address = longest (s.trie address.is4).owner (addressBits address.bytes) := by
  have hne : ∀ four, (s.trie four).nodes ≠ [] := by
    intro four hn
    have hr := (h.spelled four).root
    have hlen := (h.spelled four).length
    rw [hn] at hlen
    rw [eq_nil_of_length_eq_zero hlen.symm] at hr
    cases hr
  cases address with
  | invalid => cases hvalid
  | v4 bytes => exact lookup_eq (hne true) bytes
  | v6 bytes zone =>
    have hp : ¬ (zone ≠ "" ∨ is4In6 bytes = true) := by simpa [validLookupAddress] using hvalid
    have hl : s.lookupPeer (.v6 bytes zone) = s.v6.lookup bytes := if_neg hp
    rw [hl]
    exact lookup_eq (hne false) bytes

theorem lookupPeer_invalid (s : Snapshot) (h : validLookupAddress address = false) :
    s.lookupPeer address = none := by
  cases address with
  | invalid => rfl
  | v4 => cases h
  | v6 =>
    apply if_pos
    by_contra hp
    rw [not_or, not_not, Bool.not_eq_true] at hp
    simp [validLookupAddress, hp] at h

section Lookup
variable (h : Holds allowed seen s paths) (hvalid : validLookupAddress address = true)
include h hvalid

theorem Holds.lookupPeer_some {peer : PeerID} : s.lookupPeer address = some peer ↔
    ∃ entry, LongestMatch allowed address entry ∧ entry.peerID = peer := by
  rw [h.lookupPeer_eq hvalid, longest_eq_some]
  constructor
  · rintro ⟨_, hp, how, hmax⟩
    obtain ⟨entry, hmem, hm, rfl⟩ := (h.owner _ _ _).mp how
    refine ⟨entry, ⟨hmem, ⟨by rw [hm], by rw [hm]; exact hp⟩, ?_⟩, rfl⟩
    rintro other ho ⟨hfour, hb⟩
    rw [← Prefix.length_bits, ← Prefix.length_bits, hm]
    refine hmax _ hb (Option.isSome_iff_exists.mpr ⟨other.peerID, ?_⟩)
    rw [h.owner]
    exact ⟨other, ho, by rw [← hfour], rfl⟩
  · rintro ⟨entry, ⟨hmem, ⟨hfour, hb⟩, hmax⟩, rfl⟩
    refine ⟨entry.ipPrefix.masked.bits, hb, ?_, ?_⟩
    · rw [h.owner]
      exact ⟨entry, hmem, by rw [← hfour], rfl⟩
    intro q hq hs
    obtain ⟨_, how⟩ := Option.isSome_iff_exists.mp hs
    obtain ⟨other, ho, hm, -⟩ := (h.owner _ _ _).mp how
    have hle := hmax other ho ⟨by rw [hm], by rw [hm]; exact hq⟩
    rw [← Prefix.length_bits, ← Prefix.length_bits, hm] at hle
    exact hle

theorem Holds.lookupPeer_none : s.lookupPeer address = none ↔
    ∀ entry ∈ allowed, ¬ entry.ipPrefix.contains address := by
  rw [h.lookupPeer_eq hvalid, longest_eq_none]
  constructor
  · rintro hn entry hmem ⟨hfour, hb⟩
    have ho := (h.owner address.is4 entry.ipPrefix.masked.bits entry.peerID).mpr
      ⟨entry, hmem, by rw [← hfour], rfl⟩
    rw [hn _ hb] at ho
    cases ho
  · intro hn q hq
    cases ho : (s.trie address.is4).owner q with
    | none => rfl
    | some =>
      obtain ⟨entry, hmem, hm, -⟩ := (h.owner _ _ _).mp ho
      exact absurd ⟨by rw [hm], by rw [hm]; exact hq⟩ (hn entry hmem)

end Lookup

theorem LongestMatch.perm (hpm : allowed'.Perm allowed)
    {entry : AllowedIP} (h : LongestMatch allowed address entry) :
    LongestMatch allowed' address entry :=
  ⟨hpm.mem_iff.mpr h.listed, h.contains, fun other ho => h.longest other (hpm.mem_iff.mp ho)⟩

theorem Holds.lookupPeer_perm {seen' : List Owner}
    {paths' : Bool → List (List Bool)} (hpm : allowed'.Perm allowed)
    (h : Holds allowed seen s paths) (h' : Holds allowed' seen' s' paths') (address : Addr) :
    s'.lookupPeer address = s.lookupPeer address := by
  cases hvalid : validLookupAddress address with
  | false => rw [lookupPeer_invalid s hvalid, lookupPeer_invalid s' hvalid]
  | true =>
    apply Option.ext
    intro peer
    rw [h.lookupPeer_some hvalid, h'.lookupPeer_some hvalid]
    constructor
    · rintro ⟨entry, hl, hp⟩
      exact ⟨entry, hl.perm hpm.symm, hp⟩
    · rintro ⟨entry, hl, hp⟩
      exact ⟨entry, hl.perm hpm, hp⟩

private theorem trieNodes_perm (hpm : allowed'.Perm allowed) (four : Bool) :
    trieNodes allowed' four ≤ trieNodes allowed four :=
  length_le_trieNodes (nodup_dedup _) fun _ hp =>
    neededPaths_mono hpm.subset four (mem_dedup.mp hp)

section New
variable (hsize : ∀ four, trieNodes allowed four < 4294967296)
include hsize

theorem newSnapshot_holds (h : newSnapshot allowed = .ok s) :
    ∃ seen paths, Holds allowed seen s paths := by
  rcases newSnapshotLoop_spec 0 holds_empty hsize with hok | ⟨_, he, -⟩
  · obtain ⟨_, seen, paths, hok, hh⟩ := hok
    obtain rfl := Except.ok.inj (hok.symm.trans h)
    exact ⟨seen, paths, hh⟩
  · cases he.symm.trans h

theorem newSnapshot_error : (∃ e, newSnapshot allowed = .error e) ↔
    (∃ entry ∈ allowed, validAllowedPrefix entry.ipPrefix = false) ∨
      ¬ (allowed.map fun e => e.ipPrefix.masked).Nodup := by
  rcases newSnapshotLoop_spec 0 holds_empty hsize with hok | ⟨e, he, hw⟩
  · obtain ⟨_, _, _, hok, hh⟩ := hok
    constructor
    · rintro ⟨e, he⟩
      cases hok.symm.trans he
    rintro (⟨entry, hmem, hi⟩ | hd)
    · rw [hh.valid entry hmem] at hi
      cases hi
    · exact absurd hh.distinct hd
  · exact ⟨fun _ => hw, fun _ => ⟨e, he⟩⟩

theorem newSnapshot_perm {allowed' : List AllowedIP} (hpm : allowed'.Perm allowed)
    (h : newSnapshot allowed = .ok s) :
    ∃ s', newSnapshot allowed' = .ok s' ∧ ∀ address, s'.lookupPeer address = s.lookupPeer address := by
  have hsz' : ∀ four, trieNodes allowed' four < 4294967296 :=
    fun four => (trieNodes_perm hpm four).trans_lt (hsize four)
  obtain ⟨_, _, hh⟩ := newSnapshot_holds hsize h
  cases hn : newSnapshot allowed' with
  | error e =>
    rcases (newSnapshot_error hsz').mp ⟨e, hn⟩ with ⟨entry, hmem, hi⟩ | hd
    · rw [hh.valid entry (hpm.mem_iff.mp hmem)] at hi
      cases hi
    · exact absurd ((hpm.map _).nodup_iff.mpr hh.distinct) hd
  | ok s' =>
    obtain ⟨_, _, hh'⟩ := newSnapshot_holds hsz' hn
    exact ⟨s', rfl, hh.lookupPeer_perm hpm hh'⟩

end New

end WgFrag.Data.Route
