import WgFrag.Basic

/-! Bounded tombstones in deadline order: the binary heap with its position index. -/
namespace WgFrag.Control

structure ExpiryEntry (K : Type) where
  key : K
  expires : Time
  deriving DecidableEq

/-- `entries` is a binary heap on `expires`; `index` maps a key to its position. -/
structure ExpirySet (K : Type) where
  entries : List (ExpiryEntry K)
  index : K → Option ℕ
  limit : ℕ

namespace ExpirySet
variable {K : Type} [DecidableEq K]

def empty (limit : ℕ) : ExpirySet K := ⟨[], fun _ => none, limit⟩

variable (s : ExpirySet K)

def full : Bool := s.limit ≤ s.entries.length

def contains (key : K) : Bool := (s.index key).isSome

def setIndex (key : K) (value : Option ℕ) : ExpirySet K :=
  { s with index := fun k => if k = key then value else s.index k }

def swap (left right : ℕ) : ExpirySet K :=
  match s.entries[left]?, s.entries[right]? with
  | some l, some r =>
    let t := { s with entries := (s.entries.set left r).set right l }
    (t.setIndex r.key (some left)).setIndex l.key (some right)
  | _, _ => s

def before (i j : ℕ) : Bool :=
  match s.entries[i]?, s.entries[j]? with
  | some a, some b => a.expires < b.expires
  | _, _ => false

/-- The first argument bounds the number of levels; the position itself is enough. -/
def siftUp : ℕ → ℕ → ExpirySet K → ExpirySet K
  | 0, _, s => s
  | fuel + 1, index, s =>
    if index = 0 then s
    else
      let parent := (index - 1) / 2
      if s.before index parent then siftUp fuel parent (s.swap index parent) else s

def siftDown : ℕ → ℕ → ExpirySet K → ExpirySet K
  | 0, _, s => s
  | fuel + 1, index, s =>
    let left := index * 2 + 1
    if s.entries.length ≤ left then s
    else
      let right := left + 1
      let smallest :=
        if right < s.entries.length ∧ s.before right left then right else left
      if s.before smallest index then siftDown fuel smallest (s.swap index smallest) else s

def retain (key : K) (expires : Time) : Bool × ExpirySet K :=
  match s.index key with
  | some index =>
    match s.entries[index]? with
    | some entry =>
      if entry.expires < expires then
        let t := { s with entries := s.entries.set index ⟨key, expires⟩ }
        let t := siftDown t.entries.length index t
        let position := (t.index key).getD 0
        (true, siftUp position position t)
      else (true, s)
    | none => (true, s)
  | none =>
    if s.full then (false, s)
    else
      let last := s.entries.length
      let t := { s.setIndex key (some last) with entries := s.entries ++ [⟨key, expires⟩] }
      (true, siftUp last last t)

/-- Remove the entry at the root of the heap. -/
def removeRoot (root : ExpiryEntry K) : ExpirySet K :=
  let last := s.entries.length - 1
  let t := s.setIndex root.key none
  match s.entries[last]? with
  | some moved =>
    if last = 0 then { t with entries := [] }
    else
      let t := { t.setIndex moved.key (some 0) with
        entries := (s.entries.set 0 moved).take last }
      siftDown t.entries.length 0 t
  | none => t

/-- One entry leaves per round, so the number of entries bounds the rounds. -/
def pruneLoop (now : Time) : ℕ → ExpirySet K → ExpirySet K
  | 0, s => s
  | fuel + 1, s =>
    match s.entries with
    | [] => s
    | root :: _ => if now < root.expires then s else pruneLoop now fuel (s.removeRoot root)

def prune (now : Time) : ExpirySet K := pruneLoop now s.entries.length s

end ExpirySet
end WgFrag.Control
