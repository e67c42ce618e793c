import Dstore.Mark

/-!
# The completeness walk

Before a reference is written its coordinator walks the tree under the root, top-down: it fetches
the interior objects, and has-and-pins every key it meets at all its owners, in batches. Interior
keys of a walk that found everything are cached with the time it ended, and a later walk does not
expand a key cached within half of the put's lifetime. Walks run concurrently, and each keeps the
placement it started with.

`held`, and `since` and `version` of walks and cache entries, record what happened; the code reads
none of them.
-/

namespace Dstore.Complete

variable {κ : Type}

/-- A placement with how many owners have to have a key. -/
structure Placement (κ : Type) extends Mark.Placement κ where
  minReplicas : ℕ

/-- The objects, the placement of each view version, and how long a put may take. An object that
cannot be read has no child keys. -/
structure Params (κ : Type) where
  childKeys : κ → Option (List κ)
  leaf : κ → Bool
  leaf_childKeys : ∀ k, leaf k → childKeys k = some []
  placement : ℕ → Placement κ
  putTTL : ℕ

/-- What the owners asked in a negotiation have answered: the keys they lack, or an error. -/
abbrev Answers (κ : Type) := List (NodeID × Option (List κ))

/-- A walk goes on, waits for the owners of a batch, or is over. -/
inductive Phase (κ : Type)
  | walking
  | asking (results : Answers κ)
  | done
  | failed
  deriving DecidableEq, Repr

/-- A walk: the level it expands, the keys it has met, those still to be asked about, and what was
found short. -/
structure Walk (κ : Type) where
  root : κ
  version : ℕ
  start : ℤ
  frontier : List κ := [root]
  seen : List κ := []
  toCheck : List κ := []
  unread : List κ := []
  interior : List κ := []
  next : List κ := []
  missing : List κ := []
  shortfall : ℕ := 0
  phase : Phase κ := .walking
  since : ℤ := start
  deriving DecidableEq, Repr

/-- An interior key that was complete at a time. The walk that says so rests on others as old as
`since`. -/
structure Entry where
  time : ℤ
  since : ℤ
  version : ℕ
  deriving DecidableEq, Repr

/-- How the fetch of an interior object ended: with its data, with an error, or with a record that
peers hold and nobody accepts. -/
inductive Fetched
  | data
  | unread
  | refused
  deriving DecidableEq, Repr

/-- The cache, the view the node has, and the walks. -/
structure State (κ : Type) [LinearOrder κ] where
  now : ℤ := 0
  version : ℕ := 0
  completeCache : KV κ Entry := .empty
  count : ℕ := 0
  walks : ℕ → Option (Walk κ) := fun _ => none
  held : List (NodeID × κ × ℤ) := []

/-- Time passes, the view changes, and a walk begins or takes a step: it visits a key, fetches one,
turns to the next level, hears from an owner or counts a batch. -/
inductive Action (κ : Type)
  | tick (d : ℕ)
  | adopt (version : ℕ)
  | begin (root : κ)
  | visit (i : ℕ)
  | fetch (i : ℕ) (r : Fetched)
  | turn (i : ℕ)
  | answer (i : ℕ) (o : NodeID) (r : Option (List κ))
  | conclude (i : ℕ)
  deriving DecidableEq, Repr

/-- How large the cache grows before it is emptied. -/
def maxCache : ℕ := 2 ^ 20

/-- How many missing keys are listed. -/
def maxMissing : ℕ := 1024

section

variable [LinearOrder κ]

/-- Whether the owner said that it has the key. -/
def has (results : Answers κ) (k : κ) (o : NodeID) : Bool :=
  match results.lookup o with
  | some (some lacking) => k ∉ lacking
  | _ => false

/-- Whether too few owners have the key, under `nodes` or under `pending.nodes`. -/
def short (pl : Placement κ) (results : Answers κ) (k : κ) : Bool :=
  (pl.owners k).countP (has results k) < min pl.minReplicas (pl.owners k).length ∨
    (pl.pendingOwners k).countP (has results k) < min pl.minReplicas (pl.pendingOwners k).length

/-- Whether all owners of the keys have answered. -/
def answered (pl : Placement κ) (keys : List κ) (results : Answers κ) : Bool :=
  ∀ k ∈ keys, ∀ o ∈ pl.writeSet k, (results.lookup o).isSome

namespace Walk

variable (P : Params κ) (w : Walk κ)

/-- The placement of the view the walk started with. -/
def placement : Placement κ := P.placement w.version

/-- How old a cache entry may be. -/
def cutoff : ℤ := w.start - (P.putTTL / 2 : ℕ)

/-- The cache entry that lets the walk take the tree under `k` as verified. -/
def completeSince (cache : KV κ Entry) (k : κ) : Option Entry :=
  (cache.get k).filter fun e => w.cutoff P < e.time

/-- Meets a key of the level: it is to be asked about, and expanded unless it is a leaf or cached.
-/
def visit (cache : KV κ Entry) (k : κ) (rest : List κ) : Walk κ :=
  if k ∈ w.seen then { w with frontier := rest }
  else
    let w := { w with frontier := rest, seen := k :: w.seen, toCheck := w.toCheck ++ [k] }
    if P.leaf k then w
    else
      match w.completeSince P cache k with
      | some e => { w with since := min w.since e.since }
      | none => { w with interior := w.interior ++ [k] }

/-- Expands an interior key. -/
def fetch (k : κ) (rest : List κ) : Fetched → Walk κ
  | .data =>
    match P.childKeys k with
    | some kids => { w with interior := rest, next := w.next ++ kids }
    | none => { w with phase := .failed }
  | .unread => { w with interior := rest, unread := k :: w.unread }
  | .refused => { w with phase := .failed }

/-- Counts the answers for a batch. A key that could not be read and is not missing fails the walk.
-/
def conclude (results : Answers κ) : Walk κ :=
  let missing := w.toCheck.filter (short (w.placement P) results)
  if ∃ k ∈ w.toCheck, k ∈ w.unread ∧ k ∉ missing then { w with phase := .failed }
  else
    { w with
      missing := (w.missing ++ missing).take maxMissing
      shortfall := w.shortfall + missing.length
      toCheck := []
      phase := .walking }

/-- Caches the interior keys of a walk that found everything. -/
def remember (now : ℤ) (cache : KV κ Entry) : KV κ Entry :=
  let cache := (w.seen.filter fun k => !P.leaf k).foldl
    (fun c k => c.set k ⟨now, w.since, w.version⟩) cache
  if maxCache < cache.entries.length then .empty else cache

end Walk

namespace State

variable (P : Params κ) (s : State κ)

def put (i : ℕ) (w : Walk κ) : State κ := { s with walks := Function.update s.walks i (some w) }

/-- At the end of a level: asks about a full batch, goes to the next level, asks about the rest, or
ends. -/
def turn (i : ℕ) (w : Walk κ) : State κ :=
  if Mark.maxKeys ≤ w.toCheck.length then s.put i { w with phase := .asking [] }
  else if w.next ≠ [] then s.put i { w with frontier := w.next, next := [] }
  else if w.toCheck ≠ [] then s.put i { w with phase := .asking [] }
  else
    { s.put i { w with phase := .done } with
      completeCache :=
        if w.shortfall = 0 then w.remember P s.now s.completeCache else s.completeCache }

/-- The answer of an owner, which pins what it has. -/
def answer (i : ℕ) (w : Walk κ) (results : Answers κ) (o : NodeID) (r : Option (List κ)) :
    State κ :=
  let keys := w.toCheck.filter fun k => o ∈ (w.placement P).writeSet k
  let found :=
    match r with
    | some lacking => keys.filter fun k => k ∉ lacking
    | none => []
  { s.put i { w with phase := .asking ((o, r) :: results) } with
    held := found.map (fun k => (o, k, s.now)) ++ s.held }

end State

/-- One step of the node, the clock or one of its walks. -/
def step (P : Params κ) (s : State κ) : Action κ → Option (State κ)
  | .tick d => some { s with now := s.now + d }
  | .adopt v => some { s with version := v }
  | .begin root =>
    some { s.put s.count { root := root, version := s.version, start := s.now } with
      count := s.count + 1 }
  | .visit i =>
    match s.walks i with
    | some w =>
      match w.phase, w.frontier with
      | .walking, k :: rest => some (s.put i (w.visit P s.completeCache k rest))
      | _, _ => none
    | none => none
  | .fetch i r =>
    match s.walks i with
    | some w =>
      match w.phase, w.frontier, w.interior with
      | .walking, [], k :: rest => some (s.put i (w.fetch P k rest r))
      | _, _, _ => none
    | none => none
  | .turn i =>
    match s.walks i with
    | some w =>
      match w.phase, w.frontier, w.interior with
      | .walking, [], [] => some (s.turn P i w)
      | _, _, _ => none
    | none => none
  | .answer i o r =>
    match s.walks i with
    | some w =>
      match w.phase with
      | .asking results =>
        if (results.lookup o).isNone then some (s.answer P i w results o r) else none
      | _ => none
    | none => none
  | .conclude i =>
    match s.walks i with
    | some w =>
      match w.phase with
      | .asking results =>
        if answered (w.placement P) w.toCheck results then some (s.put i (w.conclude P results))
        else none
      | _ => none
    | none => none

/-- A walk takes a cached key as verified only where the entry was made under the walk's view and
rests on walks started within half of the put's lifetime. -/
def certified (P : Params κ) (s : State κ) : Action κ → Bool
  | .visit i => (s.walks i).all fun w => w.frontier.head?.all fun k =>
      k ∈ w.seen || P.leaf k || (w.completeSince P s.completeCache k).all fun e =>
        w.cutoff P ≤ e.since && e.version = w.version
  | _ => true

end

/-- The keys below a key. -/
def Params.Reaches (P : Params κ) : κ → κ → Prop :=
  Relation.ReflTransGen fun k c => ∃ kids, P.childKeys k = some kids ∧ c ∈ kids

end Dstore.Complete
