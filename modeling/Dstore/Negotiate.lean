import Dstore.Mark

/-!
# Negotiating what is missing

Before it uploads, a client asks a primary for each key which of them it lacks. The primary answers
from its own store and asks the other nodes of the write sets under its own placement; it reports
the keys that fewer nodes confirmed than the write set has. The client takes any other key to be
held by the whole write set under the client's placement. The peers are asked in turn here, which
the set of those that confirmed does not depend on.
-/

namespace Dstore.Negotiate

open Mark (Placement maxKeys)

variable {κ : Type} [DecidableEq κ]

/-- How many keys a client asks about at once; its own constant, not `wire.MaxKeys`. -/
def batchKeys : ℕ := 8192

/-- Cuts a list into pieces of at most `n`. -/
def batches (n : ℕ) (l : List κ) : List (List κ) :=
  (List.range ((l.length + n - 1) / n)).map fun i => (l.drop (i * n)).take n

/-- The node asked, with the placement it has. -/
structure Primary (κ : Type) where
  id : NodeID
  placement : Placement κ
  nodup : ∀ k, (placement.writeSet k).Nodup

/-- How a request fails. -/
inductive Fault
  | refused
  | unreachable
  deriving DecidableEq, Repr

/-- What happens to one request: it fails, or is answered from the primary's store and from what
the peers answer to the batches the primary asks them for, `none` where that fails. -/
structure Exchange (κ : Type) where
  fault : Option Fault := none
  has : κ → Bool
  call : NodeID → List κ → Option (List κ)

/-- What the primary lacks, and the keys that too few others confirmed, with those who did. -/
structure Reply (κ : Type) where
  lacking : List κ
  short : List (κ × List NodeID)
  deriving DecidableEq, Repr

/-- What a peer lacks, asked for in batches; all of them have to be answered. -/
def remoteMissing (call : List κ → Option (List κ)) (keys : List κ) : Option (List κ) :=
  ((batches maxKeys keys).mapM call).map List.flatten

namespace Primary

variable (n : Primary κ) (e : Exchange κ) (keys : List κ)

/-- The keys a peer is asked about. -/
def byOwner (o : NodeID) : List κ :=
  if o = n.id then [] else keys.filter fun k => o ∈ n.placement.writeSet k

/-- The nodes that are asked. -/
def peers : List NodeID := ((keys.flatMap n.placement.writeSet).filter (· ≠ n.id)).dedup

/-- What asking one owner adds to the holders of a key; the zero id stands for an unknown. -/
def told (k : κ) (o : NodeID) : List NodeID :=
  match remoteMissing (e.call o) (n.byOwner keys o) with
  | none => ((n.byOwner keys o).filter (· = k)).map fun _ => 0
  | some lacking => ((n.byOwner keys o).filter fun x => x = k ∧ x ∉ lacking).map fun _ => o

/-- Who has a key, by what the peers told. -/
def holders (k : κ) : List NodeID := n.id :: (n.peers keys).flatMap (n.told e keys k)

/-- The holders that are known. -/
def ids (k : κ) : List NodeID := (n.holders e keys k).filter (· ≠ 0)

/-- The keys with fewer holders than the write set has nodes. -/
def negotiateHolders : List (κ × List NodeID) :=
  (keys.filter fun k => (n.ids e keys k).length < (n.placement.writeSet k).length).map
    fun k => (k, n.ids e keys k)

/-- The keys the primary has. -/
def present : List κ := keys.filter e.has

/-- The keys the primary lacks. -/
def lacking : List κ := keys.filter (!e.has ·)

/-- The primary's answer; it asks the peers about what it has itself. -/
def handleMissing : Except Fault (Reply κ) :=
  if maxKeys < keys.length then .error .refused
  else
    match e.fault with
    | some f => .error f
    | none => .ok {
        lacking := lacking e keys
        short := if present e keys = [] then [] else n.negotiateHolders e (present e keys) }

end Primary

/-- A request to a primary. -/
structure Ask (κ : Type) where
  primary : Primary κ
  keys : List κ

/-- What the client has put together from the replies. -/
structure MissingResult (κ : Type) where
  lacking : List (NodeID × κ) := []
  holders : κ → Option (List NodeID) := fun _ => none
  failed : List κ := []
  tried : List (κ × NodeID) := []

/-- The client's own placement, which may be of another view. -/
structure Client (κ : Type) where
  placement : Placement κ
  minReplicas : ℕ

/-- The holders a reply gives for a key, the last where there are several. -/
def Reply.shortOf (m : Reply κ) (k : κ) : Option (List NodeID) :=
  (m.short.filter (·.1 = k)).getLast?.map (·.2)

namespace Client

variable (c : Client κ)

/-- A reply, for one key: where the primary says nothing the whole write set is taken to have it. -/
def record (p : NodeID) (m : Reply κ) (res : MissingResult κ) (k : κ) : MissingResult κ :=
  let res := { res with failed := res.failed.filter (· ≠ k) }
  if k ∈ m.lacking then { res with lacking := res.lacking ++ [(p, k)] }
  else
    { res with
      holders := Function.update res.holders k
        (some ((m.shortOf k).getD (c.placement.writeSet k))) }

/-- One request and what comes of it. -/
def ask (res : MissingResult κ) (x : Ask κ × Exchange κ) : MissingResult κ :=
  match x.1.primary.handleMissing x.2 x.1.keys with
  | .ok m => x.1.keys.foldl (c.record x.1.primary.id m) res
  | .error .refused => { res with failed := res.failed ++ x.1.keys }
  | .error .unreachable =>
    { res with
      failed := res.failed ++ x.1.keys
      tried := res.tried ++ x.1.keys.map (·, x.1.primary.id) }

/-- The requests of a negotiation. -/
def asks (byPrimary : List (Primary κ × List κ)) : List (Ask κ) :=
  byPrimary.flatMap fun p => (batches batchKeys p.2).map fun keys => ⟨p.1, keys⟩

def askPrimaries (xs : List (Ask κ × Exchange κ)) : MissingResult κ := xs.foldl c.ask {}

/-- How many of the owners are holders. -/
def count (owners holders : List NodeID) : ℕ := (owners.filter (· ∈ holders)).length

/-- Whether a key has holders enough, under both placements. -/
def placed (k : κ) (holders : List NodeID) : Bool :=
  let owners := c.placement.owners k
  let pending := c.placement.pendingOwners k
  min c.minReplicas owners.length ≤ count owners holders &&
    min c.minReplicas pending.length ≤ count pending holders

end Client

end Dstore.Negotiate
