import Dstore.Ballot
import Dstore.Index
import Dstore.Lib.KV
import Dstore.Lib.Machine

/-!
# The distributed mark

Every node that acked the barrier runs a worker, which takes keys off its queue, tells the owners of
each, and expands a key that is its own to expand, or forwards it to the worker that is. Keys travel
in numbered batches that are sent until acked or given up; a receiver takes each number once. The
coordinator sends the roots, then polls every worker until two polls in a row find all of them idle
with the same sums of batches sent and received.

`got`, `prev` and `mid` record what happened; the code does not read them.
-/

namespace Dstore.Mark

variable {κ : Type} [DecidableEq κ]

/-- Who sends batches: the worker of a node, or the coordinator. -/
inductive Sender
  | node (id : NodeID)
  | coord
  deriving DecidableEq, Repr

/-- Who owns a key and who ranks first for it, under `nodes` and under `pending.nodes`. -/
structure Placement (κ : Type) where
  owners : κ → List NodeID
  rankIDs : κ → List NodeID
  pendingOwners : κ → List NodeID := fun _ => []
  pendingRankIDs : κ → List NodeID := fun _ => []

/-- The nodes that are to hold a key, during a transition those of both placements. -/
def Placement.writeSet (p : Placement κ) (k : κ) : List NodeID :=
  p.owners k ++ (p.pendingOwners k).filter fun id => id ∉ p.owners k

/-- Where a key is looked for, in order. -/
def Placement.readOrder (p : Placement κ) (k : κ) : List NodeID :=
  p.rankIDs k ++ (p.pendingRankIDs k).filter fun id => id ∉ p.rankIDs k

/-- What one cycle is run on: the keys its root snapshot names, the objects, the placement, the
nodes that acked, the packs each had when its mark started with the bound of its barrier, how the
scans of their indexes ended, and the coordinator's node, which has not the zero id. Leaves have no
children. -/
structure Params (κ : Type) where
  roots : List κ
  childKeys : κ → List κ
  leaf : κ → Bool
  leaf_childKeys : ∀ k, leaf k → childKeys k = []
  zeroKey : κ
  placement : Placement κ
  acked : List NodeID
  acked_nodup : acked.Nodup
  segments : NodeID → List (Segment κ)
  eligibleBelow : NodeID → ℕ
  fails : NodeID → ℕ → Option ℕ := fun _ _ => none
  node : NodeID
  node_ne_zero : node ≠ 0
  tolerate : Bool := false

/-- The worker that expands a key: the first of its read order that acked. 0 is none. -/
def Params.worker (P : Params κ) (k : κ) : NodeID :=
  ((P.placement.readOrder k).find? fun id => id ∈ P.acked).getD 0

/-- Whether a key is in the map that `handleMark` makes of a node's packs. -/
def Params.eligible (P : Params κ) (self : NodeID) (k : κ) : Bool :=
  (scanEligible (P.eligibleBelow self) (P.fails self) (P.segments self) k).isSome

/-- A node holds a key in a pack below its barrier. -/
def Params.Holds (P : Params κ) (self : NodeID) (k : κ) : Prop :=
  ∃ seg ∈ P.segments self, seg.id < P.eligibleBelow self ∧ k ∈ seg.keys

/-- What waits to be sent to a node: keys to mark, and keys to expand. -/
structure OutBatch (κ : Type) where
  keys : List κ := []
  expand : List κ := []
  deriving DecidableEq, Repr

/-- A batch on its way; keys to expand and keys to mark travel apart. -/
structure Batch (κ : Type) where
  src : Sender
  dst : NodeID
  seq : ℕ
  keys : List κ
  expand : Bool
  deriving DecidableEq, Repr

/-- Where a worker is in its loop. The coordinator goes through the last three to send the roots. -/
inductive Worker (κ : Type)
  | waiting
  | processing (batch : List κ)
  | fetching (k : κ) (batch : List κ)
  | resting
  | flushing (targets : List NodeID)
  | sending (b : Batch κ) (targets : List NodeID)
  deriving DecidableEq, Repr

/-- The mark state of one sender; `file` is the mark file it last wrote. -/
structure MarkState (κ : Type) where
  marked : List κ := []
  visited : List κ := []
  forward : List (NodeID × κ) := []
  queue : List κ := []
  out : KV NodeID (OutBatch κ) := .empty
  seqs : NodeID → ℕ := fun _ => 0
  sent : ℕ := 0
  recv : ℕ := 0
  seqSeen : Sender → Option ℕ := fun _ => none
  missing : List κ := []
  frozen : Bool := false
  dirty : Bool := false
  worker : Worker κ := .waiting
  file : Option (List κ) := none

/-- `wire.MaxKeys`: the keys of one message. -/
def maxKeys : ℕ := 8192

/-- The keys a worker takes off its queue at once. -/
def takeMax : ℕ := 256

namespace MarkState

variable (P : Params κ) (self : NodeID) (ms : MarkState κ)

/-- Whether the worker has keys in hand. -/
def busy : Bool :=
  match ms.worker with
  | .processing _ | .fetching _ _ => true
  | _ => false

/-- What a worker reports as idle: nothing queued, in hand or to be sent. -/
def idle : Bool := ms.queue = [] ∧ !ms.busy ∧ ms.out.entries = []

/-- What waits to be sent to a node. -/
def batchFor (id : NodeID) : OutBatch κ := (ms.out.get id).getD {}

/-- A key for a node to mark. -/
def pushKey (id : NodeID) (k : κ) : MarkState κ :=
  { ms with out := ms.out.set id { ms.batchFor id with keys := (ms.batchFor id).keys ++ [k] } }

/-- A key for a worker to expand. -/
def pushExpand (id : NodeID) (k : κ) : MarkState κ :=
  { ms with
    out := ms.out.set id { ms.batchFor id with expand := (ms.batchFor id).expand ++ [k] } }

/-- Marks a key of a pack below the barrier; the others need no mark. -/
def markKey (k : κ) : MarkState κ :=
  if P.eligible self k then { ms with marked := ms.marked.insert k } else ms

/-- Tells one owner of a key. -/
def deliverTo (k : κ) (o : NodeID) : MarkState κ :=
  if o ∉ P.acked then ms
  else if o = self then ms.markKey P self k
  else ms.pushKey o k

/-- Tells the owners of a key that it is live. -/
def deliver (k : κ) : MarkState κ :=
  (P.placement.writeSet k).foldl (fun ms o => ms.deliverTo P self k o) ms

/-- The first part of `process`, with the rest of the batch in hand. -/
def process (k : κ) (batch : List κ) : MarkState κ :=
  let ms := ms.deliver P self k
  if P.leaf k then { ms with worker := .processing batch }
  else if P.worker k ≠ self then
    if (P.worker k, k) ∈ ms.forward then { ms with worker := .processing batch }
    else { ms.pushExpand (P.worker k) k with
      forward := (P.worker k, k) :: ms.forward
      worker := .processing batch }
  else if k ∈ ms.visited then { ms with worker := .processing batch }
  else { ms with visited := k :: ms.visited, worker := .fetching k batch }

/-- The second part of `process`, once the object was read or could not be. -/
def fetched (k : κ) (batch : List κ) (ok : Bool) : MarkState κ :=
  if ok then { ms with queue := ms.queue ++ P.childKeys k, worker := .processing batch }
  else { ms with missing := ms.missing ++ [k], worker := .processing batch }

/-- The nodes something waits for. -/
def targets : List NodeID :=
  (ms.out.entries.filter fun e => e.2.keys ≠ [] ∨ e.2.expand ≠ []).map Prod.fst

/-- What `flushOut` takes off a pending batch: keys to expand first. -/
def pick (b : OutBatch κ) : List κ × Bool × OutBatch κ :=
  if b.expand ≠ [] then
    (b.expand.take maxKeys, true, { b with expand := b.expand.drop maxKeys })
  else (b.keys.take maxKeys, false, { b with keys := b.keys.drop maxKeys })

/-- One turn of `flushOut`: create the next batch to the first target, or be done with it. -/
def flush (src : Sender) (id : NodeID) (ids : List NodeID) : MarkState κ × Option (Batch κ) :=
  match ms.out.get id with
  | none => ({ ms with worker := .flushing ids }, none)
  | some ob =>
    if (pick ob).1 = [] then
      ({ ms with out := ms.out.delete id, worker := .flushing ids }, none)
    else
      let b : Batch κ := ⟨src, id, ms.seqs id + 1, (pick ob).1, (pick ob).2.1⟩
      ({ ms with
        out := ms.out.set id (pick ob).2.2
        sent := ms.sent + 1
        seqs := Function.update ms.seqs id (ms.seqs id + 1)
        worker := .sending b (id :: ids) }, some b)

/-- Whether a batch of this number or a later one was taken. -/
def seen (b : Batch κ) : Bool :=
  match ms.seqSeen b.src with
  | some last => b.seq ≤ last
  | none => false

/-- `handleKeys`, for a batch that is neither refused nor a duplicate. -/
def handleKeys (b : Batch κ) : MarkState κ :=
  { b.keys.foldl (fun ms k => ms.markKey P self k) ms with
    seqSeen := Function.update ms.seqSeen b.src (some b.seq)
    recv := ms.recv + 1
    queue := if b.expand then ms.queue ++ b.keys else ms.queue
    dirty := true }

end MarkState

/-- What a worker answers to a poll. -/
structure Status (κ : Type) where
  sent : ℕ := 0
  recv : ℕ := 0
  idle : Bool := false
  missing : List κ := []
  deriving DecidableEq, Repr

/-- `handleStatus`: an idle worker first writes a mark that changed, which may fail. -/
def MarkState.status (ms : MarkState κ) (persisted : Bool) : MarkState κ × Status κ :=
  if ms.idle ∧ ms.dirty then
    if persisted then
      ({ ms with dirty := false, file := some ms.marked }, ⟨ms.sent, ms.recv, true, ms.missing⟩)
    else (ms, ⟨ms.sent, ms.recv, false, ms.missing⟩)
  else (ms, ⟨ms.sent, ms.recv, ms.idle, ms.missing⟩)

/-- The state of the polling loop: who has answered in this poll, and who has yet to. -/
structure Poll (κ : Type) where
  stable : ℕ := 0
  lastSum : ℕ × ℕ := (0, 0)
  polled : List NodeID := []
  todo : List NodeID := []
  cur : NodeID → Status κ := fun _ => {}
  prev : NodeID → Status κ := fun _ => {}
  mid : NodeID → Status κ := fun _ => {}

/-- Where the coordinator is. -/
inductive Coord (κ : Type)
  | roots (todo : List κ)
  | sending
  | polling (p : Poll κ)
  | done (p : Poll κ)
  | aborted

/-- The mark states, the batches that were sent and those that were taken, and the coordinator. -/
structure State (κ : Type) where
  mark : Sender → MarkState κ
  net : List (Batch κ)
  got : List (Batch κ)
  coord : Coord κ

/-- How sending a batch may end; it may be refused or given up at any time. -/
inductive Outcome
  | acked
  | refused
  | gaveUp
  deriving DecidableEq, Repr

/-- The steps of workers, of senders, of receivers and of the coordinator. -/
inductive Action (κ : Type)
  | take (id : NodeID)
  | process (id : NodeID)
  | fetch (id : NodeID) (ok : Bool)
  | rest (id : NodeID)
  | flushOut (x : Sender) (order : List NodeID)
  | flush (x : Sender)
  | reply (x : Sender) (o : Outcome)
  | receive (b : Batch κ)
  | root
  | send
  | poll
  | status (persisted : Bool)
  | settle
  | freeze (id : NodeID) (persisted : Bool)
  | abort
  deriving DecidableEq, Repr

namespace State

variable (s : State κ)

def set (x : Sender) (ms : MarkState κ) : State κ := { s with mark := Function.update s.mark x ms }

def goto (c : Coord κ) : State κ := { s with coord := c }

/-- What a worker would answer now. -/
def report (id : NodeID) : Status κ :=
  ⟨(s.mark (.node id)).sent, (s.mark (.node id)).recv, (s.mark (.node id)).idle,
    (s.mark (.node id)).missing⟩

end State

/-- The batches sent and received, over all. -/
def Poll.sum (P : Params κ) (coordSent : ℕ) (p : Poll κ) : ℕ × ℕ :=
  (coordSent + (P.acked.map fun id => (p.cur id).sent).sum,
    (P.acked.map fun id => (p.cur id).recv).sum)

/-- Whether a finished poll found every worker idle, nothing on the way, and the last sums. -/
def Poll.good (P : Params κ) (coordSent : ℕ) (p : Poll κ) : Bool :=
  (∀ id ∈ P.acked, (p.cur id).idle) ∧ (p.sum P coordSent).1 = (p.sum P coordSent).2 ∧
    p.sum P coordSent = p.lastSum

/-- The keys that the workers could not read. -/
def Poll.missing (P : Params κ) (p : Poll κ) : List κ :=
  P.acked.flatMap fun id => (p.cur id).missing

/-- Whether the mark may be used: nothing is missing, or leaves only where that is tolerated. -/
def Poll.passes (P : Params κ) (p : Poll κ) : Bool :=
  p.missing P = [] ∨ P.tolerate ∧ ∀ k ∈ p.missing P, P.leaf k

/-- One step of a worker, of the network, or of the coordinator. A worker that takes nothing off
its queue goes straight to `flushOut`, which walks its targets in any order. -/
def step (P : Params κ) (s : State κ) : Action κ → Option (State κ)
  | .take id =>
    match (s.mark (.node id)).worker with
    | .waiting =>
      if id ∉ P.acked then none
      else
        let ms := s.mark (.node id)
        some (s.set (.node id) (if ms.queue = [] then { ms with worker := .resting }
          else { ms with
            queue := ms.queue.drop takeMax
            worker := .processing (ms.queue.take takeMax) }))
    | _ => none
  | .process id =>
    match (s.mark (.node id)).worker with
    | .processing (k :: batch) =>
      some (s.set (.node id) ((s.mark (.node id)).process P id k batch))
    | _ => none
  | .fetch id ok =>
    match (s.mark (.node id)).worker with
    | .fetching k batch => some (s.set (.node id) ((s.mark (.node id)).fetched P k batch ok))
    | _ => none
  | .rest id =>
    match (s.mark (.node id)).worker with
    | .processing [] => some (s.set (.node id) { s.mark (.node id) with worker := .resting })
    | _ => none
  | .flushOut x order =>
    match (s.mark x).worker with
    | .resting =>
      if order.Perm (s.mark x).targets then
        some (s.set x { s.mark x with worker := .flushing order })
      else none
    | _ => none
  | .flush x =>
    match (s.mark x).worker with
    | .flushing [] => some (s.set x { s.mark x with worker := .waiting })
    | .flushing (id :: ids) =>
      let p := (s.mark x).flush x id ids
      some { s.set x p.1 with net := p.2.toList ++ s.net }
    | _ => none
  | .reply x o =>
    match (s.mark x).worker with
    | .sending b ids =>
      match o with
      | .acked =>
        if (s.mark (.node b.dst)).seen b then
          some (s.set x { s.mark x with worker := .flushing ids })
        else none
      | .refused =>
        some (s.set x { s.mark x with
          missing := (s.mark x).missing ++ [P.zeroKey]
          worker := .flushing ids })
      | .gaveUp => some (s.set x { s.mark x with worker := .flushing ids })
    | _ => none
  | .receive b =>
    if b ∉ s.net ∨ b.dst ∉ P.acked then none
    else
      let ms := s.mark (.node b.dst)
      if ms.frozen ∨ ms.seen b then some s
      else some { s.set (.node b.dst) (ms.handleKeys P b.dst b) with got := b :: s.got }
  | .root =>
    match s.coord with
    | .roots (k :: todo) =>
      if P.worker k = P.node then
        let ms := s.mark (.node P.node)
        some ((if P.node ∈ P.acked then
          s.set (.node P.node) { ms with queue := ms.queue ++ [k], dirty := true } else s).goto
            (.roots todo))
      else
        some ((s.set .coord ((s.mark .coord).pushExpand (P.worker k) k)).goto (.roots todo))
    | _ => none
  | .send =>
    match s.coord with
    | .roots [] =>
      some ((s.set .coord { s.mark .coord with worker := .resting }).goto .sending)
    | _ => none
  | .poll =>
    match s.coord with
    | .sending =>
      match (s.mark .coord).worker with
      | .waiting => some (s.goto (.polling { todo := P.acked, mid := s.report }))
      | _ => none
    | _ => none
  | .status persisted =>
    match s.coord with
    | .polling p =>
      match p.todo with
      | [] => none
      | id :: todo =>
        let r := (s.mark (.node id)).status persisted
        some ((s.set (.node id) r.1).goto (.polling { p with
          polled := p.polled ++ [id]
          todo := todo
          cur := Function.update p.cur id r.2 }))
    | _ => none
  | .settle =>
    match s.coord with
    | .polling p =>
      if p.todo ≠ [] then none
      else
        let stable := if p.good P (s.mark .coord).sent then p.stable + 1 else 0
        if 2 ≤ stable then some (s.goto (.done p))
        else some (s.goto (.polling
          { stable := stable
            lastSum := p.sum P (s.mark .coord).sent
            todo := P.acked
            cur := p.cur
            prev := p.cur
            mid := s.report }))
    | _ => none
  | .freeze id persisted =>
    match s.coord with
    | .done p =>
      if id ∈ P.acked ∧ p.passes P then
        some (s.set (.node id) { ((s.mark (.node id)).status persisted).1 with frozen := true })
      else none
    | _ => none
  | .abort => some (s.goto .aborted)

/-- The coordinator has the roots, and nothing was sent. -/
def start (P : Params κ) : State κ := ⟨fun _ => {}, [], [], .roots P.roots⟩

end Dstore.Mark
