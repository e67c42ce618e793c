import Dstore.View
import Dstore.Lib.Log

/-!
# The cluster view and its changes

The view has the placement set `nodes`, the target set `pending` while a transition runs, the voters
and the state of their change, the weight ramps and the operator's knobs. Every writer goes through
`CASView` with a change function of its own, which says whether the edit raises the epoch.
-/

namespace Dstore.Cluster

/-- A member with its weight; one of weight 0 holds nothing. -/
structure Node where
  id : NodeID
  weight : ℕ
  addrs : List String := []
  token : Bytes := []
  zone : String := ""
  incarnation : ℕ := 0
  writable : Bool := true
  deriving DecidableEq, Repr

/-- What the placement reads of the nodes. -/
def placed (nodes : List Node) : List (NodeID × ℕ × String) :=
  nodes.map fun nd => (nd.id, nd.weight, nd.zone)

/-- A member on its way to a weight, in steps. -/
structure Ramp where
  node : NodeID
  target : ℕ
  step : ℕ
  deriving DecidableEq, Repr

/-- A member that left, and until when that is remembered. -/
structure Former where
  id : NodeID
  expiry : ℤ
  deriving DecidableEq, Repr

/-- A transition: the placement that is to come, and who of the members takes part and how far they
are. A re-freeze starts a new round. -/
structure Pending where
  nodes : List Node
  replicas : ℕ
  id : ℕ := 0
  participantsAck : List NodeID := []
  participants : List NodeID := []
  frozen : Bool := false
  round : ℕ := 0
  primaryDone : List NodeID := []
  done : List NodeID := []
  frozenAt : ℤ := 0
  since : ℤ := 0
  deriving DecidableEq, Repr

/-- The cluster view, as far as placement, transitions and voter changes read it. -/
structure View where
  incarnation : ℕ
  epoch : ℕ
  version : ℕ
  placementEpoch : ℕ := 0
  replicas : ℕ
  minReplicas : ℕ
  voters : List Voter
  voterSync : VoterSync := .done
  voterSyncCursor : Bytes := []
  voterSyncTarget : Option NodeID := none
  voterSyncAdd : Bool := false
  nodes : List Node
  pending : Option Pending := none
  former : List Former := []
  rebalancePause : Bool := false
  rateCap : ℕ := 0
  deferredVoters : List NodeID := []
  ramps : List Ramp := []
  removeVoters : List NodeID := []
  deriving DecidableEq, Repr

namespace View

/-- The member's entry, of the placement or of the pending one. -/
def node (v : View) (id : NodeID) : Option Node :=
  (v.nodes.find? fun nd => nd.id = id) <|>
    (v.pending.bind fun p => p.nodes.find? fun nd => nd.id = id)

/-- Whether the node has an acceptor that counts. -/
def isVoter (v : View) (id : NodeID) : Bool := v.voters.any fun vo => vo.id = id

/-- The members of the placement and of the pending one, each once. -/
def allMembers (v : View) : List NodeID :=
  let ids := v.nodes.map Node.id ++ (v.pending.map fun p => p.nodes.map Node.id).getD []
  ids.foldl (fun out id => if id ∈ out then out else out ++ [id]) []

end View

/-- Adds an id that is not there. -/
def addID (ids : List NodeID) (id : NodeID) : List NodeID := if id ∈ ids then ids else ids ++ [id]

def removeID (ids : List NodeID) (id : NodeID) : List NodeID := ids.filter (· ≠ id)

/-- Ends a member's ramp. -/
def dropRamp (ramps : List Ramp) (id : NodeID) : List Ramp := ramps.filter (·.node ≠ id)

/-- The entries in the order of their ids. -/
def sortNodes (nodes : List Node) : List Node := nodes.insertionSort fun a b => a.id ≤ b.id

/-- Why a change refuses a view. `abort` is the refusal that nobody reports. -/
inductive Err
  | abort
  | text (s : String)
  | notPlaced (id : NodeID)
  | drops (dropped replicas : ℕ)
  | tokenUsed
  deriving DecidableEq, Repr

/-- Refuse a target set that drops `replicas` or more of the current nodes at once. -/
def validateChange (cur target : List Node) (replicas : ℕ) : Except Err Unit :=
  let dropped := (cur.filter fun n =>
    0 < n.weight && !(target.any fun t => t.id = n.id ∧ 0 < t.weight)).length
  if replicas ≤ dropped ∧ 0 < replicas then .error (.drops dropped replicas) else .ok ()

/-- Publish a pending placement set built by `fn`, which may edit the view it is given too. -/
def proposeTransition (now : ℤ) (fn : View → Pending → Except Err (View × Pending)) (v : View) :
    Except Err (View × Bool) :=
  if v.pending.isSome then .error (.text "a transition is already in progress")
  else if v.voterSync = .pending then .error (.text "a voter change is in progress")
  else
    match fn v { nodes := v.nodes, replicas := v.replicas, since := now } with
    | .error e => .error e
    | .ok (v, p) =>
      match validateChange v.nodes p.nodes v.replicas with
      | .error e => .error e
      | .ok () => .ok ({ v with pending := some { p with id := v.epoch + 1 } }, true)

/-- Replaces the first entry of an id, if there is one. -/
def atFirst (id : NodeID) (f : Node → List Node) : List Node → Option (List Node)
  | [] => none
  | nd :: rest => if nd.id = id then some (f nd ++ rest) else (atFirst id f rest).map (nd :: ·)

/-- Edits the entries of an id. -/
def updateNodes (id : NodeID) (f : Node → Node) (nodes : List Node) : List Node :=
  nodes.map fun nd => if nd.id = id then f nd else nd

/-- An operator's change of one member. -/
inductive NodeOp
  | remove
  | drain
  | weight (w : ℕ)
  | zone (z : String)
  deriving DecidableEq, Repr

/-- The edit of `nodeChange`: where an operator sets the weight, the ramp ends. -/
def nodeChangeFn (op : NodeOp) (id : NodeID) (v : View) (p : Pending) :
    Except Err (View × Pending) :=
  let edit (f : Node → List Node) (ramps : List Ramp) : Except Err (View × Pending) :=
    match atFirst id f p.nodes with
    | none => .error (.notPlaced id)
    | some nodes => .ok ({ v with ramps := ramps }, { p with nodes := nodes })
  match op with
  | .remove => edit (fun _ => []) (dropRamp v.ramps id)
  | .drain => edit (fun nd => [{ nd with weight := 0 }]) (dropRamp v.ramps id)
  | .weight w => edit (fun nd => [{ nd with weight := w }]) (dropRamp v.ramps id)
  | .zone z => edit (fun nd => [{ nd with zone := z }]) v.ramps

/-- The edit of the next step of a ramp. -/
def rampFn (id : NodeID) (next : ℕ) (v : View) (p : Pending) : Except Err (View × Pending) :=
  .ok ({ v with ramps := v.ramps.map fun r =>
      if r.node = id then { r with step := r.step + 1 } else r },
    { p with nodes := updateNodes id (fun nd => { nd with weight := next }) p.nodes })

/-- The edit of a change of the replica count. -/
def replicasFn (replicas : ℕ) (v : View) (p : Pending) : Except Err (View × Pending) :=
  if replicas = 0 then .error (.text "replicas must be ≥ 1")
  else .ok (v, { p with replicas := replicas })

/-- A request to join, with the token it was given. -/
structure JoinRequest where
  id : NodeID
  tokenID : Bytes
  weight : ℕ
  zone : String := ""
  addrs : List String := []
  noVote : Bool := false
  noRamp : Bool := false
  deriving DecidableEq, Repr

/-- The weight a member starts with. -/
def firstRampWeight (w : ℕ) (noRamp : Bool) : ℕ := if noRamp ∨ w < 8 then w else w / 8

/-- Whether an entry carries the token. -/
def tokenUsed (v : View) (token : Bytes) : Bool :=
  (v.nodes.any fun nd => nd.token = token) ||
    (v.pending.any fun p => p.nodes.any fun nd => nd.token = token)

/-- The edit of a join, which refuses a token that is used. -/
def joinFn (r : JoinRequest) (v : View) (p : Pending) : Except Err (View × Pending) :=
  if tokenUsed v r.tokenID then .error .tokenUsed
  else
    let first := firstRampWeight r.weight r.noRamp
    let entry : Node := {
      id := r.id, weight := first, addrs := r.addrs, token := r.tokenID, zone := r.zone,
      incarnation := 1 }
    .ok ({ v with
        ramps := if first < r.weight then v.ramps ++ [⟨r.id, r.weight, 1⟩] else v.ramps
        deferredVoters := if r.noVote then removeID v.deferredVoters r.id else v.deferredVoters },
      { p with nodes := sortNodes (p.nodes ++ [entry]) })

/-- A change of the transition of this id, if it is still pending. -/
def casPending (id : ℕ) (fn : Pending → Pending) (v : View) : Except Err (View × Bool) :=
  match v.pending with
  | none => .error .abort
  | some p =>
    if p.id ≠ id then .error .abort else .ok ({ v with pending := some (fn p) }, false)

/-- A member has seen the transition. -/
def ack (node : NodeID) (id : ℕ) (v : View) : Except Err (View × Bool) :=
  match v.pending with
  | none => .error .abort
  | some p =>
    if p.id ≠ id ∨ node ∈ p.participantsAck then .error .abort
    else
      let p := { p with participantsAck := addID p.participantsAck node }
      .ok ({ v with pending := some p }, false)

/-- Fixes the participants: the members that have acknowledged. -/
def freeze (id : ℕ) (now : ℤ) (v : View) : Except Err (View × Bool) :=
  match v.pending with
  | none => .error .abort
  | some p =>
    if p.id ≠ id ∨ p.frozen then .error .abort
    else .ok ({ v with pending := some { p with
      participants := v.allMembers.filter (· ∈ p.participantsAck)
      frozen := true
      frozenAt := now } }, true)

/-- Drop the participants that have reported nothing and start a new round. -/
def refreeze (force : Bool) (now : ℤ) (v : View) : Except Err (View × Bool) :=
  match v.pending with
  | none => .error (.text "no frozen transition")
  | some p =>
    if !p.frozen then .error (.text "no frozen transition")
    else
      let parts := p.participants.filter fun id => id ∈ p.done ∨ id ∈ p.primaryDone ∧ !force
      if parts.length = p.participants.length ∧ !force then .error .abort
      else .ok ({ v with pending := some { p with
        participants := parts
        round := p.round + 1
        done := []
        primaryDone := []
        frozenAt := now } }, true)

/-- How long a member that left is remembered: 30 days, in nanoseconds. -/
def formerFor : ℤ := 30 * 24 * 3600 * 1000000000

/-- Makes the pending placement the current one, once all participants are done. -/
def commit (id round : ℕ) (now : ℤ) (v : View) : Except Err (View × Bool) :=
  match v.pending with
  | none => .error .abort
  | some p =>
    if p.id ≠ id ∨ p.round ≠ round then .error .abort
    else if ∃ part ∈ p.participants, part ∉ p.done then .error .abort
    else
      let removed := (v.nodes.map Node.id).filter fun id => id ∉ p.nodes.map Node.id
      let left := removed.map fun id => Former.mk id (now + formerFor)
      .ok ({ v with
        former := (v.former ++ left).filter (now < ·.expiry)
        removeVoters := (removed.filter fun id => v.isVoter id).foldl addID v.removeVoters
        nodes := p.nodes
        replicas := p.replicas
        minReplicas := min v.minReplicas p.replicas
        placementEpoch := p.id
        pending := none }, true)

/-- Gives the transition up. -/
def abort (v : View) : Except Err (View × Bool) :=
  if v.pending.isNone then .error .abort else .ok ({ v with pending := none }, true)

/-- A node's edit of its own entries. -/
def updateSelfEntry (id : NodeID) (addrs : List String) (writable : Bool) (v : View) :
    Except Err (View × Bool) :=
  let upd := updateNodes id fun nd => { nd with addrs := addrs, writable := writable }
  let v' := { v with
    nodes := upd v.nodes
    pending := v.pending.map fun p => { p with nodes := upd p.nodes } }
  if v' = v then .error .abort else .ok (v', false)

/-- The operator's knobs. -/
inductive Knob
  | pause
  | resume
  | rateCap (rate : ℕ)
  deriving DecidableEq, Repr

def knob (k : Knob) (v : View) : Except Err (View × Bool) :=
  match k with
  | .pause => .ok ({ v with rebalancePause := true }, false)
  | .resume => .ok ({ v with rebalancePause := false }, false)
  | .rateCap rate => .ok ({ v with rateCap := rate }, false)

/-- Adds a voter, whose state is then to be copied. -/
def addVoter (id : NodeID) (v : View) : Except Err (View × Bool) :=
  if v.voterSync = .pending ∨ v.isVoter id then
    .error (.text "voter set changed concurrently")
  else .ok ({ v with
    voters := v.voters ++ [⟨id, v.epoch + 1⟩]
    voterSync := .pending
    voterSyncTarget := some id
    voterSyncAdd := true
    voterSyncCursor := []
    deferredVoters := removeID v.deferredVoters id }, true)

/-- Keeps a voter for later: a single voter becomes three at once. -/
def deferVoter (id : NodeID) (v : View) : Except Err (View × Bool) :=
  .ok ({ v with deferredVoters := addID v.deferredVoters id }, false)

/-- Goes from a single voter to several, whose state was copied before. -/
def addVotersFromSingle (ids : List NodeID) (v : View) : Except Err (View × Bool) :=
  if v.voters.length ≠ 1 then .error (.text "voter set changed concurrently")
  else .ok ({ v with
    voters := v.voters ++ ids.map fun id => ⟨id, v.epoch + 1⟩
    deferredVoters := []
    voterSync := .done }, true)

/-- Forgets that a voter was to be removed. -/
def clearRemoveVoter (id : NodeID) (v : View) : Except Err (View × Bool) :=
  .ok ({ v with removeVoters := removeID v.removeVoters id }, false)

/-- Removes a voter; the rows the others lack are then to be copied. -/
def removeVoter (id : NodeID) (v : View) : Except Err (View × Bool) :=
  if v.voterSync = .pending ∨ ¬ v.isVoter id then
    .error (.text "voter set changed concurrently")
  else .ok ({ v with
    voters := v.voters.filter (·.id ≠ id)
    voterSync := .pending
    voterSyncTarget := some id
    voterSyncAdd := false
    voterSyncCursor := []
    removeVoters := removeID v.removeVoters id }, true)

/-- The copying is over. -/
def voterSyncDone (v : View) : Except Err (View × Bool) :=
  .ok ({ v with voterSync := .done, voterSyncCursor := [], voterSyncTarget := none }, false)

/-- Records how far the copying is. -/
def voterSyncCursor (cursor : Bytes) (v : View) : Except Err (View × Bool) :=
  if v.voterSync ≠ .pending then .error .abort
  else .ok ({ v with voterSyncCursor := cursor }, false)

/-- The changes the program makes to the view, with their arguments. -/
inductive Change
  | updateSelfEntry (id : NodeID) (addrs : List String) (writable : Bool)
  | nodeChange (op : NodeOp) (id : NodeID) (now : ℤ)
  | ramp (id : NodeID) (next : ℕ) (now : ℤ)
  | join (r : JoinRequest) (now : ℤ)
  | replicas (n : ℕ) (now : ℤ)
  | rampDone (id : NodeID)
  | ack (node : NodeID) (id : ℕ)
  | freeze (id : ℕ) (now : ℤ)
  | primaryDone (node : NodeID) (id : ℕ)
  | done (node : NodeID) (id : ℕ)
  | refreeze (force : Bool) (now : ℤ)
  | commit (id round : ℕ) (now : ℤ)
  | abort
  | knob (k : Knob)
  | addVoter (id : NodeID)
  | deferVoter (id : NodeID)
  | addVotersFromSingle (ids : List NodeID)
  | clearRemoveVoter (id : NodeID)
  | removeVoter (id : NodeID)
  | voterSyncDone
  | voterSyncCursor (cursor : Bytes)
  deriving DecidableEq, Repr

/-- The change function each of them hands to `CASView`. -/
def Change.apply : Change → View → Except Err (View × Bool)
  | .updateSelfEntry id addrs writable => Cluster.updateSelfEntry id addrs writable
  | .nodeChange op id now => proposeTransition now (nodeChangeFn op id)
  | .ramp id next now => proposeTransition now (rampFn id next)
  | .join r now => proposeTransition now (joinFn r)
  | .replicas n now => proposeTransition now (replicasFn n)
  | .rampDone id => fun v => .ok ({ v with ramps := dropRamp v.ramps id }, false)
  | .ack node id => Cluster.ack node id
  | .freeze id now => Cluster.freeze id now
  | .primaryDone node id =>
    casPending id fun p => { p with primaryDone := addID p.primaryDone node }
  | .done node id => casPending id fun p => { p with done := addID p.done node }
  | .refreeze force now => Cluster.refreeze force now
  | .commit id round now => Cluster.commit id round now
  | .abort => Cluster.abort
  | .knob k => Cluster.knob k
  | .addVoter id => Cluster.addVoter id
  | .deferVoter id => Cluster.deferVoter id
  | .addVotersFromSingle ids => Cluster.addVotersFromSingle ids
  | .clearRemoveVoter id => Cluster.clearRemoveVoter id
  | .removeVoter id => Cluster.removeVoter id
  | .voterSyncDone => Cluster.voterSyncDone
  | .voterSyncCursor cursor => Cluster.voterSyncCursor cursor

/-- What `CASView` proposes of a change: the version raised, and the epoch where it asks for it. -/
def casView (c : Change) (v : View) : Except Err View :=
  match c.apply v with
  | .error e => .error e
  | .ok (nv, bump) => .ok { nv with
      version := v.version + 1
      epoch := if bump then v.epoch + 1 else nv.epoch }

/-- The views of a chain of CASes, each computed on the one before. One that refuses its view leaves
it; a view on the chain need not have been accepted by a majority. -/
def casChain (v : View) (cs : List Change) : List View := Log.states casView v cs

/-- The view register where it is one cell, with the views it has held, newest first. -/
structure Register where
  view : View
  past : List View

/-- A `casView` of the register, which may refuse. -/
def Register.cas (r : Register) (c : Change) : Option Register :=
  match casView c r.view with
  | .error _ => none
  | .ok v => some { view := v, past := v :: r.past }

end Dstore.Cluster
