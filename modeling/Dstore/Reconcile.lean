import Dstore.Pins
import Dstore.Transition

/-!
# Reconcile passes and sweeps of one node

A node offers the records of its packs to the nodes that are to hold them, one pack at a time, and
stamps a pack that it has been through. During a transition it goes through the packs sealed when it
adopted the transition, then through those sealed meanwhile, and reports itself done. The reconciler
reads its view once per step and the placement once per pack, so the two may be of different views.

`content`, `log` and a pass's `held` and `born` record what happened; the code does not read them.
The view register is one cell with its past, a chain of CASes, as in `Transition`.
-/

namespace Dstore.Cluster.Reconcile

variable {κ : Type} [DecidableEq κ]

/-- The node, the placement function over the members of a view, and the forwarding delay. -/
structure Params (κ : Type) extends Pins.Params κ where
  self : NodeID
  ownerIDs : List (NodeID × ℕ × String) → ℕ → κ → List NodeID
  delta : ℤ

section placement

variable (P : Params κ) (v : View) (k : κ)

/-- The owners of a key under a view's placement. -/
def owners : List NodeID := P.ownerIDs (placed v.nodes) v.replicas k

/-- The owners under the pending placement. -/
def pendingOwners : List NodeID :=
  match v.pending with
  | none => []
  | some p => P.ownerIDs (placed p.nodes) p.replicas k

/-- The owners under both. -/
def writeSet : List NodeID :=
  owners P v k ++ (pendingOwners P v k).filter fun id => id ∉ owners P v k

/-- Whether this node is to hold the key. -/
def inWriteSet : Bool := P.self ∈ owners P v k ∨ P.self ∈ pendingOwners P v k

end placement

/-- The stamp of a pack: the incarnation and the pass it was last visited in, and whether every
record was confirmed. -/
structure Stamp where
  inc : ℕ
  forID : ℕ
  replicated : Bool
  deriving DecidableEq, Repr

/-- A participant's progress through a transition pass, with the packs it has been through; `held`
is what it held at its start, and `born` how long the log was. -/
structure Xfer (κ : Type) extends Transition.Xfer where
  sealID : ℕ
  done : List ℕ := []
  deferred : List ℕ := []
  cover : Bool := false
  sealID2 : ℕ := 0
  held : List (κ × ℕ) := []
  born : ℕ := 0
  deriving DecidableEq, Repr

/-- The last pack of the pass, or of its second part. -/
def Xfer.limit (x : Xfer κ) : ℕ := if x.cover then x.sealID2 else x.sealID

/-- The next pack of the pass, and those behind it. -/
def Xfer.nextPack (x : Xfer κ) : List ℕ → Option (ℕ × List ℕ)
  | [] => none
  | id :: segs =>
    if x.limit < id then none
    else if id ∈ x.done then x.nextPack segs
    else if x.cover ∧ id ≤ x.sealID then x.nextPack segs
    else some (id, segs)

/-- What happened, newest first. A pass has an id: that of its transition, or of the placement.
`dead` is a key that a sweep dropped as corrupt or garbage. -/
inductive Event (κ : Type)
  | adopt (v : View)
  | skip (forID : ℕ) (k : κ)
  | spare (forID : ℕ) (t : NodeID) (k : κ)
  | offer (forID : ℕ) (t : NodeID) (k : κ)
  | confirm (t : NodeID) (k : κ)
  | dead (k : κ)
  deriving DecidableEq, Repr

/-- A `reconcilePack` past its loop over the keys: what is still to be offered to whom. -/
structure Visit (κ : Type) where
  id : ℕ
  inc : ℕ
  forID : ℕ
  keys : List κ
  todo : List (NodeID × κ)
  deferred : Bool
  replicated : Bool := true
  deriving DecidableEq, Repr

/-- Where a step of the reconciler stands. A visit of a transition pass goes on with the packs
behind it. -/
inductive Pass (κ : Type)
  | idle
  | looked (v : View)
  | adopting (v : View)
  | rereading (v : View)
  | walking (v : View) (x : Xfer κ) (segs : List ℕ) (allDone : Bool)
  | visiting (c : Visit κ) (walk : Option (View × Xfer κ × List ℕ))
  | ending (v : View) (x : Xfer κ) (allDone : Bool)
  | reporting (id : ℕ) (x : Xfer κ)
  | resting (v : View)
  deriving DecidableEq, Repr

/-- What a target answers: the keys it lacks, and those it then stored; `none` is an error. -/
structure Reply (κ : Type) where
  missing : Option (List κ)
  put : Option (List κ)
  deriving DecidableEq, Repr

/-- The keys a target holds by its answers, and those it does not confirm. -/
def forwardTo (keys : List κ) (r : Reply κ) : List κ × List κ :=
  match r.missing with
  | none => ([], keys)
  | some lacking =>
    let ok := keys.filter fun k => k ∉ lacking
    if lacking = [] then (ok, [])
    else
      match r.put with
      | none => (ok, lacking)
      | some confirmed =>
        (ok ++ lacking.filter fun k => k ∈ confirmed, lacking.filter fun k => k ∉ confirmed)

/-- The keys of one offer. -/
def maxOffer : ℕ := 4096

/-- Whether the active segment was sealed, and the segments could be listed. -/
structure SealOut where
  compacted : Bool := true
  listed : Bool := true
  deriving DecidableEq, Repr

/-- The node's store, its view, the register with the views it has held, and the reconciler. `cur`
is the view of each sweep, once it has one. -/
structure State (κ : Type) where
  node : Pins.State κ
  active : ℕ
  view : View
  reg : View
  past : List View
  stamps : ℕ → Option Stamp := fun _ => none
  lastMark : Option (Pins.SweepInput κ) := none
  cur : ℕ → Option View := fun _ => none
  xfer : Option (Xfer κ) := none
  saved : List (Xfer κ) := []
  pass : Pass κ := .idle
  content : ℕ → Option (List κ) := fun _ => none
  log : List (Event κ)

/-- What `reconcilePack` does with a key: nothing, nothing yet, or offer it, sparing those that have
it by the stamp. -/
inductive Verdict
  | skip
  | defer
  | offer (targets spared : List NodeID)
  deriving DecidableEq, Repr

/-- The node's rank among the participating owners, from 1, and those above it. -/
def rankLoop (self : NodeID) (participants : List NodeID) :
    List NodeID → List NodeID → ℕ × List NodeID
  | [], above => (0, above)
  | o :: os, above =>
    if o ∉ participants then rankLoop self participants os above
    else if o = self then (above.length + 1, above)
    else rankLoop self participants os (above ++ [o])

namespace State

variable (P : Params κ) (s : State κ)

/-- Whether the pack's stamp says that all of it is where a pass wants it. -/
def settledFor (id : ℕ) (v : View) (forID : ℕ) : Bool :=
  match s.stamps id with
  | none => false
  | some st => st.inc = v.incarnation ∧ st.forID = forID ∧ st.replicated

/-- Whether it is where the placement wants it. -/
def settled (id : ℕ) (v : View) : Bool := s.settledFor id v v.placementEpoch

/-- Whether the last mark proves the key garbage. -/
def provedDead (k : κ) (packID : ℕ) : Bool :=
  match s.lastMark with
  | none => false
  | some si => !si.overflow ∧ si.owned k ∧ si.eligible k = some packID ∧ packID < si.eligBelow ∧
      k ∉ si.marked ∧ !s.node.pinned P.toParams k (si.count - 1)

/-- The primary-forwarder rule: the highest-ranked participating owner offers at once, the others
after a while each, or once those above have reported. -/
def ready (pl : View) (p : Pending) (k : κ) : Bool :=
  let (j, above) := rankLoop P.self p.participants (owners P pl k) []
  j = 0 ∨ j = 1 ∨ ((j : ℤ) - 1) * P.delta ≤ s.node.now - p.frozenAt ∨ ∀ a ∈ above, a ∈ p.primaryDone

/-- The verdict on a key of pack `id`, by the view `v` and the placement of `pl`; `p` is the
transition the pass is for. -/
def judge (id : ℕ) (v pl : View) (p : Option Pending) (k : κ) : Verdict :=
  if s.node.isCorrupt k || s.provedDead P k id then .skip
  else
    match p with
    | none => .offer ((writeSet P pl k).filter (· ≠ P.self)) []
    | some p =>
      if !s.ready P pl p k then .defer
      else
        let targets := (pendingOwners P pl k).filter (· ≠ P.self)
        if s.settledFor id v v.placementEpoch then
          .offer (targets.filter (· ∉ owners P pl k)) (targets.filter (· ∈ owners P pl k))
        else
          .offer (targets ++ (owners P pl k).filter fun t => t ≠ P.self ∧ t ∉ targets) []

/-- `reconcilePack` up to its offers, where the index can be read. -/
def visit (id : ℕ) (v : View) (p : Option Pending) : Visit κ × List (Event κ) :=
  let pl := s.view
  let forID := (p.map Pending.id).getD v.placementEpoch
  let keys := (s.node.records.filter fun e => e.2 = id).map Prod.fst
  let judged := keys.map fun k => (k, s.judge P id v pl p k)
  ({ id := id, inc := v.incarnation, forID := forID, keys := keys
     todo := judged.flatMap fun e =>
       match e.2 with
       | .offer targets _ => targets.map fun t => (t, e.1)
       | _ => []
     deferred := judged.any fun e => e.2 = .defer },
   judged.flatMap fun e =>
     match e.2 with
     | .skip => [.skip forID e.1]
     | .offer _ spared => spared.map fun t => .spare forID t e.1
     | .defer => [])

/-- The keys that a compaction of the sweep `i` drops as corrupt or as garbage. -/
def garbage (i : ℕ) (ids : List ℕ) (cur : View) : List κ :=
  match s.node.sweeps i with
  | some (.compacting si) =>
    let live := s.node.live P.toParams si (inWriteSet P cur) fun id => s.settled id cur
    (s.node.records.filter fun e =>
      e.2 ∈ ids ∧ (s.node.isCorrupt e.1 ∨ si.owned e.1) ∧ !live e.1).map Prod.fst
  | _ => []

/-- The active segment is sealed. -/
def roll : State κ :=
  { s with
    node := { s.node with segments := s.node.segments ++ [s.active] }
    active := s.active + 1
    content := Function.update s.content s.active
      (some ((s.node.records.filter fun e => e.2 = s.active).map Prod.fst)) }

/-- `seal`: the store, and the highest sealed id. -/
def sealActive (o : SealOut) : State κ × ℕ :=
  let s := if o.compacted then s.roll else s
  (s, if o.listed then s.node.segments.getLast?.getD 0 else 0)

/-- Saves the pass, and keeps it in memory if that is of the same transition. -/
def saveXfer (x : Xfer κ) : State κ :=
  { s with
    xfer := Transition.keepXfer Xfer.toXfer x s.xfer
    saved := Transition.putXfer Xfer.toXfer x s.saved }

/-- Takes up a saved pass of the transition, or begins one with the packs sealed now. -/
def adoptTransition (v : View) (o : SealOut) : State κ :=
  match v.pending with
  | none => s
  | some p =>
    if (v.node P.self).isNone then s
    else
      match s.saved.find? fun x => x.isFor p with
      | some x => { s with xfer := some x }
      | none =>
        let (s, top) := s.sealActive o
        let x : Xfer κ := {
          id := p.id, round := p.round, sealID := top, held := s.node.records
          born := s.log.length }
        { s with xfer := some x, saved := Transition.putXfer Xfer.toXfer x s.saved }

/-- The pass that is there goes on with the segments as they are, unless it is over. -/
def walk (v : View) (p : Pending) (x : Xfer κ) (listed : Bool) : State κ :=
  if x.finished ∨ P.self ∈ p.done then { s with pass := .resting v }
  else if listed then { s with pass := .walking v x s.node.segments true }
  else { s with pass := .idle }

/-- Stamps the pack that was visited. -/
def stampPack (c : Visit κ) : State κ :=
  { s with stamps := Function.update s.stamps c.id (some ⟨c.inc, c.forID, c.replicated⟩) }

/-- The pass is through with a pack. -/
def donePack (x : Xfer κ) (id : ℕ) : State κ :=
  let x := { x with done := id :: x.done, deferred := x.deferred.filter (· ≠ id) }
  { s.saveXfer x with pass := .idle }

end State

/-- The steps of the node, of the register and of the reconciler. The outcome of what may fail comes
with the step. -/
inductive Action (κ : Type)
  | node (a : Pins.Action κ)
  | roots (epoch : ℕ) (u : View)
  | roll
  | place (i : ℕ)
  | compact (i : ℕ) (ids : List ℕ)
  | change (c : Change)
  | adopt (v : View)
  | onEpoch (v : View) (o : SealOut)
  | committed (v : View)
  | wiped (o : SealOut)
  | forward (t : NodeID) (keys : List κ) (r : Reply κ)
  | look
  | enter (listed : Bool)
  | adoptPass (o : SealOut)
  | reread (listed : Bool)
  | visit (scanned : Bool)
  | audit (id : ℕ) (scanned : Bool)
  | rest
  | offer (t : NodeID) (r : Reply κ)
  | finish
  | close (o : SealOut)
  | report

/-- Whether the node takes a view over. -/
def newer (cur v : View) : Bool :=
  cur.incarnation < v.incarnation ∨ cur.incarnation = v.incarnation ∧
    (cur.epoch < v.epoch ∨ cur.epoch = v.epoch ∧ cur.version < v.version)

/-- The changes of the register by others: only the node reports itself done. -/
def byOthers (self : NodeID) : Change → Bool
  | .done n _ => n ≠ self
  | _ => true

/-- The steps of the store that stand alone; a record is appended to the active segment. -/
def alone (s : State κ) : Pins.Action κ → Bool
  | .put _ pack => pack = s.active
  | .sealSegment _ | .compact _ _ _ _ _ | .roots _ _ => false
  | _ => true

/-- What a step of the store's own does to the rest: a sweep that gets its input makes that the last
mark, and a restart leaves what is kept on disk. -/
def State.afterNode (s : State κ) (a : Pins.Action κ) (n : Pins.State κ) : State κ :=
  match a with
  | .input i _ =>
    match n.sweeps i with
    | some (.compacting si) =>
      { s with node := n, lastMark := some si, cur := Function.update s.cur i none }
    | _ => { s with node := n }
  | .restart =>
    { s with node := n, lastMark := none, cur := fun _ => none, xfer := none, pass := .idle }
  | _ => { s with node := n }

/-- One step: of the node's store and its sweeps, of the view register and the node's copy of it, or
of the reconciler, one pack at a time. -/
def step (P : Params κ) (s : State κ) : Action κ → Option (State κ)
  | .node a => if alone s a then (Pins.step P.toParams s.node a).map (s.afterNode a) else none
  | .roots epoch u =>
    if u ∈ s.past then
      (Pins.step P.toParams s.node (.roots epoch (inWriteSet P u))).map
        fun n => { s with node := n }
    else none
  | .roll => some s.roll
  | .place i =>
    match s.node.sweeps i, s.cur i with
    | some (.compacting _), none =>
      some { s with cur := Function.update s.cur i (some s.view) }
    | _, _ => none
  | .compact i ids =>
    match s.cur i with
    | none => none
    | some cur =>
      (Pins.step P.toParams s.node
        (.compact i ids s.active (inWriteSet P cur) fun id => s.settled id cur)).map
          fun n => { s with node := n, log := (s.garbage P i ids cur).map .dead ++ s.log }
  | .change c =>
    if byOthers P.self c then
      match casView c s.reg with
      | .error _ => none
      | .ok u => some { s with reg := u, past := u :: s.past }
    else none
  | .adopt v =>
    if v ∈ s.past ∧ newer s.view v then some { s with view := v, log := .adopt v :: s.log }
    else none
  | .onEpoch v o => if .adopt v ∈ s.log then some (s.adoptTransition P v o) else none
  | .committed v =>
    if .adopt v ∈ s.log ∧ v.pending.isNone then some { s with xfer := none, saved := [] } else none
  | .wiped o =>
    let s := (s.sealActive o).1
    some { s with stamps := fun id =>
      if id ∈ s.node.segments then (s.stamps id).map fun st => { st with replicated := false }
      else s.stamps id }
  | .forward t keys r => some { s with log := (forwardTo keys r).1.map (.confirm t) ++ s.log }
  | .look =>
    match s.pass with
    | .idle => some { s with pass := .looked s.view }
    | _ => none
  | .enter listed =>
    match s.pass with
    | .looked v =>
      if v.rebalancePause then some { s with pass := .idle }
      else
        match v.pending with
        | none => some { s with pass := .resting v }
        | some p =>
          if !p.frozen ∨ P.self ∉ p.participants then some { s with pass := .resting v }
          else
            match s.xfer.filter fun x => x.isFor p with
            | none => some { s with pass := .adopting v }
            | some x => some (s.walk P v p x listed)
    | _ => none
  | .adoptPass o =>
    match s.pass with
    | .adopting v => some { s.adoptTransition P v o with pass := .rereading v }
    | _ => none
  | .reread listed =>
    match s.pass with
    | .rereading v =>
      match v.pending, s.xfer with
      | some p, some x => some (s.walk P v p x listed)
      | _, _ => some { s with pass := .resting v }
    | _ => none
  | .visit scanned =>
    match s.pass with
    | .walking v x segs allDone =>
      match x.nextPack segs with
      | none => some { s with pass := .ending v x allDone }
      | some (id, rest) =>
        if scanned ∧ id ∈ s.node.segments then
          let (c, events) := s.visit P id v v.pending
          some { s with pass := .visiting c (some (v, x, rest)), log := events ++ s.log }
        else some (s.donePack x id)
    | _ => none
  | .audit id scanned =>
    match s.pass with
    | .resting v =>
      if id ∈ s.node.segments then
        if scanned then
          let (c, events) := s.visit P id v none
          some { s with pass := .visiting c none, log := events ++ s.log }
        else some { s with pass := .idle }
      else none
    | _ => none
  | .rest =>
    match s.pass with
    | .resting _ => some { s with pass := .idle }
    | _ => none
  | .offer t r =>
    match s.pass with
    | .visiting c w =>
      let batch := ((c.todo.filter fun e => e.1 = t).map Prod.snd).take maxOffer
      if batch = [] then none
      else
        let res := forwardTo batch r
        some { s with
          pass := .visiting { c with
            todo := c.todo.filter fun e => !(e.1 = t ∧ e.2 ∈ batch)
            replicated := c.replicated && res.2.isEmpty } w
          log := res.1.map (.confirm t) ++ batch.map (.offer c.forID t) ++ s.log }
    | _ => none
  | .finish =>
    match s.pass with
    | .visiting c none => if c.todo = [] then some { s.stampPack c with pass := .idle } else none
    | .visiting c (some (v, x, rest)) =>
      if c.todo = [] then
        if c.deferred then
          let x := { x with deferred := c.id :: x.deferred.filter (· ≠ c.id) }
          some { s.saveXfer x with pass := .walking v x rest false }
        else some ((s.stampPack c).donePack x c.id)
      else none
    | _ => none
  | .close o =>
    match s.pass with
    | .ending v x allDone =>
      let x := { x with primary := true }
      if !allDone then some { s.saveXfer x with pass := .idle }
      else if !x.cover then
        let (s, top) := s.sealActive o
        some { s.saveXfer { x with cover := true, sealID2 := top } with pass := .idle }
      else
        let x := { x with finished := true }
        match v.pending with
        | none => none
        | some p => some { s.saveXfer x with pass := .reporting p.id x }
    | _ => none
  | .report =>
    match s.pass with
    | .reporting id _ =>
      match casView (.done P.self id) s.reg with
      | .error _ => some { s with pass := .idle }
      | .ok u => some { s with pass := .idle, reg := u, past := u :: s.past }
    | _ => none

/-- A node with nothing in its store, at the register's first view. -/
def start (v : View) (now : ℤ) : State κ where
  node := Pins.start now
  active := 1
  view := v
  reg := v
  past := [v]
  log := [.adopt v]

end Dstore.Cluster.Reconcile
