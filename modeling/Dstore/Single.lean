import Dstore.Catalog

/-!
# The first step out of a single voter

`addVoterFromSingle` takes a cluster from one voter to three: one CAS commits the new view on the
single acceptor, the coordinator adopts it, copies every row of its own acceptor to the new voters,
sets their markers, and installs the view everywhere. Around it any catalog traffic may reach any
acceptor, and any view in circulation may be adopted or installed.
-/

namespace Dstore.Single

/-- The CAS of `addVoterFromSingle`: all new voters at once, on a view with one voter only. -/
def change (newIDs : List NodeID) (v : View) : Except CatalogErr (View × Bool) :=
  if v.voters.length ≠ 1 then .error (.change "voter set changed concurrently")
  else .ok ({ v with
    voters := v.voters ++ newIDs.map fun id => ⟨id, v.epoch + 1⟩
    deferredVoters := []
    voterSync := .done }, true)

/-- Whether a request is an accept of `v` on the view register. -/
def commits (views : Codec View) (v : View) : Req → Bool
  | .accept reg _ value hasValue _ => reg = regView ∧ value = views.enc v ∧ hasValue
  | _ => false

/-- What one call is about: the node it runs on, the voter to add, the voters it adds and the view
its CAS finds. -/
structure Setup where
  node : NodeID
  id : NodeID
  newIDs : List NodeID
  old : View

namespace Setup

variable (S : Setup)

/-- The voter the call starts from. -/
def single : NodeID := S.old.voterIDs.headD 0

/-- The view the CAS commits. -/
def view : View :=
  match change S.newIDs S.old with
  | .ok (nv, bump) => nextView S.old nv bump
  | .error _ => S.old

/-- The views that may reach a node: those of the single voter's time, and the new one with what
keeps its epoch and voters. -/
def circulates (u : View) : Bool :=
  u.isVoter S.single ∧ (u.compare S.view.incarnation S.view.epoch = .lt ∨
    u.compare S.view.incarnation S.view.epoch = .eq ∧ u.voters = S.view.voters)

/-- Whether the single voter has accepted the new view, under an older one. -/
def committed (views : Codec View) (log : List Event) : Bool :=
  log.any fun e => e.node = S.single ∧ e.ans.reply = .accepted ∧
    S.view.compare e.msg.incarnation e.msg.epoch = .gt ∧ commits views S.view e.msg.req

end Setup

/-- Where `addVoterFromSingle` is. While it seeds, `rest` is what the first of `todo` still has to
be sent of `rows`. -/
inductive Coord
  | start
  | deferring
  | deferred
  | casting
  | adopting
  | installing
  | copying
  | seeding (rows : List ScanRow) (todo : List NodeID) (rest : List ScanRow)
  | returned
  | failed
  deriving DecidableEq, Repr

/-- The acceptors, the views the nodes hold, what was answered, and where the call is. -/
structure State where
  acc : NodeID → Acceptor
  view : NodeID → View
  log : List Event
  coord : Coord

/-- What may happen while the call runs: catalog traffic, views that reach a node, and its own
steps. -/
inductive Action
  | traffic (w : NodeID) (m : Msg) (now : ℤ)
  | learn (w : NodeID) (u : View)
  | install (w : NodeID) (u : View)
  | begin (pinged : Bool)
  | commit
  | adopt
  | installOwn
  | copy
  | seed (applied : Bool)
  | mark
  | finish
  | fail
  deriving DecidableEq, Repr

/-- The requests of the catalog's clients; the call sends its seeds and markers itself. -/
def isTraffic : Req → Bool
  | .prepare _ _ | .accept _ _ _ _ _ | .read _ | .scan _ _ _ => true
  | _ => false

/-- `adopt`: whether a node that holds `cur` keeps it when it is shown `u`. -/
def keeps (cur u : View) : Bool :=
  match cur.compare u.incarnation u.epoch with
  | .gt => true
  | .eq => u.version ≤ cur.version ∨ cur.clusterID ≠ [] ∧ u.clusterID ≠ [] ∧
      cur.clusterID ≠ u.clusterID
  | .lt => cur.clusterID ≠ [] ∧ u.clusterID ≠ [] ∧ cur.clusterID ≠ u.clusterID

/-- How many rows one seed request carries. -/
def seedBatch : ℕ := 2000

namespace State

/-- The state after a write to the acceptor of `w`. -/
def setAcc (s : State) (w : NodeID) (a : Acceptor) : State :=
  { s with acc := Function.update s.acc w a }

/-- The state after the call has moved on. -/
def goto (s : State) (c : Coord) : State := { s with coord := c }

end State

/-- One step of the cluster around `addVoterFromSingle`. -/
def step (views : Codec View) (S : Setup) (s : State) : Action → Option State
  | .traffic w m now =>
    if isTraffic m.req then
      some { s.setAcc w ((s.acc w).handle now m).1 with
        log := ⟨w, m, ((s.acc w).handle now m).2⟩ :: s.log }
    else none
  | .learn w u =>
    if S.circulates u ∧ !keeps (s.view w) u then
      some { s with view := Function.update s.view w u }
    else none
  | .install w u => if S.circulates u then some (s.setAcc w ((s.acc w).install u)) else none
  | .begin pinged =>
    if s.coord ≠ .start then none
    else if (s.view S.node).deferredVoters = [] then some (s.goto .deferring)
    else if (s.view S.node).deferredVoters ++ [S.id] ≠ S.newIDs then none
    else some (s.goto (if pinged then .casting else .failed))
  | .commit =>
    match s.coord with
    | .deferring => some (s.goto .deferred)
    | .casting =>
      if S.old.voters.length = 1 ∧ S.committed views s.log then some (s.goto .adopting) else none
    | _ => none
  | .adopt =>
    if s.coord ≠ .adopting then none
    -- the node's acceptor is left alone where the node is already there
    else if keeps (s.view S.node) S.view then some (s.goto .copying)
    else some { s with
      view := Function.update s.view S.node S.view
      coord := .installing }
  | .installOwn =>
    if s.coord ≠ .installing then none
    else some ((s.setAcc S.node ((s.acc S.node).install S.view)).goto .copying)
  | .copy =>
    if s.coord ≠ .copying then none
    else some (s.goto (.seeding (s.acc S.node).allRows S.newIDs (s.acc S.node).allRows))
  | .seed applied =>
    match s.coord with
    | .seeding rows (w :: todo) (r :: rest) =>
      -- any reply counts, also an error of an acceptor that was closed
      let s' := if applied then
          s.setAcc w ((s.acc w).seed ((r :: rest).take seedBatch)).1
        else s
      some (s'.goto (.seeding rows (w :: todo) ((r :: rest).drop seedBatch)))
    | _ => none
  | .mark =>
    match s.coord with
    | .seeding rows (w :: todo) [] =>
      some ((s.setAcc w ((s.acc w).setMarker S.view.epoch)).goto (.seeding rows todo rows))
    | _ => none
  | .finish =>
    match s.coord with
    | .seeding _ [] _ => some (s.goto .returned)
    | _ => none
  | .fail =>
    match s.coord with
    | .deferring | .casting | .copying | .seeding _ (_ :: _) _ => some (s.goto .failed)
    | _ => none

/-- Whether the acceptor answers prepares, reads and scans at the epoch of `v`. -/
def canAnswer (v : View) (a : Acceptor) : Bool :=
  match a.installed with
  | some u => u.compare v.incarnation v.epoch = .eq ∧ a.refuseIfForgetful = none
  | none => false

end Dstore.Single
