import Dstore.GcRegister
import Dstore.Lib.Machine

/-!
# The sweeps of a cluster

In phase `sweep` every acked node sweeps once its wave is released, remembers the epoch, and reports
to the gc register; whoever observes the register releases the next wave, and closes the epoch when
all have reported. A poll or an observer may hold any value the register has had (`past`); a report
is on its way (`sent`) until it takes effect, if it does. Whether a sweep finds its mark is open.

The gc register is one cell with its past. That past is a chain of writes (`held_run`), and so are
the values that the catalog commits (`Proofs.Epochs`).
-/

namespace Dstore.Sweeps

open Gc (GCState NodeStat Write)

/-- How many nodes a wave releases. -/
def quarterOf (acked : List NodeID) : ℕ :=
  let quarter := (acked.length + 3) / 4
  if quarter = 0 then 1 else quarter

/-- The nodes that have reported a sweep; some may have done so twice. -/
def doneIDs (st : GCState) : List NodeID := (st.sweepDone.map NodeStat.id).dedup

/-- The position of a node among the acked, as the loop of `poll` leaves it. -/
def posOf (id : NodeID) (acked : List NodeID) : ℕ :=
  acked.zipIdx.foldl (fun pos e => if e.1 = id then e.2 else pos) 0

/-- The wave of the node is released. -/
def Released (st : GCState) (id : NodeID) : Prop :=
  posOf id st.acked < st.sweepWave * quarterOf st.acked

instance (st : GCState) (id : NodeID) : Decidable (Released st id) :=
  inferInstanceAs (Decidable (_ < _))

/-- `observeSweep`: the write it tries, given the value that was read. -/
def observeSweep (sweepTimeout now : ℤ) (st : GCState) : Option Write :=
  let done := doneIDs st
  let released := min (st.sweepWave * quarterOf st.acked) st.acked.length
  let releasedDone := ((st.acked.take released).filter (· ∈ done)).length
  let timedOut := sweepTimeout < now - st.snapshotAt
  if st.acked.length ≤ done.length ∨ timedOut then some (.complete st.epoch)
  else if released ≤ releasedDone ∧ released < st.acked.length then some (.releaseWave st.epoch)
  else none

/-- How far a sweep is: before its report, waiting for it, or past it. -/
inductive Stage
  | begun
  | reporting
  | returned
  deriving DecidableEq, Repr

/-- A sweep a node has started; `noMark` once it has found no mark to sweep by. -/
structure Run where
  epoch : ℕ
  noMark : Bool := false
  stage : Stage := .begun
  deriving DecidableEq, Repr

/-- What a node keeps in memory. `due` are the epochs of the polls that found a sweep to start and
have not started it. -/
structure Node where
  swept : List ℕ := []
  sweeping : Bool := false
  due : List ℕ := []
  runs : List Run := []
  deriving DecidableEq, Repr

/-- `poll` in phase `sweep`: whether a node that reads `st` has a sweep to start. -/
def Node.finds (node : Node) (id : NodeID) (st : GCState) : Bool :=
  if st.phase ≠ .sweep then false
  else if id ∉ st.acked then false
  else if st.epoch ∈ node.swept ∨ node.sweeping ∨ id ∈ doneIDs st then false
  else Released st id

/-- The gc register and its past, the nodes, and the reports that are on their way. -/
structure State where
  reg : GCState := {}
  past : List GCState := [{}]
  nodes : NodeID → Node := fun _ => {}
  sent : List Write := []

/-- `CASGC`: a write that fails leaves the register as it was. -/
def State.cas (s : State) (w : Write) : State :=
  match w.apply s.reg with
  | .ok st => { s with reg := st, past := st :: s.past }
  | .error _ => s

/-- The state after one node's memory has changed. -/
def State.setNode (s : State) (id : NodeID) (node : Node) : State :=
  { s with nodes := Function.update s.nodes id node }

/-- The writes that neither a sweep nor `observeSweep` makes. -/
def outside : Write → Bool
  | .reportNoMark .. | .reportSweep .. | .complete _ | .releaseWave _ => false
  | _ => true

/-- What may happen: a write to the register, a poll, a step of a sweep, a restart. -/
inductive Action
  | write (w : Write)
  | observe (st : GCState) (now : ℤ)
  | poll (id : NodeID) (st : GCState)
  | start (id : NodeID) (epoch : ℕ)
  | noMark (id : NodeID) (i : ℕ)
  | swept (id : NodeID) (i : ℕ) (stat : NodeStat)
  | land (i : ℕ)
  | returned (id : NodeID) (i : ℕ)
  | finish (id : NodeID) (i : ℕ)
  | restart (id : NodeID)

/-- One step of the cluster in its sweeps. -/
def step (sweepTimeout : ℤ) (s : State) : Action → Option State
  | .write w => if outside w then some (s.cas w) else none
  | .observe st now =>
    if st ∈ s.past then
      match observeSweep sweepTimeout now st with
      | some w => some (s.cas w)
      | none => some s
    else none
  | .poll id st =>
    if st ∈ s.past then
      let node := s.nodes id
      if node.finds id st then some (s.setNode id { node with due := st.epoch :: node.due })
      else some s
    else none
  | .start id epoch =>
    let node := s.nodes id
    if epoch ∈ node.due then
      some (s.setNode id { node with
        due := node.due.erase epoch
        sweeping := true
        runs := { epoch := epoch } :: node.runs })
    else none
  | .noMark id i =>
    let node := s.nodes id
    match node.runs[i]? with
    | none => none
    | some r =>
      if r.stage = .begun then
        some { s.setNode id { node with
            runs := node.runs.set i { r with noMark := true, stage := .reporting } } with
          sent := .reportNoMark id r.epoch :: s.sent }
      else none
  | .swept id i stat =>
    let node := s.nodes id
    match node.runs[i]? with
    | none => none
    | some r =>
      if r.stage = .begun then
        some { s.setNode id { node with
            swept := r.epoch :: node.swept
            runs := node.runs.set i { r with stage := .reporting } } with
          sent := .reportSweep { stat with id := id } r.epoch :: s.sent }
      else none
  | .land i =>
    match s.sent[i]? with
    | none => none
    | some w => some ({ s with sent := s.sent.eraseIdx i }.cas w)
  | .returned id i =>
    let node := s.nodes id
    match node.runs[i]? with
    | none => none
    | some r =>
      if r.stage = .reporting then
        some (s.setNode id { node with
          swept := if r.noMark then r.epoch :: node.swept else node.swept
          runs := node.runs.set i { r with stage := .returned } })
      else none
  | .finish id i =>
    let node := s.nodes id
    match node.runs[i]? with
    | none => none
    | some r =>
      if r.stage = .returned then
        some (s.setNode id { node with sweeping := false, runs := node.runs.eraseIdx i })
      else none
  | .restart id => some (s.setNode id {})

end Dstore.Sweeps
