import Dstore.Cluster
import Dstore.Lib.Machine

/-!
# Transitions

A transition is proposed, acknowledged by the members, frozen with those that acknowledged as its
participants, and committed once all of them have reported done. A participant runs its pass a step
at a time from the view it has, which may be behind the register, and reports with a CAS that checks
the transition's id. What a pass does to the packs is not part of this machine; `finished` records
the passes that were finished, which the code does not read.

The view register is one cell with its past. That past is a chain of CASes (`held_run`), and so are
the views that the catalog commits (`Proofs.Epochs`).
-/

namespace Dstore.Cluster.Transition

/-- A participant's progress through the pass of a transition, as far as it is reported. -/
structure Xfer where
  id : ℕ
  round : ℕ
  primary : Bool := false
  finished : Bool := false
  deriving DecidableEq, Repr

/-- The pass is the one of this transition and round. -/
def Xfer.isFor (x : Xfer) (p : Pending) : Bool := x.id = p.id ∧ x.round = p.round

/-- The two passes are of one transition and round. -/
def Xfer.same (x y : Xfer) : Bool := y.id = x.id ∧ y.round = x.round

section save

variable {X : Type} (f : X → Xfer)

/-- `saveXfer` on the pass in memory, which is the one saved where the two are of one transition. -/
def keepXfer (x : X) (mem : Option X) : Option X := mem.map fun y => if (f x).same (f y) then x else y

/-- `saveXfer` on the database. -/
def putXfer (x : X) (disk : List X) : List X := x :: disk.filter fun y => !(f x).same (f y)

end save

/-- Where a node's pass is: it adopts first, rereads what it has, and then walks. -/
inductive Pass
  | idle
  | adopting (v : View)
  | rereading (p : Pending)
  | walking (p : Pending) (x : Xfer)
  deriving DecidableEq, Repr

/-- A report on its way to the view register: it names the transition by its id. -/
structure Report where
  node : NodeID
  id : ℕ
  primary : Bool
  pass : Xfer
  deriving DecidableEq, Repr

/-- The CAS of a report. -/
def Report.change (r : Report) : Change :=
  if r.primary then .primaryDone r.node r.id else .done r.node r.id

/-- The view register, and each node's pass in memory and on disk. -/
structure State extends Register where
  mem : NodeID → Option Xfer
  disk : NodeID → List Xfer
  pass : NodeID → Pass
  reports : List Report
  finished : List (NodeID × ℕ × ℕ)

/-- What may happen: a change of the view, the coordinator's commit, a step of a participant. -/
inductive Action
  | change (c : Change)
  | drive (v : View) (now : ℤ)
  | onEpoch (n : NodeID) (v : View)
  | committed (n : NodeID) (v : View)
  | look (n : NodeID) (v : View)
  | adopt (n : NodeID)
  | reread (n : NodeID)
  | rest (n : NodeID)
  | primary (n : NodeID)
  | finish (n : NodeID)
  | report (r : Report)
  | restart (n : NodeID)
  deriving DecidableEq, Repr

namespace State

/-- The adoption step: the pass of this id and round as it was saved, or a new one. -/
def adoptTransition (s : State) (n : NodeID) (v : View) (p : Pending) : State :=
  if (v.node n).isNone then s
  else
    match (s.disk n).find? fun x => x.isFor p with
    | some x => { s with mem := Function.update s.mem n (some x) }
    | none =>
      let x : Xfer := { id := p.id, round := p.round }
      { s with
        mem := Function.update s.mem n (some x)
        disk := Function.update s.disk n (putXfer id x (s.disk n)) }

/-- `saveXfer`: progress goes to memory and to disk. -/
def saveXfer (s : State) (n : NodeID) (p : Pending) (x : Xfer) : State :=
  { s with
    mem := Function.update s.mem n (keepXfer id x (s.mem n))
    disk := Function.update s.disk n (putXfer id x (s.disk n))
    pass := Function.update s.pass n (.walking p x) }

end State

/-- The changes that come with arguments of their own: all but the participants' reports and the
commit, whose arguments a pass or an older view supplies. -/
def free : Change → Bool
  | .done _ _ | .primaryDone _ _ | .commit _ _ _ => false
  | _ => true

/-- One step of a cluster in transition. -/
def step (s : State) : Action → Option State
  | .change c => if free c then (s.cas c).map ({ s with toRegister := · }) else none
  | .drive v now =>
    match v.pending with
    | some p =>
      if v ∈ s.past ∧ p.frozen ∧ ∀ n ∈ p.participants, n ∈ p.done then
        (s.cas (.commit p.id p.round now)).map ({ s with toRegister := · })
      else none
    | none => none
  | .onEpoch n v =>
    match v.pending with
    | some p => if v ∈ s.past then some (s.adoptTransition n v p) else none
    | none => none
  | .committed n v =>
    if v ∈ s.past ∧ v.pending.isNone then
      some { s with
        mem := Function.update s.mem n none
        disk := Function.update s.disk n [] }
    else none
  | .look n v =>
    match v.pending, s.pass n with
    | some p, .idle =>
      if v ∈ s.past ∧ p.frozen ∧ n ∈ p.participants then
        match (s.mem n).filter fun x => x.isFor p with
        | none => some { s with pass := Function.update s.pass n (.adopting v) }
        | some x =>
          if x.finished ∨ n ∈ p.done then none
          else some { s with pass := Function.update s.pass n (.walking p x) }
      else none
    | _, _ => none
  | .adopt n =>
    match s.pass n with
    | .adopting v =>
      match v.pending with
      | some p =>
        let s := s.adoptTransition n v p
        some { s with pass := Function.update s.pass n (.rereading p) }
      | none => none
    | _ => none
  | .reread n =>
    match s.pass n, s.mem n with
    | .rereading p, some x =>
      if x.finished ∨ n ∈ p.done then some { s with pass := Function.update s.pass n .idle }
      else some { s with pass := Function.update s.pass n (.walking p x) }
    | .rereading _, none => some { s with pass := Function.update s.pass n .idle }
    | _, _ => none
  | .rest n =>
    match s.pass n with
    | .walking _ _ => some { s with pass := Function.update s.pass n .idle }
    | _ => none
  | .primary n =>
    match s.pass n with
    | .walking p x =>
      if x.primary then none
      else
        let x := { x with primary := true }
        let s := s.saveXfer n p x
        some { s with reports := ⟨n, p.id, true, x⟩ :: s.reports }
    | _ => none
  | .finish n =>
    match s.pass n with
    | .walking p x =>
      if !x.primary then none
      else
        let x := { x with finished := true }
        let s := s.saveXfer n p x
        some { s with
          pass := Function.update s.pass n .idle
          reports := ⟨n, p.id, false, x⟩ :: s.reports
          finished := (n, x.id, x.round) :: s.finished }
    | _ => none
  | .report r =>
    if r ∈ s.reports then (s.cas r.change).map ({ s with toRegister := · }) else none
  | .restart n => some { s with
      mem := Function.update s.mem n none
      pass := Function.update s.pass n .idle }

/-- A cluster that has just been given its view. -/
def start (v : View) : State where
  view := v
  past := [v]
  mem := fun _ => none
  disk := fun _ => []
  pass := fun _ => .idle
  reports := []
  finished := []

end Dstore.Cluster.Transition
