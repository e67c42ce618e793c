import Dstore.Cluster
import Dstore.Lib.Machine

/-!
# Weight ramps

A node that joins with a large weight enters at an eighth of it, with a ramp entry in the view, and
the coordinator raises the weight by one transition after the other.
-/

namespace Dstore.Cluster

/-- The fractions of the target, as divisors. -/
def rampSteps : List ℕ := [8, 4, 2, 1]

/-- The next step above `cur` towards `target`: the loop runs over the steps from the last. -/
def nextRampWeight (cur target : ℕ) : ℕ :=
  ((rampSteps.reverse.map (target / ·)).find? (cur < ·)).getD target

/-- The change `nextRamp` commits, for the first ramp of the view. -/
def nextRamp (v : View) (now : ℤ) : Option Change :=
  match v.ramps with
  | [] => none
  | r :: _ =>
    match v.node r.node with
    | none => some (.rampDone r.node)
    | some nd =>
      if r.target ≤ nd.weight then some (.rampDone r.node)
      else some (.ramp r.node (nextRampWeight nd.weight r.target) now)

namespace Ramping

/-- Whether a change leaves the weight of `id` and its ramp entry alone, but for a commit of the
set that is pending. -/
def quiet (id : NodeID) : Change → Bool
  | .nodeChange (.zone _) _ _ => true
  | .nodeChange _ i _ => i ≠ id
  | .join r _ => r.id ≠ id
  | .ramp _ _ _ | .rampDone _ => false
  | _ => true

/-- The coordinator comes to the ramps, or another change is committed. -/
inductive Action
  | tick (now : ℤ)
  | other (c : Change)
  deriving DecidableEq, Repr

/-- The coordinator turns to the ramps when nothing else is to be driven. -/
def step (id : NodeID) (v : View) : Action → Option View
  | .tick now =>
    if v.voterSync ≠ .pending ∧ v.pending = none ∧ v.removeVoters = [] then
      (nextRamp v now).bind fun c => (casView c v).toOption
    else none
  | .other c => if quiet id c then (casView c v).toOption else none

end Ramping

end Dstore.Cluster
