import Dstore.Cluster
import Dstore.Lib.Machine

/-!
# Joining with a token

A join request is admitted by whoever holds the maintenance lease, in separate commits: the token's
register is read, the token is looked up in a view the node has, the new voter is committed unless
the node opted out, then the entry that carries the token, and the register is cleared. Requests
with one token may run at once, and each may be given up at any point. `admitted` records the ids
added to the view for a request with the token; the code does not read it.

The view register is one cell with its past, a chain of CASes, as in `Transition`.
-/

namespace Dstore.Cluster.Join

/-- How far a request is. -/
inductive Phase
  | waiting
  | checked
  | voted
  | joined
  | ended
  deriving DecidableEq, Repr

/-- The view register, whether the token's register has it, and the requests. -/
structure State extends Register where
  token : Bool
  next : ℕ
  reqs : ℕ → Option (JoinRequest × Phase)
  admitted : List NodeID

/-- A request arrives or takes its next step, the token is cleared, or someone else changes the
view. The views named are those the deciding node has. -/
inductive Action
  | arrive (r : JoinRequest)
  | check (i : ℕ) (v : View)
  | vote (i : ℕ) (v : View)
  | propose (i : ℕ) (now : ℤ)
  | delete (i : ℕ)
  | giveUp (i : ℕ)
  | clear
  | change (c : Change)
  deriving DecidableEq, Repr

namespace State

def goto (s : State) (i : ℕ) (r : JoinRequest) (ph : Phase) : State :=
  { s with reqs := Function.update s.reqs i (some (r, ph)) }

/-- Records that an id was added. -/
def enter (s : State) (id : NodeID) : State := { s with admitted := id :: s.admitted }

end State

/-- What `addVoter` commits for `id`, from the view it has: the voter, or out of a single voter
the second node's deferral and then all three at once. -/
def voteChange (v : View) (id : NodeID) : Change :=
  if v.voters.length = 1 then
    if v.deferredVoters = [] then .deferVoter id
    else .addVotersFromSingle (v.deferredVoters ++ [id])
  else .addVoter id

/-- Whether a change adds a member for the token. -/
def isJoin (token : Bytes) : Change → Bool
  | .join r _ => r.tokenID = token
  | _ => false

/-- One commit, or one look at the register or at a view. -/
def step (token : Bytes) (s : State) : Action → Option State
  | .arrive r =>
    if s.token ∧ r.tokenID = token then
      some ({ s with next := s.next + 1 }.goto s.next r .waiting)
    else none
  | .check i v =>
    match s.reqs i with
    | some (r, .waiting) =>
      if v ∈ s.past ∧ (v.node r.id).isNone ∧ ¬ tokenUsed v token ∧ v.pending.isNone ∧
          v.voterSync ≠ .pending then some (s.goto i r .checked)
      else none
    | _ => none
  | .vote i v =>
    match s.reqs i with
    | some (r, .checked) =>
      if v ∈ s.past ∧ ¬ r.noVote ∧ ¬ v.isVoter r.id ∧ v.voterSync ≠ .pending then
        (s.cas (voteChange v r.id)).map fun g =>
          ({ s with toRegister := g }.goto i r .voted).enter r.id
      else none
    | _ => none
  | .propose i now =>
    match s.reqs i with
    | some (r, ph) =>
      if ph = .voted ∨ ph = .checked ∧ r.noVote then
        (s.cas (.join r now)).map fun g =>
          ({ s with toRegister := g }.goto i r .joined).enter r.id
      else none
    | none => none
  | .delete i =>
    match s.reqs i with
    | some (r, .joined) => some ({ s with token := false }.goto i r .ended)
    | _ => none
  | .giveUp i =>
    match s.reqs i with
    | some (r, _) => some (s.goto i r .ended)
    | none => none
  | .clear => some { s with token := false }
  | .change c =>
    if isJoin token c then none else (s.cas c).map ({ s with toRegister := · })

/-- A fresh token, and no requests. -/
def start (v : View) : State where
  view := v
  past := [v]
  token := true
  next := 0
  reqs := fun _ => none
  admitted := []

end Dstore.Cluster.Join
