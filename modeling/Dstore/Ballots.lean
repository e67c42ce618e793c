import Dstore.Ballot
import Dstore.Lib.Durable
import Dstore.Lib.Machine

/-!
# A node's ballot counters

A node hands out proposer counters from a block that it reserves by a mark in its meta database:
`NextBallot` takes the next counter, or a new block behind the mark; `BumpBallot` starts a block
behind a given counter. Both hold the lock for the whole call. A read of the mark that fails is
taken for a mark of 0. A crash loses the block and the calls; the database keeps every acknowledged
write, and of the others what it may.
-/

namespace Dstore.Ballots

open Durable

/-- How many counters one mark reserves. -/
def ballotBlock : ℕ := 1000

/-- The mark in the database, and the block in memory: the next counter, and where it ends. -/
structure Node where
  mark : Cell ℕ := { value := 0 }
  ballotNext : ℕ := 0
  ballotMax : ℕ := 0
  deriving DecidableEq, Repr

namespace Node

/-- Whether the next counter needs a new block. -/
def usedUp (n : Node) : Bool := n.ballotNext = 0 ∨ n.ballotMax ≤ n.ballotNext

/-- `NextBallot`; `ok` says whether a read of the mark succeeds, `w` what becomes of a write. -/
def nextBallot (n : Node) (ok : Bool) (w : Outcome) : Node × Option ℕ :=
  if n.usedUp then
    let cur := (n.mark.get ok).getD 0
    let next := (cur + ballotBlock) % 2 ^ 64
    match n.mark.set next w with
    | (mark, false) => ({ n with mark }, none)
    | (mark, true) =>
      let b := (cur + 1) % 2 ^ 64
      ({ mark, ballotNext := (b + 1) % 2 ^ 64, ballotMax := next }, some b)
  else ({ n with ballotNext := (n.ballotNext + 1) % 2 ^ 64 }, some n.ballotNext)

/-- `BumpBallot`: a block behind `c`, unless the next counter is above it already. -/
def bumpBallot (n : Node) (c : ℕ) (w : Outcome) : Node × Bool :=
  if c < n.ballotNext then (n, true)
  else
    let next := (c + ballotBlock) % 2 ^ 64
    match n.mark.set next w with
    | (mark, false) => ({ n with mark }, false)
    | (mark, true) => ({ mark, ballotNext := (c + 1) % 2 ^ 64, ballotMax := next }, true)

end Node

/-- Where a call of `ballotAbove` is: about to ask for a ballot, about to bump, or done. -/
inductive Stage
  | next
  | bump
  | returned (nb : Ballot)
  | failed
  deriving DecidableEq, Repr

/-- A call of `ballotAbove`, with how often it has called `NextBallot`. -/
structure Call where
  above : Ballot
  stage : Stage := .next
  asked : ℕ := 0
  deriving DecidableEq, Repr

/-- What `ballotAbove` does with a ballot it was handed. -/
def Call.got (c : Call) (nb : Ballot) : Stage :=
  if nb.compare c.above = .gt then .returned nb
  else if nb.counter ≤ c.above.counter then .bump
  else .next

/-- A node with its calls; `handed` records the counters handed out, which the code does not keep.
-/
structure State where
  self : NodeID
  node : Node := {}
  calls : ℕ → Option Call := fun _ => none
  handed : List ℕ := []

/-- A call begins, one goes on, or the node crashes and comes back. -/
inductive Action
  | ballotAbove (i : ℕ) (b : Ballot)
  | advance (i : ℕ) (ok : Bool) (w : Outcome)
  | restart (mark : ℕ)
  deriving DecidableEq, Repr

def State.put (s : State) (i : ℕ) (c : Call) : State :=
  { s with calls := Function.update s.calls i (some c) }

/-- A call begins, goes on by one `NextBallot` or `BumpBallot`, or the node comes back after a crash
and finds `mark`. -/
def step (s : State) : Action → Option State
  | .ballotAbove i b =>
    match s.calls i with
    | some _ => none
    | none => some (s.put i { above := b })
  | .advance i ok w =>
    match s.calls i with
    | none => none
    | some c =>
      match c.stage with
      | .next =>
        match s.node.nextBallot ok w with
        | (node, none) =>
          some ({ s with node }.put i { c with stage := .failed, asked := c.asked + 1 })
        | (node, some k) =>
          some ({ s with node, handed := k :: s.handed }.put i
            { c with stage := c.got ⟨k, s.self⟩, asked := c.asked + 1 })
      | .bump =>
        match s.node.bumpBallot c.above.counter w with
        | (node, ok) => some ({ s with node }.put i { c with stage := if ok then .next else .failed })
      | _ => none
  | .restart v =>
    (s.node.mark.restart v).map fun mark => { s with node := { mark }, calls := fun _ => none }

end Dstore.Ballots
