import Dstore.Proposer
import Dstore.Lib.Machine

/-!
# The catalog as a system

`Propose` calls, reads and purges run against the acceptors over a network that may lose, delay,
repeat and reorder messages: what was sent stays in `sent`, and an answer in `log` may be heard late
or never. An acceptor may lose its database and come back under the same identity. `proposals` and
`log` record what happened; the code does not read them.
-/

namespace Dstore

variable {σ ε : Type}

/-- A message that an acceptor has handled, with its answer. -/
structure Event where
  node : NodeID
  msg : Msg
  ans : Answer
  deriving DecidableEq, Repr

/-- An accept round that a call has begun, with the row it was computed on. -/
structure Proposal where
  call : ℕ
  view : View
  reg : Bytes
  ballot : Ballot
  cur : Row
  value : Bytes
  hasValue : Bool
  isChange : Bool
  deriving DecidableEq, Repr

/-- The acceptors, the views in use, the calls, and what was sent, answered and proposed; `lost` are
the acceptors that have lost their database. -/
structure State (σ ε : Type) where
  acc : NodeID → Acceptor
  views : List View
  counter : NodeID → ℕ
  calls : ℕ → Option (Call σ ε)
  sent : List (NodeID × Msg)
  log : List Event
  proposals : List Proposal
  lost : List NodeID

/-- What may happen: a step of a call, a message sent outside any call, a delivery, the loss of a
database. -/
inductive Action (σ ε : Type)
  | propose (i : ℕ) (node : NodeID) (reg : Bytes) (fn : ChangeFunc σ ε) (notAfter : ℤ) (env : σ)
  | attempt (i : ℕ) (v : View) (b : Ballot)
  | stop (i : ℕ) (e : ProposeErr ε)
  | hear (i : ℕ) (w : NodeID) (st : Stage) (ans : Answer)
  | fail (i : ℕ) (w : NodeID) (st : Stage)
  | close (i : ℕ)
  | wake (i : ℕ)
  | install (w : NodeID) (v : View)
  | read (w : NodeID) (v : View) (reg : Bytes)
  | scan (w : NodeID) (v : View) (pre after : Bytes) (limit : ℤ)
  | tryPurge (v cur pv : View) (reg : Bytes) (b : Ballot) (replies : List (NodeID × Answer))
  | deliver (w : NodeID) (m : Msg) (now : ℤ)
  | wipe (w : NodeID)

/-- What a call has on its way in the round it is in. -/
def Call.outbox (c : Call σ ε) : List (NodeID × Msg) :=
  match c.phase with
  | .round v b pending r => pending.map fun p => (p.1, c.msg v b r p.2)
  | _ => []

/-- The proposal of a call that is in an accept round. -/
def Call.proposal (i : ℕ) (c : Call σ ε) : Option Proposal :=
  match c.phase with
  | .round v b _ (.accept cur goal _) =>
    some ⟨i, v, c.reg, b, cur, (goal.value cur).1, (goal.value cur).2, goal.isChange⟩
  | _ => none

/-- The row of a read that was answered at the epoch of `v`. -/
def readRow (v : View) (ans : Answer) : Option Row :=
  match classify v (some ans) with
  | .ok (.readReply accepted _ value hasValue) => some ⟨accepted, value, hasValue⟩
  | _ => none

/-- The rows of a quorum read, by acceptor. -/
def readAll (v : View) (replies : List (NodeID × Answer)) : List (NodeID × Row) :=
  replies.filterMap fun p => (readRow v p.2).map fun row => (p.1, row)

/-- Whether `TryPurge` sends the purge: every voter answered, and holds `b`. -/
def purgeable (cur : View) (b : Ballot) (rows : List (NodeID × Row)) : Bool :=
  cur.voters.length ≤ rows.length ∧ ∀ p ∈ rows, p.2.accepted = b

namespace State

/-- The state after call `i` has become `c`: its messages are sent, and its proposal is recorded. -/
def update (s : State σ ε) (i : ℕ) (c : Call σ ε) : State σ ε :=
  { s with
    calls := Function.update s.calls i (some c)
    sent := c.outbox ++ s.sent
    proposals := (c.proposal i).toList ++ s.proposals }

/-- The state after a message has been sent. -/
def send (s : State σ ε) (w : NodeID) (m : Msg) : State σ ε :=
  { s with sent := (w, m) :: s.sent }

/-- The state after an acceptor has handled a message. -/
def deliver (s : State σ ε) (w : NodeID) (m : Msg) (now : ℤ) : State σ ε :=
  let (a, ans) := (s.acc w).handle now m
  { s with acc := Function.update s.acc w a, log := ⟨w, m, ans⟩ :: s.log }

end State

/-- Where a call may end without a reply, and with which error. -/
def stoppable (e : ProposeErr ε) : Phase ε → Bool
  | .ready =>
    match e with
    | .ctx | .noView | .noBallot => true
    | _ => false
  | .waiting =>
    match e with
    | .ctx => true
    | _ => false
  | _ => false

/-- One step of the catalog. -/
def step (s : State σ ε) : Action σ ε → Option (State σ ε)
  | .propose i node reg fn notAfter env =>
    match s.calls i with
    | some _ => none
    | none =>
      some (s.update i { node := node, reg := reg, fn := fn, notAfter := notAfter, env := env })
  | .attempt i v b =>
    match s.calls i with
    | some c =>
      match c.phase with
      | .ready =>
        if v ∈ s.views ∧ b.proposer = c.node ∧ s.counter c.node < b.counter ∧ c.last < b then
          some ({ s with counter := Function.update s.counter c.node b.counter }.update i
            (c.broadcast v b (.prepare {})))
        else none
      | _ => none
    | none => none
  | .stop i e =>
    match s.calls i with
    | some c =>
      if stoppable e c.phase then some (s.update i { c with phase := .done {} (some e) }) else none
    | none => none
  | .hear i w st ans =>
    match s.calls i with
    | some c =>
      match c.phase with
      | .round v b pending r =>
        if (w, st) ∈ pending ∧ ⟨w, c.msg v b r st, ans⟩ ∈ s.log then
          some (s.update i (c.hear v b pending r w st ans))
        else none
      | _ => none
    | none => none
  | .fail i w st =>
    match s.calls i with
    | some c =>
      match c.phase with
      | .round v b pending r =>
        if (w, st) ∈ pending then
          some (s.update i (c.reply v b (pending.erase (w, st)) none r))
        else none
      | _ => none
    | none => none
  | .close i =>
    match s.calls i with
    | some c =>
      match c.phase with
      | .round v b [] r => some (s.update i (c.close v b r))
      | _ => none
    | none => none
  | .wake i =>
    match s.calls i with
    | some c =>
      match c.phase with
      | .waiting => some (s.update i { c with phase := .ready })
      | _ => none
    | none => none
  | .install w v =>
    if v ∈ s.views then some (s.send w ⟨v.incarnation, v.epoch, .install v⟩) else none
  | .read w v reg =>
    if v ∈ s.views then some (s.send w ⟨v.incarnation, v.epoch, .read reg⟩) else none
  | .scan w v pre after limit =>
    if v ∈ s.views then some (s.send w ⟨v.incarnation, v.epoch, .scan pre after limit⟩) else none
  | .tryPurge v cur pv reg b replies =>
    if v ∈ s.views ∧ cur ∈ s.views ∧ pv ∈ s.views ∧ (replies.map Prod.fst).Nodup ∧
        (∀ p ∈ replies, p.1 ∈ v.voterIDs ∧
          ⟨p.1, ⟨v.incarnation, v.epoch, .read reg⟩, p.2⟩ ∈ s.log) ∧
        purgeable cur b (readAll v replies) then
      some { s with
        sent := (pv.voterIDs.map fun id => (id, ⟨pv.incarnation, pv.epoch, .purge reg b⟩)) ++
          s.sent }
    else none
  | .deliver w m now => if (w, m) ∈ s.sent then some (s.deliver w m now) else none
  | .wipe w =>
    some { s with acc := Function.update s.acc w { self := w }, lost := w :: s.lost }

/-- Before any call: no row, and every installed view a known one. -/
structure Initial (s : State σ ε) : Prop where
  self : ∀ w, (s.acc w).self = w
  rows : ∀ w reg, (s.acc w).rows.get reg = none
  installed : ∀ w v, (s.acc w).installed = some v → v ∈ s.views
  calls : ∀ i, s.calls i = none
  sent : s.sent = []
  log : s.log = []
  proposals : s.proposals = []
  lost : s.lost = []

/-- The voter set is fixed: every view in use has these voters, no two with one id. -/
structure Fixed (vs : List Voter) (s : State σ ε) : Prop where
  voters : ∀ v ∈ s.views, v.voters = vs
  nodup : (vs.map Voter.id).Nodup

end Dstore
