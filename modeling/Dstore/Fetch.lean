import Dstore.Lib.Machine

/-!
# Fetching records

A fetcher's loop routes each key handed to it to a node of the key's read order, collects batches
and gives them to workers; a worker sends a get, passes the records of the reply on and gives the
keys it did not get back to the loop, which routes each to the next node. Past the end of the read
order the view is refreshed, once for the whole fetch, and the key starts over; after that it is
reported as found nowhere. A key remembers only a position in its read order, which is worked out
anew at every attempt.

`handed`, `sent` and a key's `via` record what happened; the code does not read them. Results are
taken as they are put in.
-/

namespace Dstore.Fetch

variable {κ ι : Type} [DecidableEq κ] [DecidableEq ι]

/-- How a node is reached. -/
structure Path where
  direct : Bool
  rtt : ℕ
  deriving DecidableEq, Repr

/-- What the client knows: the ranking of its view's read order, and the state of the nodes. Times
are in milliseconds. -/
structure Client (κ ι : Type) where
  rank : κ → List ι
  replicas : ℕ
  now : ℕ := 0
  failures : ι → ℕ := fun _ => 0
  backoff : ι → Option ℕ := fun _ => none
  unreach : List ι := []
  path : ι → Option Path := fun _ => none

/-- Round trips that count as equally good. -/
def rttClass (rtt : ℕ) : ℕ :=
  if rtt < 5 then 0 else if rtt < 25 then 1 else if rtt < 100 then 2 else 3

namespace Client

variable (c : Client κ ι)

/-- A node that did not answer: it is not preferred for a while, which doubles with each failure. -/
def handleErr (id : ι) : Client κ ι :=
  let n := c.failures id + 1
  { c with
    failures := Function.update c.failures id n
    backoff := Function.update c.backoff id (some (c.now + min 60000 (5000 * 2 ^ min (n - 1) 4))) }

/-- A node that answered a whole reply. -/
def ok (id : ι) : Client κ ι :=
  { c with
    failures := Function.update c.failures id 0
    backoff := Function.update c.backoff id none
    unreach := c.unreach.filter (· ≠ id) }

/-- What a node's failures put it back by. -/
def penalty (id : ι) : ℕ :=
  (if (c.backoff id).any (c.now < ·) then 2 else 0) + if id ∈ c.unreach then 1 else 0

/-- Nodes reached directly come first. -/
def relay (id : ι) : ℕ := if (c.path id).any (!·.direct) then 1 else 0

/-- The class of the round trip, 0 where the path is not known. -/
def rtt (id : ι) : ℕ := ((c.path id).map fun p => rttClass p.rtt).getD 0

/-- The order in which owners are asked. -/
def prefers (a b : ι) : Prop :=
  c.penalty a < c.penalty b ∨ c.penalty a = c.penalty b ∧
    (c.relay a < c.relay b ∨ c.relay a = c.relay b ∧ c.rtt a ≤ c.rtt b)

instance : DecidableRel c.prefers := fun _ _ => inferInstanceAs (Decidable (_ ∨ _ ∧ _))

/-- Sorts nodes by preference, stably. -/
def preferred (ids : List ι) : List ι := ids.insertionSort c.prefers

/-- The order in which the nodes of a key are asked: the owners by preference, then the others as
ranked. -/
def readOrder (k : κ) : List ι :=
  let order := c.rank k
  if order.length ≤ c.replicas then c.preferred order
  else c.preferred (order.take c.replicas) ++ order.drop c.replicas

end Client

/-- A key with its position in the read order. -/
structure FetchKey (κ ι : Type) where
  key : κ
  attempt : ℕ := 0
  via : List ι := []
  deriving DecidableEq, Repr

/-- How many batches may be out, and how large records are taken to be. -/
structure Config (κ : Type) where
  jobs : ℕ
  estSize : κ → ℕ

/-- The keys of one get. -/
def getBatchKeys : ℕ := 2048

/-- The bytes one get asks for, by the estimates. -/
def getBatchBytes : ℕ := 8 * 2 ^ 20

/-- The keys waiting for each node, in the order they were routed. -/
abbrev Acc (κ ι : Type) := List (ι × FetchKey κ ι)

namespace Acc

/-- The keys waiting for a node. -/
def keys (acc : Acc κ ι) (id : ι) : List (FetchKey κ ι) := (acc.filter (·.1 = id)).map (·.2)

def bytes (cfg : Config κ) (acc : Acc κ ι) (id : ι) : ℕ :=
  ((acc.keys id).map fun fk => cfg.estSize fk.key).sum

/-- Whether the batch for a node need not wait for more. -/
def full (cfg : Config κ) (acc : Acc κ ι) (id : ι) : Bool :=
  getBatchKeys ≤ (acc.keys id).length || getBatchBytes ≤ acc.bytes cfg id

/-- The nodes a batch may be picked for: a full one, else one with the most keys. -/
def best (cfg : Config κ) (acc : Acc κ ι) (id : ι) : Bool :=
  acc.keys id ≠ [] && (acc.full cfg id || acc.all fun x =>
    !acc.full cfg x.1 && (acc.keys x.1).length ≤ (acc.keys id).length)

end Acc

/-- The head of the waiting keys that goes into one get. -/
def batch (cfg : Config κ) (n bytes : ℕ) : List (FetchKey κ ι) → List (FetchKey κ ι)
  | [] => []
  | fk :: keys =>
    if n < getBatchKeys ∧ (n = 0 ∨ bytes + cfg.estSize fk.key ≤ getBatchBytes) then
      fk :: batch cfg (n + 1) (bytes + cfg.estSize fk.key) keys
    else []

/-- Where a worker is with its batch: the records of a reply still to be read are `none` where
they do not verify. -/
inductive Phase (κ ι : Type)
  | opening
  | reading (recs : List (Option κ)) (whole : Bool)
  | returning (todo : List (FetchKey κ ι))
  deriving DecidableEq, Repr

/-- A batch with its worker: the node, the keys, and those it has got. -/
structure Job (κ ι : Type) where
  node : ι
  keys : List (FetchKey κ ι)
  got : List κ := []
  phase : Phase κ ι := .opening
  deriving DecidableEq, Repr

/-- What becomes of a get: it is not sent, is sent and refused, or is sent and answered with
records, the stream read to its end or not. -/
inductive Event (κ : Type)
  | dialFails
  | writeFails
  | refused (answered : Bool)
  | answer (recs : List (Option κ)) (whole : Bool)
  deriving DecidableEq, Repr

/-- Where the loop is. -/
inductive Pc (κ ι : Type)
  | taking
  | draining
  | dispatching
  | sending (job : Job κ ι)
  | selecting
  | returned
  | stopped
  deriving DecidableEq, Repr

/-- The fetcher: its loop, its channels, the batches that are out, and the results it has passed on.
-/
structure State (κ ι : Type) where
  client : Client κ ι
  input : List κ := []
  closed : Bool := false
  inOpen : Bool := true
  acc : Acc κ ι := []
  retry : List (FetchKey κ ι) := []
  running : List (Job κ ι) := []
  jobDone : ℕ := 0
  inflight : ℕ := 0
  refreshed : Bool := false
  out : List (κ × Bool) := []
  pc : Pc κ ι := .taking
  handed : List κ := []
  sent : List (ι × κ) := []

/-- The first four are the caller's and the client's, the next six the loop's, the last three
those of the worker with the `i`-th batch. A refresh of the view leads to the client named. -/
inductive Action (κ ι : Type)
  | add (k : κ)
  | finish
  | client (c : Client κ ι)
  | cancel
  | loop (c : Client κ ι)
  | pick (id : ι)
  | hand
  | selectIn (c : Client κ ι)
  | selectRetry (c : Client κ ι)
  | selectDone
  | get (i : ℕ) (e : Event κ)
  | read (i : ℕ)
  | giveBack (i : ℕ)

/-- The capacity of the channels. -/
def chanCap : ℕ := 1024

namespace State

/-- Nothing was handed in yet. -/
def start (c : Client κ ι) : State κ ι := { client := c }

/-- Puts a key with the node at its position, or reports it as found nowhere. -/
def place (s : State κ ι) (fk : FetchKey κ ι) (order : List ι) : State κ ι :=
  match order[fk.attempt]? with
  | none => { s with out := s.out ++ [(fk.key, false)] }
  | some node => { s with acc := s.acc ++ [(node, { fk with via := order })] }

/-- Whether the key is past its read order and the view was not refreshed yet. -/
def refreshes (s : State κ ι) (fk : FetchKey κ ι) : Bool :=
  (s.client.readOrder fk.key).length ≤ fk.attempt && !s.refreshed

/-- Routes a key; `c` is the client after a refresh. -/
def route (s : State κ ι) (fk : FetchKey κ ι) (c : Client κ ι) : State κ ι :=
  if s.refreshes fk then
    { s with refreshed := true, client := c }.place { fk with attempt := 0 } (c.readOrder fk.key)
  else s.place fk (s.client.readOrder fk.key)

/-- A step of the loop that waits for nothing. -/
def loop (cfg : Config κ) (s : State κ ι) (c : Client κ ι) : Option (State κ ι) :=
  match s.pc with
  | .taking =>
    if s.inOpen then
      match s.input with
      | k :: rest => some ({ s with input := rest }.route { key := k } c)
      | [] =>
        if s.closed then some { s with inOpen := false } else some { s with pc := .draining }
    else some { s with pc := .draining }
  | .draining =>
    match s.retry with
    | r :: rest => some ({ s with retry := rest }.route r c)
    | [] => some { s with pc := .dispatching }
  | .dispatching =>
    if s.inflight < cfg.jobs ∧ s.acc ≠ [] then none
    else if !s.inOpen && s.inflight = 0 && s.acc = [] then some { s with pc := .returned }
    else some { s with pc := .selecting }
  | _ => none

/-- The loop takes a batch for a node. -/
def pickBatch (cfg : Config κ) (s : State κ ι) (id : ι) : Option (State κ ι) :=
  if s.pc = .dispatching ∧ s.inflight < cfg.jobs ∧ s.acc.best cfg id = true then
    let keys := batch cfg 0 0 (s.acc.keys id)
    some { s with
      acc := s.acc.filter (·.1 ≠ id) ++ ((s.acc.keys id).drop keys.length).map (id, ·)
      inflight := s.inflight + 1
      pc := .sending { node := id, keys := keys } }
  else none

/-- The loop gives its batch to a worker. -/
def hand (cfg : Config κ) (s : State κ ι) : Option (State κ ι) :=
  match s.pc with
  | .sending job =>
    if s.running.length < cfg.jobs then
      some { s with running := s.running ++ [job], pc := .dispatching }
    else none
  | _ => none

/-- The loop waits for a key, the end of the keys, a key given back or a batch that is done. -/
def selectIn (s : State κ ι) (c : Client κ ι) : Option (State κ ι) :=
  if s.pc = .selecting ∧ s.inOpen = true then
    match s.input with
    | k :: rest => some ({ s with input := rest, pc := .taking }.route { key := k } c)
    | [] => if s.closed then some { s with inOpen := false, pc := .taking } else none
  else none

/-- The loop waits, and a key was given back. -/
def selectRetry (s : State κ ι) (c : Client κ ι) : Option (State κ ι) :=
  if s.pc = .selecting then
    match s.retry with
    | r :: rest => some ({ s with retry := rest, pc := .taking }.route r c)
    | [] => none
  else none

/-- The loop waits, and a batch is done. -/
def selectDone (s : State κ ι) : Option (State κ ι) :=
  if s.pc = .selecting ∧ 0 < s.jobDone then
    some { s with jobDone := s.jobDone - 1, inflight := s.inflight - 1, pc := .taking }
  else none

/-- A worker sends its get. -/
def get (s : State κ ι) (i : ℕ) (e : Event κ) : Option (State κ ι) :=
  match s.running[i]? with
  | none => none
  | some j =>
    if j.phase = .opening then
      let sent := s.sent ++ j.keys.map fun fk => (j.node, fk.key)
      let back := s.running.set i { j with phase := .returning j.keys }
      match e with
      | .dialFails => some { s with client := s.client.handleErr j.node, running := back }
      | .writeFails => some { s with running := back }
      | .refused answered =>
        some { s with
          client := if answered then s.client else s.client.handleErr j.node
          running := back
          sent := sent }
      | .answer recs whole =>
        some { s with
          running := s.running.set i { j with phase := .reading recs whole }
          sent := sent }
    else none

/-- A worker reads a record of the reply, or its end. -/
def read (s : State κ ι) (i : ℕ) : Option (State κ ι) :=
  match s.running[i]? with
  | none => none
  | some j =>
    match j.phase with
    | .reading (some k :: recs) whole =>
      some { s with
        running := s.running.set i { j with got := k :: j.got, phase := .reading recs whole }
        out := s.out ++ [(k, true)] }
    | .reading (none :: recs) whole =>
      some { s with running := s.running.set i { j with phase := .reading recs whole } }
    | .reading [] whole =>
      some { s with
        client := if whole then s.client.ok j.node else s.client
        running := s.running.set i
          { j with phase := .returning (j.keys.filter fun fk => fk.key ∉ j.got) } }
    | _ => none

/-- A worker gives a key back that it did not get, or is done. -/
def giveBack (s : State κ ι) (i : ℕ) : Option (State κ ι) :=
  match s.running[i]? with
  | none => none
  | some j =>
    match j.phase with
    | .returning (fk :: todo) =>
      if s.retry.length < chanCap then
        some { s with
          retry := s.retry ++ [{ fk with attempt := fk.attempt + 1 }]
          running := s.running.set i { j with phase := .returning todo } }
      else none
    | .returning [] => some { s with running := s.running.eraseIdx i, jobDone := s.jobDone + 1 }
    | _ => none

end State

/-- One step of the caller, the client, the loop or a worker. -/
def step (cfg : Config κ) (s : State κ ι) : Action κ ι → Option (State κ ι)
  | .add k =>
    if s.closed = false ∧ s.input.length < chanCap then
      some { s with input := s.input ++ [k], handed := s.handed ++ [k] }
    else none
  | .finish => if s.closed = false then some { s with closed := true } else none
  | .client c => some { s with client := c }
  | .cancel => if s.pc = .returned then none else some { s with pc := .stopped }
  | .loop c => s.loop cfg c
  | .pick id => s.pickBatch cfg id
  | .hand => s.hand cfg
  | .selectIn c => s.selectIn c
  | .selectRetry c => s.selectRetry c
  | .selectDone => s.selectDone
  | .get i e => if s.pc = .stopped then none else s.get i e
  | .read i => if s.pc = .stopped then none else s.read i
  | .giveBack i => if s.pc = .stopped then none else s.giveBack i

end Dstore.Fetch
