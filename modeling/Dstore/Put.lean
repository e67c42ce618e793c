import Dstore.Lib.Machine

/-!
# Puts

A client's put streams records to an owner of their keys. The handler collects them into chunks that
a worker stores, and hands each to one forward for every other owner of its key. A forward dials,
writes and waits for a reply on its own, and may die at any point. At the end the handler waits for
the worker and every forward, and answers who holds each key and which copies failed.

`stored`, `broken` and `replies` record what happened; the code does not read them.
-/

namespace Dstore.Put

variable {κ ι : Type} [DecidableEq κ] [DecidableEq ι]

/-- The reply of a put on the cluster ALPN, with the entries whose key is a key. -/
structure Reply (κ : Type) where
  holders : List κ
  rejected : List (κ × String) := []
  deriving DecidableEq, Repr

namespace Reply

/-- Whether the owner has the key. -/
def confirmed (m : Reply κ) (k : κ) : Bool := k ∈ m.holders

/-- The reason given for a key, the last where there are several. -/
def rej (m : Reply κ) (k : κ) : String :=
  ((m.rejected.filter (·.1 = k)).getLast?.map (·.2)).getD ""

/-- What is reported for a key that was not confirmed. -/
def reason (m : Reply κ) (k : κ) : String :=
  if m.rej k ≠ "" then "rejected: " ++ m.rej k else "unconfirmed"

end Reply

/-- How far a forward is. -/
inductive Phase
  | dialing
  | requesting
  | sending
  | awaiting
  | done
  deriving DecidableEq, Repr

/-- A forward to one owner: the keys given to it, those in its channel, and how it ended. -/
structure Forwarder (κ : Type) where
  keys : List κ := []
  ch : List κ := []
  closed : Bool := false
  dead : Bool := false
  err : Option String := none
  res : Option (Reply κ) := none
  phase : Phase := .dialing
  deriving DecidableEq, Repr

/-- What happens to a forward. -/
inductive Event (κ : Type)
  | dial (err : Option String)
  | request (err : Option String)
  | record
  | cut (err : String)
  | drained
  | answer (m : Except String (Reply κ))
  | timeout
  | cancelled (err : String)

/-- The capacity of a forward's channel. -/
def chCap : ℕ := 64

namespace Forwarder

/-- The handler gives a forward up; what it still has is not sent. -/
def giveUp (f : Forwarder κ) (err : String) : Forwarder κ :=
  if f.dead then f else { f with dead := true, err := some err }

/-- A forward ends with an error; the first one counts. -/
def fail (f : Forwarder κ) (err : String) : Forwarder κ :=
  { f with err := some (f.err.getD err), phase := .done }

/-- One step of `run`. -/
def run (f : Forwarder κ) : Event κ → Option (Forwarder κ)
  | .dial err =>
    if f.phase = .dialing then
      match err with
      | some e => some (f.fail e)
      | none => some { f with phase := if f.dead then .done else .requesting }
    else none
  | .request err =>
    if f.phase = .requesting then
      match err with
      | some e => some (f.fail e)
      | none => some { f with phase := .sending }
    else none
  | .record =>
    if f.phase = .sending ∧ f.ch ≠ [] then some { f with ch := f.ch.tail } else none
  | .cut e => if f.phase = .sending then some (f.fail e) else none
  | .drained =>
    if f.phase = .sending ∧ f.ch = [] ∧ f.closed then some { f with phase := .awaiting } else none
  | .answer (.error e) => if f.phase = .awaiting then some (f.fail e) else none
  | .answer (.ok m) =>
    if f.phase = .awaiting then some { f with res := some m, phase := .done } else none
  | .timeout => if f.phase = .awaiting then some (f.fail "timeout") else none
  | .cancelled e => if f.phase = .awaiting then some (f.fail e) else none

/-- The keys the owner confirmed and, for each key it did not, the reason. -/
def wait (f : Forwarder κ) : List κ × List (κ × String) :=
  match f.err, f.res with
  | some e, _ => ([], f.keys.dedup.map (·, e))
  -- An error that is neither a reply's nor a deadline is reported so.
  | none, none => ([], f.keys.dedup.map (·, "unreachable"))
  | none, some m =>
    (f.keys.filter m.confirmed,
      (f.keys.dedup.filter (!m.confirmed ·)).map fun k => (k, m.reason k))

/-- The keys whose local record is to be checked: the owner could not verify what it was sent. -/
def suspects (f : Forwarder κ) : List κ :=
  match f.err, f.res with
  | none, some m =>
    f.keys.filter fun k => !m.confirmed k && "verify".toList.isPrefixOf (m.rej k).toList
  | _, _ => []

end Forwarder

/-- The node that handles the put. -/
structure Node (κ ι : Type) where
  self : ι
  writeSet : κ → List ι
  putChunkBytes : ℕ

/-- The bytes of one put. -/
def maxPutBatch : ℕ := 64 * 2 ^ 20

namespace Node

/-- Whether the node is to hold the key itself. -/
def inWriteSet (n : Node κ ι) (k : κ) : Bool := n.self ∈ n.writeSet k

/-- The other owners of a key. -/
def others (n : Node κ ι) (k : κ) : List ι := (n.writeSet k).filter (· ≠ n.self)

end Node

/-- A record of the stream; without a key where it does not verify. -/
structure Rec (κ : Type) where
  key : Option κ
  size : ℕ
  deriving DecidableEq, Repr

/-- The records of a stream; `none` is a pack that cannot be read on. -/
abbrev Stream (κ : Type) := List (Option (Rec κ))

/-- What the store does for one chunk. -/
structure Disk (κ : Type) where
  has : κ → Except String Bool
  corrupt : κ → Bool
  write : Except String Unit
  pin : Except String Unit

/-- Part the keys of a chunk into those the store has and those to be written. -/
def lookUp (d : Disk κ) : List κ → Except String (List κ × List κ)
  | [] => .ok ([], [])
  | k :: keys => do
    let has ← d.has k
    let (hits, fresh) ← lookUp d keys
    return if has && !d.corrupt k then (k :: hits, fresh) else (hits, k :: fresh)

/-- Stores a chunk: what is new is written, and what is there is pinned. -/
def storeBatch (d : Disk κ) (keys : List κ) : Except String (List κ × List κ) := do
  let (hits, fresh) ← lookUp d keys
  if !fresh.isEmpty then d.write
  if !hits.isEmpty then d.pin
  return (hits, fresh)

/-- The owners holding each key, and each copy that failed with its reason. -/
abbrev Holders (κ ι : Type) := κ → List ι
/-- The copies that failed. -/
abbrev Failures (κ ι : Type) := List (κ × ι × String)

/-- Where the handler is. -/
inductive Pc (κ ι : Type)
  | receiving (rest : Stream κ)
  | flushing (k : κ) (rest : Stream κ)
  | sending (k : κ) (todo : List ι) (rest : Stream κ)
  | waiting (k : κ) (o : ι) (todo : List ι) (rest : Stream κ)
  | finishing
  | closing
  | storing
  | collecting (holders : Holders κ ι) (failed : Failures κ ι) (todo : List ι)
  | returned (res : Except String (Holders κ ι × Failures κ ι))
  | aborted

/-- The handler, the worker with its channel, and the forwards. -/
structure State (κ ι : Type) where
  pc : Pc κ ι
  total : ℕ := 0
  seen : List κ := []
  keys : List κ := []
  chunk : List κ := []
  chunkBytes : ℕ := 0
  storeCh : List (List κ) := []
  closed : Bool := false
  batch : Option (List κ) := none
  err : Option String := none
  fwd : ι → Option (Forwarder κ) := fun _ => none
  peers : List ι := []
  queue : List (ι × κ) := []
  verify : List κ := []
  stored : List κ := []
  broken : Bool := false
  replies : List (ι × Reply κ) := []

/-- A step of the handler, one of the ways out of its wait, a step of the worker or of a forward, or
the end of one is collected. -/
inductive Action (κ ι : Type)
  | handler
  | push
  | skip
  | timeout
  | take
  | store (d : Disk κ)
  | forward (o : ι) (e : Event κ)
  | collect (o : ι)

namespace State

def start (stream : Stream κ) : State κ ι := { pc := .receiving stream }

/-- `add`, up to its forwards. -/
def add (n : Node κ ι) (s : State κ ι) (k : κ) (size : ℕ) (rest : Stream κ) : State κ ι :=
  if s.err.isSome then { s with pc := .aborted }
  else
    { s with
      keys := s.keys ++ [k]
      chunk := s.chunk ++ [k]
      chunkBytes := s.chunkBytes + size
      pc :=
        if n.putChunkBytes ≤ s.chunkBytes + size then .flushing k rest
        else .sending k (n.others k) rest }

/-- `handlePut`'s loop, on the next item of the stream. -/
def receive (n : Node κ ι) (s : State κ ι) : Stream κ → State κ ι
  | [] => { s with pc := .finishing }
  | none :: _ => { s with pc := .aborted }
  | some r :: rest =>
    if maxPutBatch < s.total + r.size then { s with pc := .aborted }
    else
      let s := { s with total := s.total + r.size }
      match r.key with
      | none => { s with pc := .receiving rest }
      | some k =>
        if !n.inWriteSet k || k ∈ s.seen then { s with pc := .receiving rest }
        else { s with seen := k :: s.seen }.add n k r.size rest

/-- Hands the chunk to the worker, if its channel has room. -/
def flushChunk (s : State κ ι) (next : Pc κ ι) : Option (State κ ι) :=
  if s.chunk = [] then some { s with pc := next }
  else if s.storeCh = [] then
    some { s with storeCh := [s.chunk], chunk := [], chunkBytes := 0, pc := next }
  else none

/-- The forward to an owner, made where there is none. -/
def forwarder (s : State κ ι) (o : ι) : Forwarder κ := (s.fwd o).getD {}

def setForwarder (s : State κ ι) (o : ι) (f : Forwarder κ) : State κ ι :=
  { s with
    fwd := Function.update s.fwd o (some f)
    peers := if o ∈ s.peers then s.peers else s.peers ++ [o] }

/-- `send`, up to its wait for the channel. -/
def send (s : State κ ι) (k : κ) (o : ι) (todo : List ι) (rest : Stream κ) : State κ ι :=
  let f := s.forwarder o
  let s := s.setForwarder o { f with keys := f.keys ++ [k] }
  { s with pc := if f.dead then .sending k todo rest else .waiting k o todo rest }

/-- A forward has ended: what it confirmed is held, what it did not is queued. -/
def collect (s : State κ ι) (o : ι) (f : Forwarder κ) (holders : Holders κ ι)
    (failed : Failures κ ι) (todo : List ι) : State κ ι :=
  let (ok, errs) := f.wait
  { s with
    queue := s.queue ++ errs.map fun e => (o, e.1)
    verify := s.verify ++ f.suspects
    pc := .collecting (fun k => if k ∈ ok then holders k ++ [o] else holders k)
      (failed ++ errs.map fun e => (e.1, o, e.2)) (todo.erase o) }

/-- The handler's next step, where it does not wait for another goroutine. -/
def handle (n : Node κ ι) (s : State κ ι) : Option (State κ ι) :=
  match s.pc with
  | .receiving stream => some (s.receive n stream)
  | .flushing k rest => s.flushChunk (.sending k (n.others k) rest)
  | .sending _ [] rest => some { s with pc := .receiving rest }
  | .sending k (o :: todo) rest => some (s.send k o todo rest)
  | .waiting .. => none
  | .finishing => s.flushChunk .closing
  | .closing =>
    some { s with
      closed := true
      fwd := fun o => (s.fwd o).map ({ · with closed := true })
      pc := .storing }
  | .storing =>
    if s.storeCh = [] ∧ s.batch = none then
      some { s with
        pc := .collecting (fun k => if k ∈ s.keys then [n.self] else []) [] s.peers }
    else none
  | .collecting holders failed [] =>
    some { s with
      pc := .returned (match s.err with | some e => .error e | none => .ok (holders, failed)) }
  | .collecting _ _ (_ :: _) => none
  | .returned _ => none
  | .aborted => none

/-- The three ways out of `send`'s wait. -/
def push (s : State κ ι) : Option (State κ ι) :=
  match s.pc with
  | .waiting k o todo rest =>
    let f := s.forwarder o
    if f.ch.length < chCap then
      some { s.setForwarder o { f with ch := f.ch ++ [k] } with pc := .sending k todo rest }
    else none
  | _ => none

/-- The forward has ended. -/
def skip (s : State κ ι) : Option (State κ ι) :=
  match s.pc with
  | .waiting k o todo rest =>
    if (s.forwarder o).phase = .done then some { s with pc := .sending k todo rest } else none
  | _ => none

/-- The wait took too long; the forward is given up. -/
def timeout (s : State κ ι) : Option (State κ ι) :=
  match s.pc with
  | .waiting k o todo rest =>
    some { s.setForwarder o ((s.forwarder o).giveUp "timeout") with pc := .sending k todo rest }
  | _ => none

/-- The worker takes a chunk, and drops it after an error. -/
def take (s : State κ ι) : Option (State κ ι) :=
  match s.batch, s.storeCh with
  | none, c :: cs =>
    some { s with storeCh := cs, batch := if s.err.isSome then none else some c }
  | _, _ => none

/-- The worker stores its chunk. After an error nothing more is stored. -/
def store (s : State κ ι) (d : Disk κ) : Option (State κ ι) :=
  match s.batch with
  | none => none
  | some c =>
    match storeBatch d c with
    | .ok (hits, fresh) =>
      some { s with batch := none, stored := s.stored ++ hits ++ fresh }
    | .error e => some { s with batch := none, err := some (s.err.getD e), broken := true }

/-- A forward takes a step. -/
def forward (s : State κ ι) (o : ι) (e : Event κ) : Option (State κ ι) :=
  match s.fwd o with
  | none => none
  | some f =>
    match f.run e with
    | none => none
    | some f' =>
      some { s.setForwarder o f' with
        replies := match e with
          | .answer (.ok m) => (o, m) :: s.replies
          | _ => s.replies }

end State

/-- One step of the handler, the worker or a forward. -/
def step (n : Node κ ι) (s : State κ ι) : Action κ ι → Option (State κ ι)
  | .handler => s.handle n
  | .push => s.push
  | .skip => s.skip
  | .timeout => s.timeout
  | .take => s.take
  | .store d => s.store d
  | .forward o e => s.forward o e
  | .collect o =>
    match s.pc, s.fwd o with
    | .collecting holders failed todo, some f =>
      if o ∈ todo ∧ f.phase = .done then some (s.collect o f holders failed todo) else none
    | _, _ => none

end Dstore.Put
