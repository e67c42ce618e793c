import Dstore.Fetch

/-!
# Pulling a tree

`PullTree` hands the keys of a tree to a fetcher as it discovers them: the keys the local store
lacks are queued and counted in `pending`; a record that comes back is written, the keys below it
are looked at, and `pending` is counted down. The loop ends when it is zero. What the store says of
a key, and what a record has below it, comes with the actions; `queued` is not read by the code.
-/

namespace Dstore.Pull

open Fetch (Config Client)

variable {κ ι : Type} [DecidableEq κ] [DecidableEq ι]

/-- What the local store says of a key: it has the tree below it, or the key and these below it. -/
inductive Lookup (κ : Type)
  | error
  | complete
  | kids (l : List κ)
  | lacking
  deriving DecidableEq, Repr

/-- `wanting` has the keys that `want` is still to be called for, behind a record or not. -/
inductive Pc (κ : Type)
  | wanting (todo : List κ) (received : Bool)
  | looping
  | finished
  | failed
  deriving DecidableEq, Repr

/-- The pull and its fetcher: the keys looked at, those still to be handed over, and how many
outcomes it waits for. -/
structure State (κ ι : Type) where
  fetch : Fetch.State κ ι
  seen : List κ := []
  queue : List κ := []
  pending : ℕ := 0
  read : ℕ := 0
  pc : Pc κ
  queued : List κ := []

/-- The fetcher takes a step, or the pull does. -/
inductive Action (κ ι : Type)
  | fetch (a : Fetch.Action κ ι)
  | want (o : Lookup κ)
  | send
  | receive (kids : Option (List κ))
  | finish
  | fail

/-- The keys an outcome was read for. -/
def State.received (s : State κ ι) : List κ := (s.fetch.out.take s.read).map Prod.fst

/-- `want`, for the next key to be looked at. -/
def State.want (s : State κ ι) (o : Lookup κ) : Option (State κ ι) :=
  match s.pc with
  | .wanting [] received =>
    some { s with pending := if received then s.pending - 1 else s.pending, pc := .looping }
  | .wanting (k :: todo) received =>
    if k ∈ s.seen then some { s with pc := .wanting todo received }
    else
      let s := { s with seen := k :: s.seen }
      match o with
      | .error => some { s with pc := .failed }
      | .complete => some { s with pc := .wanting todo received }
      | .kids l => some { s with pc := .wanting (l ++ todo) received }
      | .lacking => some { s with
          queue := s.queue ++ [k]
          pending := s.pending + 1
          pc := .wanting todo received
          queued := s.queued ++ [k] }
  | _ => none

/-- The loop takes an outcome, or finds the results closed; `kids` is `none` where the record cannot
be written or read. -/
def State.receive (s : State κ ι) (kids : Option (List κ)) : Option (State κ ι) :=
  match s.fetch.out[s.read]?, kids with
  | some (_, true), some l => some { s with read := s.read + 1, pc := .wanting l true }
  | some _, _ => some { s with read := s.read + 1, pc := .failed }
  | none, _ => if s.fetch.pc = .returned then some { s with pc := .failed } else none

/-- One step. The pull waits for outcomes only while some are to come. -/
def step (cfg : Config κ) (s : State κ ι) : Action κ ι → Option (State κ ι)
  | .fetch (.add _) | .fetch .finish => none
  | .fetch a => (Fetch.step cfg s.fetch a).map fun f => { s with fetch := f }
  | .want o => s.want o
  | .send =>
    match s.queue with
    | k :: rest =>
      if s.pc = .looping ∧ 0 < s.pending then
        (Fetch.step cfg s.fetch (.add k)).map fun f => { s with fetch := f, queue := rest }
      else none
    | [] => none
  | .receive kids => if s.pc = .looping ∧ 0 < s.pending then s.receive kids else none
  | .finish =>
    if s.pc = .looping ∧ s.pending = 0 then
      (Fetch.step cfg s.fetch .finish).map fun f => { s with fetch := f, pc := .finished }
    else none
  | .fail => some { s with pc := .failed }

/-- Only the root is wanted. -/
def start (c : Client κ ι) (root : κ) : State κ ι :=
  { fetch := .start c, pc := .wanting [root] false }

end Dstore.Pull
