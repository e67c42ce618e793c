import Dstore.Acceptor
import Dstore.Lib.Machine

/-!
# Adopting views

`adopt` compares a view with the one in memory, and where it is newer writes it to the meta
database, then to memory, and installs it in the acceptor. Each is a step by itself, and any number
of calls run at once.
-/

namespace Dstore.Adopt

/-- How far a call of `adopt` is. -/
inductive Stage
  | called
  | passed
  | persisted
  | set
  | returned
  deriving DecidableEq, Repr

/-- A call in flight. -/
structure Thread where
  view : View
  stage : Stage := .called
  deriving DecidableEq, Repr

/-- The view in memory and in the meta database, the node's acceptor, and the calls. -/
structure State where
  mem : Option View
  disk : Option View
  acc : Acceptor
  threads : List Thread := []

/-- Whether `adopt` returns at once: the view is no newer, or of another cluster. -/
def refuses (cur : Option View) (v : View) : Bool :=
  match cur with
  | none => false
  | some cur => cur.covers v ||
      (0 < cur.clusterID.length && 0 < v.clusterID.length && cur.clusterID ≠ v.clusterID)

/-- A call begins, or one takes its next step. -/
inductive Action
  | adopt (v : View)
  | advance (i : ℕ) (ok : Bool)
  deriving DecidableEq, Repr

def State.put (s : State) (i : ℕ) (t : Thread) (st : Stage) : State :=
  { s with threads := s.threads.set i { t with stage := st } }

/-- The next step of a call; `ok` says whether the write to the database succeeds. -/
def State.advance (s : State) (i : ℕ) (t : Thread) (ok : Bool) : Option State :=
  match t.stage with
  | .called => some (s.put i t (if refuses s.mem t.view then .returned else .passed))
  | .passed =>
    some (if ok then { s.put i t .persisted with disk := some t.view } else s.put i t .returned)
  | .persisted => some { s.put i t .set with mem := some t.view }
  | .set => some { s.put i t .returned with acc := s.acc.install t.view }
  | .returned => none

/-- Calls may overtake one another at every step. -/
def step (s : State) : Action → Option State
  | .adopt v => some { s with threads := s.threads ++ [{ view := v }] }
  | .advance i ok =>
    match s.threads[i]? with
    | none => none
    | some t => s.advance i t ok

end Dstore.Adopt
