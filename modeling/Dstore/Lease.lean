import Dstore.Catalog

/-!
# The maintenance lease

`AcquireLease` samples the clock and proposes a lease that ends a time `ttl` later, unless the lease
it finds is another node's and has not ended at the sampled time; `ReleaseLease` proposes an empty
lease where it finds the node's own. Any number of calls of any node run at once, and `Settle`,
which a voter sync runs on every register.
-/

namespace Dstore.Leases

/-- The name of the lease register. -/
def regLease : Bytes :=
  [108, 101, 97, 115, 101, 47, 109, 97, 105, 110, 116, 101, 110, 97, 110, 99, 101]

/-- Who holds the lease, and until when by its own clock. -/
structure Lease where
  holder : Option NodeID := none
  expires : ℤ := 0
  deriving DecidableEq, Repr

/-- What the change function of `AcquireLease` captures. -/
structure Vars where
  cur : Lease := {}
  held : Bool := false
  deriving DecidableEq, Repr

/-- Why a change function refuses. -/
inductive Err
  | alreadyDone
  deriving DecidableEq, Repr

variable (C : Codec Lease)

/-- The lease in a row; one that does not decode counts as none. -/
def found (value : Bytes) (hasValue : Bool) : Lease :=
  if hasValue then (C.dec value).getD {} else {}

/-- The change function of `AcquireLease`, which compares with a time sampled before the rounds. -/
def acquireFn (self : NodeID) (now ttl : ℤ) : ChangeFunc Vars Err := fun vars row _ =>
  let cur := found C row.value row.hasValue
  if cur.holder ≠ none ∧ cur.holder ≠ some self ∧ now < cur.expires then
    ({ vars with cur }, .error .alreadyDone)
  else
    let cur : Lease := ⟨some self, now + ttl⟩
    ({ cur, held := true }, .ok (C.enc cur, true))

/-- The change function of `ReleaseLease`. -/
def releaseFn (self : NodeID) : ChangeFunc Vars Err := fun vars row _ =>
  let cur := found C row.value row.hasValue
  if cur.holder ≠ some self then (vars, .error .alreadyDone) else (vars, .ok (C.enc {}, true))

/-- What `AcquireLease` returns, once its proposal has: whether the node holds the lease, the
current lease, and an error. -/
def acquireLease (c : Dstore.Call Vars Err) : Option (Bool × Lease × Option (ProposeErr Err)) :=
  match c.phase with
  | .done _ none => some (c.env.held, c.env.cur, none)
  | .done _ (some (.fn .alreadyDone)) => some (false, c.env.cur, none)
  | .done _ (some err) => some (false, c.env.cur, some err)
  | _ => none

/-- A call, with the time `AcquireLease` sampled. -/
inductive Kind
  | acquire (node : NodeID) (now ttl : ℤ)
  | release (node : NodeID)
  | settle (node : NodeID)
  deriving DecidableEq, Repr

namespace Kind

/-- The node that calls. -/
def node : Kind → NodeID
  | .acquire node _ _ | .release node | .settle node => node

/-- What the call proposes. -/
def fn : Kind → ChangeFunc Vars Err
  | .acquire node now ttl => acquireFn C node now ttl
  | .release node => releaseFn C node
  | .settle _ => identity

end Kind

/-- One clock, the system, and what each call is. -/
structure State where
  clock : ℤ
  sys : Dstore.State Vars Err
  kinds : ℕ → Option Kind := fun _ => none

/-- Time passes, a call begins, or the system takes a step. -/
inductive Action
  | tick (d : ℕ)
  | acquire (i : ℕ) (node : NodeID) (ttl : ℤ)
  | release (i : ℕ) (node : NodeID)
  | settle (i : ℕ) (node : NodeID)
  | net (a : Dstore.Action Vars Err)

/-- What goes on by itself: the rounds of the calls, and the network. -/
def isNet : Dstore.Action Vars Err → Bool
  | .propose .. | .tryPurge .. | .wipe _ => false
  | _ => true

/-- Begins a call. -/
def State.call (s : State) (i : ℕ) (k : Kind) : Option State :=
  (Dstore.step s.sys (.propose i k.node regLease (k.fn C) 0 {})).map fun sys =>
    { s with sys, kinds := Function.update s.kinds i (some k) }

/-- One step of the clock, a node or the system. -/
def step (s : State) : Action → Option State
  | .tick d => some { s with clock := s.clock + d }
  | .acquire i node ttl => s.call C i (.acquire node s.clock ttl)
  | .release i node => s.call C i (.release node)
  | .settle i node => s.call C i (.settle node)
  | .net a => if isNet a then (Dstore.step s.sys a).map fun sys => { s with sys } else none

end Dstore.Leases
