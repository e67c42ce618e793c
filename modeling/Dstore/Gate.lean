import Dstore.Proposer
import Dstore.Lib.Machine

/-!
# Concurrent calls of one acceptor

`Handle` takes the acceptor's lock to look at the installed view, again to see whether the acceptor
is retired or amnesiac, again for the row, and once more to stamp the reply. `Install` holds it from
its comparison to the end; a scan takes no lock and may see the rows after that write and before the
view is in place. A direct `Install` is a call whose reply nobody reads.
-/

namespace Dstore

namespace Acceptor

/-- Whether the view makes the acceptor give up its state. -/
def retires (a : Acceptor) (v : View) : Bool := !v.isVoter a.self && !a.retired && a.marker.isSome

/-- The first half of `Install`: the database has the view, and no rows if the acceptor retires. -/
def writeView (a : Acceptor) (v : View) : Acceptor :=
  if a.retires v then { a with rows := .empty } else a

/-- The second half of `Install`: the view is in place. -/
def putView (a : Acceptor) (v : View) : Acceptor :=
  if a.retires v then { a with installed := some v, retired := true, floor := ⊥ }
  else { a with installed := some v }

/-- The view check of `handle`: what a message of another epoch is answered. -/
def checkView (a : Acceptor) (m : Msg) : Option Reply :=
  match a.installed with
  | none => some (.err .needView "no view installed" none)
  | some inst =>
    match inst.compare m.incarnation m.epoch with
    | .gt => some (.err .staleView "" (some inst))
    | .lt => some (.err .needView "" none)
    | .eq => none

/-- The check of the acceptor's own state, by operation. -/
def checkState (a : Acceptor) : Req → Option Reply
  | .accept _ _ _ _ _ => if a.retired then some (.err .retired "acceptor retired" none) else none
  | .prepare _ _ | .read _ | .scan _ _ _ => a.refuseIfForgetful
  | _ => none

/-- What an operation does once it has passed both checks. -/
def rowOp (a : Acceptor) (now : ℤ) : Req → Acceptor × Reply
  | .prepare reg b =>
    if b.isZero then (a, .err .badRequest "bad ballot" none)
    else if b ≤ a.promisedOn reg then (a, .conflict (a.promisedOn reg))
    else
      let r := a.row reg
      ({ a with rows := a.rows.set reg { r with promised := b } },
        .promise r.accepted r.value r.hasValue)
  | .accept reg b value hasValue notAfter =>
    if b.isZero then (a, .err .badRequest "bad ballot" none)
    else if notAfter ≠ 0 ∧ notAfter < now then (a, .err .expired "accept past not_after" none)
    else if b < a.promisedOn reg then (a, .conflict (a.promisedOn reg))
    else if b < (a.row reg).accepted then (a, .conflict (a.row reg).accepted)
    else ({ a with rows := a.rows.set reg ⟨b, b, value, hasValue⟩ }, .accepted)
  | .read reg =>
    let r := a.row reg
    (a, .readReply r.accepted r.promised r.value r.hasValue)
  | .scan pre after limit =>
    let limit := if limit ≤ 0 ∨ 100000 < limit then 100000 else limit.toNat
    let lower := if after = [] then pre else after ++ [0]
    let upper := if pre = [] then [255] else pre ++ [255, 255, 255, 255]
    let p := page limit (a.rows.scan lower upper) 0 0
    (a, .scanReply p.1 p.2 ((p.1.getLast?.map ScanRow.reg).getD []))
  | _ => (a, .err .badRequest "unknown catalog op" none)

end Acceptor

namespace Gate

/-- Which critical section of `Handle` comes next. -/
inductive Stage
  | entered
  | gated
  | cleared
  | installing (v : View)
  | replied (r : Reply)
  | answered (ans : Answer)
  deriving DecidableEq, Repr

/-- A call of `Handle` in flight. -/
structure Call where
  msg : Msg
  stage : Stage := .entered
  deriving DecidableEq, Repr

/-- The acceptor, the calls, and the view of the `Install` that holds the lock between its two
halves. -/
structure State where
  acc : Acceptor
  calls : ℕ → Option Call := fun _ => none
  lock : Option View := none

/-- A call begins, or takes its next critical section. -/
inductive Action
  | handle (i : ℕ) (m : Msg)
  | advance (i : ℕ) (now : ℤ)
  deriving DecidableEq, Repr

namespace State

def put (s : State) (i : ℕ) (c : Call) (st : Stage) : State :=
  { s with calls := Function.update s.calls i (some { c with stage := st }) }

/-- What a call of another epoch, or one that is refused, comes to, and what it goes on to
otherwise. -/
def check (s : State) (i : ℕ) (c : Call) (refusal : Option Reply) (next : Stage) : State :=
  match refusal with
  | some r => s.put i c (.replied r)
  | none => s.put i c next

/-- A call changes the acceptor, and has its reply. -/
def act (s : State) (i : ℕ) (c : Call) (p : Acceptor × Reply) : State :=
  { s.put i c (.replied p.2) with acc := p.1 }

/-- The first critical section. -/
def enter (s : State) (i : ℕ) (c : Call) : State :=
  match c.msg.req with
  | .install v =>
    if (s.acc.installed.map (·.covers v)).getD false then s.put i c (.replied .installed)
    else { s.put i c (.installing v) with acc := s.acc.writeView v, lock := some v }
  | .marker since => s.act i c (s.acc.setMarker since, .ok)
  | .seed rows => s.act i c (s.acc.seed rows)
  | .purge reg b => s.act i c (s.acc.purge reg b)
  | _ => s.check i c (s.acc.checkView c.msg) .gated

/-- The view in the database, which an `Install` writes before it sets the other. -/
def stored (s : State) : Option View := s.lock.or s.acc.installed

end State

/-- Whether a step needs the lock: only the iterator of a scan does not. -/
def Call.locks (c : Call) : Bool :=
  match c.stage, c.msg.req with
  | .cleared, .scan _ _ _ => false
  | .installing _, _ => false
  | _, _ => true

/-- One critical section, or one step of an `Install` that holds the lock already. -/
def step (s : State) : Action → Option State
  | .handle i m =>
    match s.calls i with
    | some _ => none
    | none => some { s with calls := Function.update s.calls i (some { msg := m }) }
  | .advance i now =>
    match s.calls i with
    | none => none
    | some c =>
      if c.locks ∧ s.lock.isSome then none
      else
        match c.stage with
        | .entered => some (s.enter i c)
        | .gated => some (s.check i c (s.acc.checkState c.msg.req) .cleared)
        | .cleared => some (s.act i c (s.acc.rowOp now c.msg.req))
        | .installing v =>
          some { s.put i c (.replied .installed) with acc := s.acc.putView v, lock := none }
        | .replied r => some (s.put i c (.answered ⟨s.acc.coords.1, s.acc.coords.2, r⟩))
        | .answered _ => none

end Gate

end Dstore
