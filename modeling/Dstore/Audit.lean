import Dstore.Ballot

/-!
# The background audit of one node

Outside a transition the reconciler looks, every few seconds, for a pack that needs a visit, offers
its records to the nodes that are to hold them and stamps it with what came of it. A `Schedule` is
what the calls meet, without end; the packs and the view are fixed.
-/

namespace Dstore.Audit

variable {κ : Type}

/-- One node's packs and configuration, at a fixed view. -/
structure Params (κ : Type) where
  self : NodeID
  packs : List ℕ
  incarnation : ℕ
  placementEpoch : ℕ
  writeSet : κ → List NodeID
  auditInterval : ℤ
  firstAudit : ℤ
  auditInterval_nonneg : 0 ≤ auditInterval

/-- What the last visit left with a pack: the placement it was for, whether all of it is replicated,
and when it was checked and scrubbed. -/
structure PackStamp where
  inc : ℕ
  forID : ℕ
  replicated : Bool
  checked : ℤ
  verified : ℤ
  deriving DecidableEq, Repr

/-- What a visit meets: the pack's index, if it can be read, the keys that are corrupt or proved
dead, the keys that a target does not confirm of those it is offered, and the clock when the age of
the last scrub is asked for, after a scrub and at the end. -/
structure Visit (κ : Type) where
  index : Option (List κ)
  skip : κ → Bool
  failed : NodeID → List κ → List κ
  asked : ℤ
  scrubbed : ℤ
  done : ℤ

section reconcilePack

variable (P : Params κ) (v : Visit κ)

/-- The keys to be offered, by the other nodes of their write sets. -/
def byTarget (keys : List κ) : List (NodeID × List κ) :=
  let offered := keys.filter fun k => !v.skip k
  let targets := (offered.flatMap fun k => (P.writeSet k).filter (· ≠ P.self)).dedup
  targets.map fun t => (t, offered.filter fun k => t ∈ P.writeSet k)

/-- Whether every target confirmed all it was offered. -/
def replicated (keys : List κ) : Bool :=
  (byTarget P v keys).all fun e => (v.failed e.1 e.2).isEmpty

/-- A visit. One whose index cannot be read leaves the stamp as it was. -/
def reconcilePack (id : ℕ) (stamps : ℕ → Option PackStamp) : ℕ → Option PackStamp :=
  match v.index with
  | none => stamps
  | some keys =>
    let verified := match stamps id with
      | none => v.scrubbed
      | some st => if P.auditInterval < v.asked - st.verified then v.scrubbed else st.verified
    Function.update stamps id
      (some ⟨P.incarnation, P.placementEpoch, replicated P v keys, v.done, verified⟩)

end reconcilePack

/-- A pack that needs a visit, and how urgently. -/
structure Cand where
  id : ℕ
  prio : ℕ
  deriving DecidableEq, Repr

/-- The order in which packs are taken. -/
def Cand.less (a b : Cand) : Bool := if a.prio ≠ b.prio then a.prio < b.prio else a.id < b.id

section backgroundStep

variable (P : Params κ) (now : ℤ)

/-- Why a pack needs a visit: it has no stamp, or one of another placement, or was not replicated,
or is due for an audit. -/
def prio : Option PackStamp → Option ℕ
  | none => some 0
  | some st =>
    if st.inc ≠ P.incarnation ∨ st.forID ≠ P.placementEpoch then some 1
    else if !st.replicated then some 2
    else if P.auditInterval < now - st.checked then some 3
    else none

/-- The packs that need a visit. -/
def cands (stamps : ℕ → Option PackStamp) : List Cand :=
  P.packs.filterMap fun id => (prio P now (stamps id)).map (Cand.mk id)

/-- Whether the pack was found unreplicated so lately that it is not tried again. -/
def backsOff : Option PackStamp → Bool
  | none => false
  | some st => !st.replicated ∧ now - st.checked < P.firstAudit

/-- The pack a call visits: always the first in order, or none where that one backs off. -/
def backgroundStep (stamps : ℕ → Option PackStamp) : Option ℕ :=
  match ((cands P now stamps).mergeSort fun a b => !b.less a).head? with
  | none => none
  | some c => if backsOff P now (stamps c.id) then none else some c.id

end backgroundStep

/-- A call of `backgroundStep`: when it is made, and what a visit would meet. -/
structure Call (κ : Type) where
  now : ℤ
  visit : Visit κ

/-- The calls without end, from some stamps on, at times without bound. -/
structure Schedule (κ : Type) where
  init : ℕ → Option PackStamp
  call : ℕ → Call κ
  within : ∀ i, (call i).now ≤ (call i).visit.done
  next : ∀ i, (call i).visit.done ≤ (call (i + 1)).now
  unbounded : ∀ t, ∃ i, t ≤ (call i).now

namespace Schedule

variable (P : Params κ) (S : Schedule κ)

/-- The stamps before each call. -/
def stamps : ℕ → ℕ → Option PackStamp
  | 0 => S.init
  | i + 1 =>
    match backgroundStep P (S.call i).now (stamps i) with
    | none => stamps i
    | some id => reconcilePack P (S.call i).visit id (stamps i)

/-- Call `i` visits the pack. -/
def Visits (i id : ℕ) : Prop := backgroundStep P (S.call i).now (S.stamps P i) = some id

/-- Why a pack needs a visit at call `i`. -/
def prioAt (i id : ℕ) : Option ℕ := prio P (S.call i).now (S.stamps P i id)

/-- The pack needs a visit at call `i`. -/
def Needs (i id : ℕ) : Prop := id ∈ P.packs ∧ (S.prioAt P i id).isSome

/-- At call `i` pack `q` is taken before pack `p`. -/
def Precedes (i q p : ℕ) : Prop :=
  q ∈ P.packs ∧ ∃ a ∈ S.prioAt P i q, ∃ b ∈ S.prioAt P i p, Cand.less ⟨q, a⟩ ⟨p, b⟩

/-- A visit at call `i` reads the index, and every target confirms what it is offered. -/
def Succeeds (i : ℕ) : Prop :=
  ∃ keys ∈ (S.call i).visit.index, replicated P (S.call i).visit keys

end Schedule

end Dstore.Audit
