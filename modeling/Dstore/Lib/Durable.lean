import Dstore.Lib.Byte

/-!
# A durable cell

A read of a cell may fail. A write to it is acknowledged, or fails. What a failed write wrote may be
seen by later reads or not, and may be there after a crash or not; what an acknowledged write wrote
is there after every crash, unless a later write is.
-/

namespace Durable

/-- How a write ends: acknowledged, or failed with the value lost or kept. -/
inductive Outcome
  | acked
  | lost
  | kept
  deriving DecidableEq, Repr

/-- What a read finds, the last acknowledged write, and the failed writes since. -/
structure Cell (α : Type*) where
  value : α
  acked : α := value
  unacked : List α := []
  deriving DecidableEq, Repr

namespace Cell

variable {α : Type*} {c : Cell α} {v : α} {P : α → Prop}

/-- A read, which finds nothing where it fails. -/
def get (c : Cell α) (ok : Bool) : Option α := if ok then some c.value else none

/-- A write, and whether it is acknowledged. -/
def set (c : Cell α) (v : α) : Outcome → Cell α × Bool
  | .acked => (⟨v, v, []⟩, true)
  | .kept => ({ c with value := v, unacked := v :: c.unacked }, false)
  | .lost => ({ c with unacked := v :: c.unacked }, false)

/-- A crash leaves the last acknowledged value, or that of a failed write since. -/
def restart [DecidableEq α] (c : Cell α) (v : α) : Option (Cell α) :=
  if v = c.acked ∨ v ∈ c.unacked then some ⟨v, v, []⟩ else none

/-- Whatever a read may find, now or after a crash, is such. -/
structure All (P : α → Prop) (c : Cell α) : Prop where
  value : P c.value
  acked : P c.acked
  unacked : ∀ v ∈ c.unacked, P v

/-- A write brings in nothing but its value. -/
theorem All.set (h : c.All P) (hv : P v) (w : Outcome) : (c.set v w).1.All P := by
  have hall : ∀ u ∈ v :: c.unacked, P u := by simpa [hv] using h.unacked
  cases w with
  | acked => exact ⟨hv, hv, by simp [Cell.set]⟩
  | kept => exact ⟨hv, h.acked, hall⟩
  | lost => exact ⟨h.value, h.acked, hall⟩

theorem set_acked {w : Outcome} (h : (c.set v w).2 = true) : (c.set v w).1 = ⟨v, v, []⟩ := by
  cases w with
  | acked => rfl
  | kept => cases h
  | lost => cases h

/-- A write that fails is not acknowledged. -/
theorem acked_of_failed {w : Outcome} (h : (c.set v w).2 = false) :
    (c.set v w).1.acked = c.acked := by
  cases w with
  | acked => cases h
  | kept => rfl
  | lost => rfl

theorem All.restart [DecidableEq α] (h : c.All P) {c' : Cell α} (hr : c.restart v = some c') :
    P v ∧ c' = ⟨v, v, []⟩ := by
  unfold Cell.restart at hr
  split_ifs at hr with hv
  cases hr
  exact ⟨hv.elim (fun h' => h' ▸ h.acked) (h.unacked v), rfl⟩

end Cell

end Durable
