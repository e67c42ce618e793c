import Dstore.Proofs.Cluster
import Dstore.Proofs.Register
import Dstore.Registers

/-!
# The views and the gc states that are committed

A view is committed when a majority of the voters has accepted it. A `CASView` computes its view on
the newest row that its prepare round found, which one voter alone may hold: the committed views lie
on the chain of the CASes, and the chain may have views between them that no majority accepted.
-/

namespace Dstore

open Machine

namespace Cluster

variable {views : Codec View} {s s₀ : State (Option View) CASErr}
  {as : List (Action (Option View) CASErr)} {vs : List Voter} {b b' : Ballot} {u u' v : View}
  {x' : Bytes × Bool} {cs : List Change} {fn : ChangeFunc (Option View) CASErr}

/-- What the program hands `Propose` on the view register. -/
inductive Proposes (views : Codec View) : ChangeFunc (Option View) CASErr → Prop
  | cas (c : Change) : Proposes views (casViewFn views c)
  | init (v : View) : Proposes views (initViewFn views v)
  | settle : Proposes views identity

theorem Proposes.writes (h : Proposes views fn) : Writes views (fun _ => True) casView fn := by
  cases h with
  | cas c => exact writes_casFn fun _ _ _ _ => trivial
  | init v => exact writes_createIfAbsent trivial
  | settle => exact writes_identity

namespace Skip

/-- Three voters that place data too. -/
def first : View where
  incarnation := 1
  epoch := 1
  version := 1
  replicas := 2
  minReplicas := 2
  voters := Trio.view.voters
  nodes := [{ id := 1, weight := 1 }, { id := 2, weight := 1 }, { id := 3, weight := 1 }]

/-- A change that keeps the epoch. -/
def paused : View := { first with version := 2, rebalancePause := true }

end Skip

end Cluster

namespace Gc

variable {states : Codec GCState} {s s₀ : State (Option GCState) (CatalogErr ⊕ Err)}
  {as : List (Action (Option GCState) (CatalogErr ⊕ Err))} {vs : List Voter}
  {fn : ChangeFunc (Option GCState) (CatalogErr ⊕ Err)}

/-- What the program hands `Propose` on the gc register. -/
inductive Proposes (states : Codec GCState) :
    ChangeFunc (Option GCState) (CatalogErr ⊕ Err) → Prop
  | cas (w : Write) : Proposes states (casGCFn states w)
  | settle : Proposes states identity

theorem Proposes.writes (h : Proposes states fn) :
    Writes states (fun st => ∃ w, Write.apply w {} = .ok st) Write.apply fn := by
  cases h with
  | cas w =>
    refine writes_casFn fun v hv u hu => ⟨w, ?_⟩
    cases hv
    exact hu
  | settle => exact writes_identity

/-- In every quiet run of a fixed voter set the states that are committed are among the `values` of
some writes, and of two the later is made of the earlier. -/
theorem committed_values (h₀ : Initial s₀) (hf : Fixed vs s₀) (hq : ∀ a ∈ as, Quiet a)
    (hr : run step s₀ as = some s)
    (hp : ∀ i node fn notAfter env, .propose i node regGC fn notAfter env ∈ as →
      Proposes states fn) {b : Ballot} {x : Bytes} (hc : Chosen vs s regGC b (x, true)) :
    ∃ ws st, x = states.enc st ∧ st ∈ values ws ∧
      ∀ b' x', Chosen vs s regGC b' x' → b ≤ b' →
        ∃ ws' st', x' = (states.enc st', true) ∧ st' ∈ Log.states Write.apply st ws' := by
  obtain ⟨h, -, -⟩ := inv_run_quiet h₀ hf hq hr
  have hw := onlyWrites_run h₀ hf (fun i node fn t env hm => (hp i node fn t env hm).writes) hr
  obtain ⟨w, -, hv⟩ := hc.voted
  obtain ⟨q, hqs, hreg, rfl, hx⟩ := h.voted_proposal hv
  simp only [Prod.mk.injEq] at hx
  obtain ⟨v, ws, st, ⟨w, hw₁⟩, henc, hst⟩ := hw.states h hqs hreg hx.2
  refine ⟨w :: ws, st, hx.1 ▸ henc, ?_, fun b' x' hc' hle => ?_⟩
  · simp [values, Log.states, hw₁, hst]
  · rw [← hx.1, henc] at hc
    exact hw.chosen_states h (agreement_of_run h₀ hf hq hr) hc hc' hle

end Gc

end Dstore
