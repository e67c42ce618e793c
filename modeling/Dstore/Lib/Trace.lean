import Dstore.Lib.Machine

/-!
# Endless runs of a machine

A trace is a run that goes on for ever. What every step keeps holds all along it, and steps that
bring a well-founded measure down, while none brings it up, come to an end.
-/

namespace Machine

variable {σ α : Type*} {step : σ → α → Option σ}

/-- The states and actions of an infinite run. -/
def Trace (step : σ → α → Option σ) (f : ℕ → σ) (a : ℕ → α) : Prop :=
  ∀ i, step (f i) (a i) = some (f (i + 1))

namespace Trace

variable {f : ℕ → σ} {a : ℕ → α}

theorem shift (h : Trace step f a) (n : ℕ) : Trace step (fun i => f (n + i)) fun i => a (n + i) :=
  fun i => h (n + i)

theorem invariant (h : Trace step f a) (P : σ → Prop) (ok : σ → α → Prop)
    (hP : ∀ s b s', P s → ok s b → step s b = some s' → P s') (hok : ∀ i, ok (f i) (a i))
    (h0 : P (f 0)) : ∀ i, P (f i)
  | 0 => h0
  | i + 1 => hP (f i) (a i) (f (i + 1)) (invariant h P ok hP hok h0 i) (hok i) (h i)

/-- What costs something each time happens only finitely often. -/
theorem quiet {β : Type*} [PartialOrder β] [WellFoundedLT β] (μ : σ → β) (loud : α → Prop)
    (hle : ∀ i, μ (f (i + 1)) ≤ μ (f i)) (hlt : ∀ i, loud (a i) → μ (f (i + 1)) < μ (f i)) :
    ∃ n, ∀ i, n ≤ i → ¬ loud (a i) := by
  obtain ⟨n, hn⟩ := WellFoundedLT.antitone_chain_condition (f := fun i => μ (f i))
    (antitone_nat_of_succ_le hle)
  refine ⟨n, fun i hi hloud => ?_⟩
  have h1 : μ (f n) = μ (f i) := hn i hi
  have h2 : μ (f n) = μ (f (i + 1)) := hn (i + 1) (Nat.le_succ_of_le hi)
  exact (hlt i hloud).ne (h2.symm.trans h1)

end Trace

theorem lex_lt {β γ : Type*} [PartialOrder β] [Preorder γ] {x x' : β} {y y' : γ} (hx : x' ≤ x)
    (hy : x' = x → y' < y) : toLex (x', y') < toLex (x, y) := by
  rw [Prod.Lex.toLex_lt_toLex]
  rcases hx.lt_or_eq with h | h
  · exact .inl h
  · exact .inr ⟨h, hy h⟩

end Machine
