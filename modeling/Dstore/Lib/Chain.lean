import Dstore.Lib.Byte

/-!
# Chains of ballots

Each ballot that was ever proposed was computed on a row accepted at a lower one, or on no row.
Where every ballot proposed above a chosen one was computed on a row at or above it, following
the rows back from any of them meets the chosen one: the chosen ballots lie on one chain.
-/

namespace Chain

variable {β : Type*} [LinearOrder β] [OrderBot β] {parent : β → β → Prop} {chosen : β → Prop}

/-- The law the chain rests on: what is proposed above a chosen ballot was computed at or above
it. -/
def Covers (parent : β → β → Prop) (chosen : β → Prop) : Prop :=
  ∀ b b' a, chosen b → parent b' a → b < b' → b ≤ a

/-- Every chosen element lies on the chain of parents of every later one. -/
theorem Covers.reaches [WellFoundedLT β] (hc : Covers parent chosen)
    (hlt : ∀ b a, parent b a → a < b)
    (hp : ∀ b a, parent b a → a = ⊥ ∨ ∃ a', parent a a') {b : β} (hb : chosen b) (h0 : b ≠ ⊥) :
    ∀ {b' a : β}, parent b' a → b ≤ b' → Relation.ReflTransGen parent b' b := by
  intro b'
  induction b' using WellFoundedLT.induction with
  | ind b' ih =>
    intro a hpar hle
    rcases hle.eq_or_lt with rfl | hlt'
    · exact .refl
    · have hba : b ≤ a := hc b b' a hb hpar hlt'
      rcases hp b' a hpar with rfl | ⟨a', ha'⟩
      · exact absurd (le_bot_iff.1 hba) h0
      · exact .head hpar (ih a (hlt b' a hpar) ha' hba)

end Chain
