import Dstore.Lib.Byte

/-!
# Ballots

A ballot is a counter and the proposer it was handed to, ordered by the counter first. The zero
ballot stands for none.
-/

namespace Dstore

/-- Byte strings, ordered as `bytes.Compare` orders them. -/
abbrev Bytes := List (Fin 256)

/-- A node's 32-byte identity, as the number its bytes spell big-endian. -/
abbrev NodeID := ℕ

/-- The last `n` bytes of a number, big-endian. -/
def beBytes : ℕ → ℕ → Bytes
  | 0, _ => []
  | n + 1, x => beBytes n (x / 256) ++ [Fin.ofNat 256 x]

theorem length_beBytes : ∀ n x : ℕ, (beBytes n x).length = n
  | 0, _ => rfl
  | n + 1, x => by simp [beBytes, length_beBytes n]

/-- A proposal's number; the proposer breaks ties. -/
structure Ballot where
  counter : ℕ
  proposer : NodeID
  deriving DecidableEq, Repr

namespace Ballot

/-- What ballots are ordered by. -/
def key (b : Ballot) : ℕ ×ₗ ℕ := toLex (b.counter, b.proposer)

theorem key_injective : Function.Injective key := by
  rintro ⟨c, p⟩ ⟨c', p'⟩ h
  simpa [key] using h

instance : LinearOrder Ballot := LinearOrder.lift' key key_injective

def compare (b o : Ballot) : Ordering :=
  if b.counter ≠ o.counter then
    if b.counter < o.counter then .lt else .gt
  else if b.proposer < o.proposer then .lt
  else if b.proposer = o.proposer then .eq
  else .gt

theorem lt_iff {b o : Ballot} :
    b < o ↔ b.counter < o.counter ∨ b.counter = o.counter ∧ b.proposer < o.proposer :=
  Prod.Lex.toLex_lt_toLex

/-- `Compare` decides the order. -/
theorem compare_eq_lt {b o : Ballot} : b.compare o = .lt ↔ b < o := by
  rw [lt_iff, compare]
  split_ifs <;> simp_all

theorem compare_eq_eq {b o : Ballot} : b.compare o = .eq ↔ b = o := by
  rcases b with ⟨c, p⟩
  rcases o with ⟨c', p'⟩
  simp only [compare, mk.injEq]
  split_ifs <;> simp_all
  exact (‹p < p'›).ne

/-- `Compare` is the order: counters first, then proposers. -/
theorem compare_eq_gt {b o : Ballot} : b.compare o = .gt ↔ o < b := by
  rcases lt_trichotomy b o with h | h | h
  · simp [compare_eq_lt.2 h, h.le]
  · rw [compare_eq_eq.2 h]
    simp [h]
  · have hlt : b.compare o ≠ .lt := fun h' => h.not_gt (compare_eq_lt.1 h')
    have heq : b.compare o ≠ .eq := fun h' => h.ne' (compare_eq_eq.1 h')
    rcases hc : b.compare o with _ | _ | _ <;> simp_all

instance : OrderBot Ballot where
  bot := ⟨0, 0⟩
  bot_le b := by
    rw [← not_lt, lt_iff]
    rintro (h | ⟨-, h⟩) <;> simp at h

instance : WellFoundedLT Ballot := ⟨InvImage.wf key wellFounded_lt⟩

instance : Inhabited Ballot := ⟨⊥⟩

/-- The zero ballot, which no proposal has. -/
def isZero (b : Ballot) : Bool := b.counter = 0 ∧ b.proposer = 0

@[simp] theorem isZero_iff {b : Ballot} : b.isZero = true ↔ b = ⊥ := by
  rcases b with ⟨c, p⟩
  change _ ↔ Ballot.mk c p = ⟨0, 0⟩
  simp [isZero]

theorem isZero_eq_false {b : Ballot} : b.isZero = false ↔ b ≠ ⊥ := by
  rw [← Bool.not_eq_true, isZero_iff]

/-- The encoding of a ballot; the zero ballot is the empty string. -/
def bytes (b : Ballot) : Bytes :=
  if b.isZero then [] else beBytes 8 b.counter ++ beBytes 32 b.proposer

end Ballot

end Dstore
