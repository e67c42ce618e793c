import Dstore.Ballot
import Dstore.Lib.Majority

/-!
# Views

A view is the cluster's configuration: the voters of the catalog, each with the epoch that added
it, the state of the voter change in progress, and the placement nodes. Views are ordered by
`(incarnation, epoch)`; every commit of the view register raises `version`.
-/

namespace Dstore

/-- A voter, and the epoch that added it. -/
structure Voter where
  id : NodeID
  since : ℕ
  deriving DecidableEq, Repr

/-- Whether a voter change still has rows to copy. -/
inductive VoterSync
  | done
  | pending
  deriving DecidableEq, Repr

/-- The cluster's configuration, as far as the catalog reads it. -/
structure View where
  clusterID : Bytes := []
  incarnation : ℕ
  epoch : ℕ
  version : ℕ
  voters : List Voter
  voterSync : VoterSync := .done
  voterSyncCursor : Bytes := []
  voterSyncTarget : Option NodeID := none
  voterSyncAdd : Bool := false
  nodes : List NodeID := []
  deferredVoters : List NodeID := []
  removeVoters : List NodeID := []
  deriving DecidableEq, Repr

namespace View

/-- `Compare`: the incarnation decides first, then the epoch. -/
def compare (v : View) (inc epoch : ℕ) : Ordering :=
  if v.incarnation ≠ inc then
    if v.incarnation < inc then .lt else .gt
  else if v.epoch ≠ epoch then
    if v.epoch < epoch then .lt else .gt
  else .eq

def isVoter (v : View) (id : NodeID) : Bool := v.voters.any fun vo => vo.id = id

/-- The ids of the voters. -/
def voterIDs (v : View) : List NodeID := v.voters.map Voter.id

/-- `Quorum`: how many voters are a majority. -/
def quorum (v : View) : ℕ := v.voters.length / 2 + 1

theorem quorum_eq (v : View) : v.quorum = Majority.quorum v.voterIDs.length := by
  simp [quorum, Majority.quorum, voterIDs]

theorem compare_eq {v : View} {inc epoch : ℕ} :
    v.compare inc epoch = .eq ↔ v.incarnation = inc ∧ v.epoch = epoch := by
  unfold compare
  split_ifs <;> simp_all

/-- The coordinates by which views are ordered. -/
def rank (v : View) : ℕ ×ₗ ℕ := toLex (v.incarnation, v.epoch)

theorem compare_eq_lt {v : View} {inc epoch : ℕ} :
    v.compare inc epoch = .lt ↔ v.rank < toLex (inc, epoch) := by
  rw [rank, Prod.Lex.toLex_lt_toLex, compare]
  split_ifs <;> simp_all

theorem compare_eq_gt {v : View} {inc epoch : ℕ} :
    v.compare inc epoch = .gt ↔ toLex (inc, epoch) < v.rank := by
  rw [rank, Prod.Lex.toLex_lt_toLex, compare]
  split_ifs <;> simp_all <;> omega

/-- The order in which views replace each other; `version` tells those of one epoch apart. -/
def age (v : View) : (ℕ ×ₗ ℕ) ×ₗ ℕ := toLex (v.rank, v.version)

/-- Whether `v` is no newer than `cur`, as `Install` and `adopt` test it. -/
def covers (cur v : View) : Bool :=
  match cur.compare v.incarnation v.epoch with
  | .gt => true
  | .eq => v.version ≤ cur.version
  | .lt => false

/-- `covers` is the order of ages. -/
theorem covers_iff {cur v : View} : cur.covers v = true ↔ v.age ≤ cur.age := by
  rw [age, age, Prod.Lex.toLex_le_toLex, covers]
  split
  · rename_i h
    exact iff_of_true rfl (.inl (compare_eq_gt.1 h))
  · rename_i h
    have hr : v.rank = cur.rank := by rw [rank, rank, (compare_eq.1 h).1, (compare_eq.1 h).2]
    simp [hr]
  · rename_i h
    have hlt : cur.rank < v.rank := compare_eq_lt.1 h
    exact iff_of_false (by simp) fun hle => hle.elim (fun hgt => lt_asymm hlt hgt)
      fun heq => hlt.ne' heq.1

theorem rank_le_of_age_le {u v : View} (h : u.age ≤ v.age) : u.rank ≤ v.rank :=
  (Prod.Lex.toLex_le_toLex.1 h).elim le_of_lt fun h => h.1.le

end View

end Dstore
