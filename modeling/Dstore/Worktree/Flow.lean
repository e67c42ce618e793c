import Dstore.Worktree.Apply
import Dstore.Worktree.Merge
import Dstore.Worktree.Scan

/-!
# Clone and pull

After the fetch, a clone applies the difference from the empty tree, and a pull what the merge makes
of the scan and of the difference from the base.
-/

namespace Dstore.Worktree

open FileTree Posix

variable {κ : Type} [DecidableEq κ] (S : Setting κ)

/-- The listing of the working directory. -/
def listing (D : FTree κ) : Dir κ := (D.at' S.cwd).elim .nil FTree.kids

/-- What a pull comes to. -/
inductive Pulled (κ : Type)
  | noRemote
  | upToDate
  | conflict
  | applied (l : List (Change Bytes κ))

/-- `Clone`, from the fetched tree on. -/
def clone (remote : Dir κ) : M κ Unit := apply S (diffTrees .nil remote)

/-- `Pull`, from the fetched tree on. -/
def pull (length : κ → ℕ) (syncedAt : ℤ) (force : Bool) (base : Dir κ) (remote : Option (Dir κ)) :
    M κ (Pulled κ) := match remote with
  | none => pure .noRemote
  | some r =>
    if r = base then pure .upToDate
    else do
      let D ← disk
      match resolved force (scan length syncedAt (listing S D) base) (diffTrees base r) with
      | none => pure .conflict
      | some l => do
        apply S l
        pure (.applied l)

end Dstore.Worktree
