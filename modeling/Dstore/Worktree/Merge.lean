import Dstore.Worktree.Change

/-!
# The merge of a pull

Each incoming change (base to remote) is judged against the local ones (base to working directory):
it is applied, there is nothing to do, or it conflicts with a local change.
-/

namespace Dstore.Worktree

open FileTree

variable {κ : Type}

/-- An incoming change, and the local one it meets. -/
structure Conflict (κ : Type) where
  path : Bytes
  mine : Change Bytes κ
  incoming : Change Bytes κ

section judge

variable (mine : List (Change Bytes κ))

/-- The local change of a path, the last one as in the map of the source. -/
def byPath (p : Bytes) : Option (Change Bytes κ) := mine.reverse.find? fun c => c.path = p

/-- The directories above a path, the nearest first. -/
def above (p : Bytes) : List Bytes :=
  ((List.range p.length).reverse.filter fun i => 0 < i ∧ p[i]? = some 47).map p.take

/-- The change takes a directory away. -/
def takesDir (l : Change Bytes κ) : Bool :=
  l.kind = .deleted ∨ (l.kind = .typeChanged ∧ l.old.any Entry.isDir)

/-- The nearest local change that takes away a directory above a path. -/
def goneAbove (p : Bytes) : Option (Change Bytes κ) :=
  (above p).findSome? fun q => (byPath mine q).filter takesDir

/-- The paths of the local changes in order. -/
def paths : List Bytes := (mine.map Change.path).insertionSort (· ≤ ·)

/-- The first local change below a path. -/
def firstBelow (p : Bytes) : Option (Change Bytes κ) :=
  (((paths mine).find? fun q => p ++ [47] ≤ q).filter fun q => (p ++ [47]).isPrefixOf q).bind
    (byPath mine)

/-- What is to be done with an incoming change. -/
inductive Verdict (κ : Type)
  | take
  | nothing
  | conflict (l : Change Bytes κ)

variable [DecidableEq κ]

/-- Both sides have made the same of a path. -/
def sameEdit (l c : Change Bytes κ) : Bool := match l.new, c.new with
  | some a, some b => equivalent a b
  | _, _ => false

/-- The verdict on one incoming change. -/
def judge (c : Change Bytes κ) : Verdict κ := match byPath mine c.path with
  | some l =>
    if l.kind = .metaChanged then .take
    else if l.kind = .deleted ∧ c.kind = .deleted then .nothing
    else if l.kind = .deleted ∨ c.kind = .deleted then .conflict l
    else if sameEdit l c then .take
    else .conflict l
  | none => match goneAbove mine c.path with
    | some l => if c.kind ≠ .deleted then .conflict l else .nothing
    | none =>
      if c.kind = .typeChanged ∧ c.old.any Entry.isDir then match firstBelow mine c.path with
        | some l => .conflict l
        | none => .take
      else .take

/-- `Merge`: what is to be applied, and the conflicts. -/
def merge (incoming : List (Change Bytes κ)) : List (Change Bytes κ) × List (Conflict κ) :=
  (incoming.filter fun c => match judge mine c with
    | .take => true
    | _ => false,
   incoming.filterMap fun c => match judge mine c with
    | .conflict l => some ⟨c.path, l, c⟩
    | _ => none)

end judge

/-- The changes a pull applies: with force, conflicts take the remote's side, otherwise they abort
the pull. -/
def resolved [DecidableEq κ] (force : Bool) (mine incoming : List (Change Bytes κ)) :
    Option (List (Change Bytes κ)) :=
  let (apply, conflicts) := merge mine incoming
  if conflicts.isEmpty then some apply
  else if force then some (apply ++ conflicts.map Conflict.incoming)
  else none

end Dstore.Worktree
