import Dstore.Ballot
import Dstore.Lib.FileTree

/-!
# Changes between two trees

`DiffTrees` walks two directory trees in step, entry by entry in name order, and skips a pair of
subdirectories whose keys are equal: a key stands for what it names. The walk is written for any
type of paths with an operation that appends a name, `joinPath` on strings.
-/

namespace Dstore.Worktree

open FileTree

/-- What has become of a path. -/
inductive Kind
  | added
  | deleted
  | modified
  | typeChanged
  | modeChanged
  | metaChanged
  deriving DecidableEq, Repr

/-- One path's difference: `old` is absent for an addition, `new` for a deletion. -/
structure Change (π κ : Type) where
  path : π
  kind : Kind
  old : Option (Entry κ)
  new : Option (Entry κ)
  deriving DecidableEq

section compare

variable {κ : Type} [DecidableEq κ]

/-- `SameContent`: a directory has no content of its own, nor has a fifo or a socket. -/
def sameContent (a b : Entry κ) : Bool := match a.leaf, b.leaf with
  | some (.reg x), some (.reg y) => x = y
  | some (.lnk x), some (.lnk y) => x = y
  | some (.chr x), some (.chr y) => x = y
  | some (.blk x), some (.blk y) => x = y
  | _, _ => true

/-- `Equivalent`: the same but for owner, times and extended attributes. -/
def equivalent (a b : Entry κ) : Bool :=
  decide (a.type = b.type) && sameContent a b && decide (a.info.perm = b.info.perm)

/-- `Compare`: the first kind that applies, or none. -/
def compare (old new : Entry κ) : Option Kind :=
  if old.type ≠ new.type then some .typeChanged
  else if sameContent old new = false then some .modified
  else if old.info.perm ≠ new.info.perm then some .modeChanged
  else if old.info.uid ≠ new.info.uid ∨ old.info.gid ≠ new.info.gid ∨
      old.info.mtime ≠ new.info.mtime ∨ old.info.xattrsIn ≠ new.info.xattrsIn ∨
      old.info.xattrsKey ≠ new.info.xattrsKey then some .metaChanged
  else none

end compare

/-- `joinPath`, with nothing in front of the names at the root. -/
def joinPath (pre name : Bytes) : Bytes := if pre = [] then name else pre ++ 47 :: name

/-- The change of a path that only one of the trees has. -/
def single {π κ : Type} (kind : Kind) (p : π) (e : Entry κ) : Change π κ :=
  if kind = .added then ⟨p, kind, none, some e⟩ else ⟨p, kind, some e, none⟩

section diff

variable {π κ : Type} (join : π → Name → π)

mutual

/-- The changes of kind `kind` (added or deleted) for a file and all below it. -/
def expand (kind : Kind) (p : π) : FTree κ → List (Change π κ)
  | .leaf m l => [single kind p ⟨m, some l⟩]
  | .dir m d => single kind p ⟨m, none⟩ :: expandChildren kind p d

/-- The changes for what a directory holds. -/
def expandChildren (kind : Kind) (p : π) : Dir κ → List (Change π κ)
  | .nil => []
  | .cons n t rest => expand kind (join p n) t ++ expandChildren kind p rest

end

/-- The walk through the second listing, at the entry `n` of the first: `gone` are the changes when
the second does not have it, `both` those when it has, and `next` goes on behind `n`. -/
def walk (gone : List (Change π κ)) (new : Name → FTree κ → List (Change π κ))
    (both : FTree κ → List (Change π κ)) (next : Dir κ → List (Change π κ)) (n : Name) :
    Dir κ → List (Change π κ)
  | .nil => gone ++ next .nil
  | .cons k y rest =>
    if n < k then gone ++ next (.cons k y rest)
    else if k < n then new k y ++ walk gone new both next n rest
    else both y ++ next rest

variable [DecidableEq κ]

mutual

/-- The changes of a path that both trees have. -/
def diffEntry (p : π) : FTree κ → FTree κ → List (Change π κ)
  | .leaf m l, y =>
    (match compare ⟨m, some l⟩ y.entry with
      | none => []
      | some k => ⟨p, k, some ⟨m, some l⟩, some y.entry⟩ ::
        (if k = .typeChanged then expandChildren join .added p y.kids else []))
  | .dir m d, y =>
    (match compare ⟨m, none⟩ y.entry with
      | none => []
      | some k => ⟨p, k, some ⟨m, none⟩, some y.entry⟩ ::
        (if k = .typeChanged then
          expandChildren join .deleted p d ++ expandChildren join .added p y.kids else [])) ++
    (match y with
      | .leaf _ _ => []
      | .dir _ d' => if d = d' then [] else diffDirs p d d')

/-- The changes between two directories at one path. -/
def diffDirs (pre : π) : Dir κ → Dir κ → List (Change π κ)
  | .nil, eb => expandChildren join .added pre eb
  | .cons n x rest, eb =>
    walk (expand join .deleted (join pre n) x) (fun k y => expand join .added (join pre k) y)
      (diffEntry (join pre n) x) (diffDirs pre rest) n eb

end

end diff

/-- `DiffTrees`, from the roots of the two trees. -/
def diffTrees {κ : Type} [DecidableEq κ] (a b : Dir κ) : List (Change Bytes κ) :=
  if a = b then [] else diffDirs joinPath [] a b

end Dstore.Worktree
