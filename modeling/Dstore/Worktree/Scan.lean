import Dstore.Worktree.Change

/-!
# The scan of a working directory

The scan walks the directory on disk in step with the base tree. A regular file whose size and mtime
are the base entry's is taken as unchanged without being read, unless the base mtime lies within two
seconds of the last sync. The metadata directory at the root is left out. The content of a file
stands for the key that hashing it gives.
-/

namespace Dstore.Worktree

open FileTree

/-- The metadata directory at the root of a working copy, `.dstore`. -/
def dotDstore : Name := [46, 100, 115, 116, 111, 114, 101]

/-- How long before a sync an mtime is not yet trusted. -/
def racyWindow : ℤ := 2 * 10 ^ 9

section scan

variable {π κ : Type} [DecidableEq κ] (length : κ → ℕ) (syncedAt : ℤ) (join : π → Name → π)

/-- Whether `listDir` keeps a name: all but the metadata directory at the root. -/
def listed (root : Bool) (n : Name) : Bool := !(root && n = dotDstore)

/-- The entries of a directory that ingest would see. -/
def listDir (root : Bool) : Dir κ → Dir κ
  | .nil => .nil
  | .cons n t rest => if listed root n then .cons n t (listDir root rest) else listDir root rest

/-- Whether a file on disk is taken to have the content of the base entry without being read. -/
def trusted (b e : Entry κ) : Bool := match b.leaf, e.leaf with
  | some (.reg x), some (.reg y) =>
    ¬ (length y ≠ length x ∨ e.info.mtime ≠ b.info.mtime ∨ b.info.mtime > syncedAt - racyWindow)
  | _, _ => false

/-- The entry on disk as the scan reads it: with the content key of the base entry where the file is
trusted, with the key of its own content where not. -/
def readEntry (b e : Entry κ) : Entry κ := if trusted length syncedAt b e then ⟨e.info, b.leaf⟩ else e

mutual

/-- A disk entry and everything below it, reported as added. -/
def added (p : π) : FTree κ → List (Change π κ)
  | .leaf m l => [⟨p, .added, none, some ⟨m, some l⟩⟩]
  | .dir m d => ⟨p, .added, none, some ⟨m, none⟩⟩ :: addedChildren p d

/-- What a new directory on disk holds. -/
def addedChildren (p : π) : Dir κ → List (Change π κ)
  | .nil => []
  | .cons n t rest =>
    -- `listDir` of a directory below the root
    (if listed false n then added (join p n) t else []) ++ addedChildren p rest

end

/-- What is left on disk behind the last base entry. -/
def addedRest (pre : π) : Dir κ → List (Change π κ)
  | .nil => []
  | .cons k y disk => added join (join pre k) y ++ addedRest pre disk

/-- The merge loop at the base entry `n`: the disk entries in front of it are new, `deleted` are the
changes when the disk does not have it and `both` those when it has, and `next` goes on behind it.
-/
def dirLoop (pre : π) (n : Name) (deleted : List (Change π κ)) (both : FTree κ → List (Change π κ))
    (next : Dir κ → List (Change π κ)) : Dir κ → List (Change π κ)
  | .nil => deleted ++ next .nil
  | .cons k y disk =>
    if n < k then deleted ++ next (.cons k y disk)
    else if k < n then added join (join pre k) y ++ dirLoop pre n deleted both next disk
    else both y ++ next disk

mutual

/-- A path that is in the base and on disk. -/
def both (p : π) : FTree κ → FTree κ → List (Change π κ)
  | .leaf m l, e =>
    if (⟨m, some l⟩ : Entry κ).type ≠ e.entry.type then
      ⟨p, .typeChanged, some ⟨m, some l⟩, some e.entry⟩ :: addedChildren join p e.kids
    else match compare ⟨m, some l⟩ (readEntry length syncedAt ⟨m, some l⟩ e.entry) with
      | none => []
      | some k => [⟨p, k, some ⟨m, some l⟩, some (readEntry length syncedAt ⟨m, some l⟩ e.entry)⟩]
  | .dir m d, e =>
    if (⟨m, none⟩ : Entry κ).type ≠ e.entry.type then
      ⟨p, .typeChanged, some ⟨m, none⟩, some e.entry⟩ ::
        (expandChildren join .deleted p d ++ addedChildren join p e.kids)
    else (match compare ⟨m, none⟩ (readEntry length syncedAt ⟨m, none⟩ e.entry) with
      | none => []
      | some k => [⟨p, k, some ⟨m, none⟩, some (readEntry length syncedAt ⟨m, none⟩ e.entry)⟩]) ++
      scanDir p d (listDir false e.kids)

/-- `scanner.dir`, the disk's entries already listed. -/
def scanDir (pre : π) : Dir κ → Dir κ → List (Change π κ)
  | .nil, disk => addedRest join pre disk
  | .cons n x base, disk =>
    dirLoop join pre n (expand join .deleted (join pre n) x) (both (join pre n) x)
      (scanDir pre base) disk

end

end scan

/-- `Scan`: the changes from the base to the working directory. -/
def scan {κ : Type} [DecidableEq κ] (length : κ → ℕ) (syncedAt : ℤ) (disk base : Dir κ) :
    List (Change Bytes κ) :=
  scanDir length syncedAt joinPath [] base (listDir true disk)

/-- What ingest records of the directory: its entries as the scan reads them, the metadata directory
at the root left out. -/
def ingest {κ : Type} (disk : Dir κ) : Dir κ := disk.without dotDstore

end Dstore.Worktree
