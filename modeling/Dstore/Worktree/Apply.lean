import Dstore.Lib.Posix
import Dstore.Worktree.Change

/-!
# Writing changes to a working directory

`Apply` brings a list of changes to the working directory of a process: deletions first, deepest
paths first, then additions and modifications in path order, then the modes of the directories that
were opened on the way, and last the metadata of the directories written. Extended attributes are
not set.
-/

namespace Dstore.Worktree

open FileTree Posix

/-- What `Apply` may fail with. -/
inductive Fault
  | emptyPath
  | unsafePath (p : Bytes)
  | throughLink (p : Path)
  | notDir (p : Path)
  | sys (e : Errno)
  | missing
  | unsupported (p : Bytes) (t : FileType)
  | nilEntry
  | inStep (step : String) (f : Fault)
  | inPath (p : Bytes) (f : Fault)
  deriving DecidableEq

/-- A process, the objects it can get, and the order in which a map is iterated over. -/
structure Setting (κ : Type) extends Proc κ where
  has : κ → Bool
  order : List (Path × BitVec 12) → List (Path × BitVec 12)
  order_perm : ∀ l, (order l).Perm l

/-- The world, and the modes of directories opened for the duration. -/
structure St (κ : Type) where
  world : World κ
  restore : List (Path × BitVec 12) := []

/-- The steps of `Apply`: they change the world, and may fail. -/
abbrev M (κ : Type) := EStateM Fault (St κ)

variable {κ α : Type}

/-- A system call, whatever it returns. -/
def sys (f : World κ → α × World κ) : M κ α :=
  fun s => .ok (f s.world).1 { s with world := (f s.world).2 }

/-- The file system as it is now. -/
def disk : M κ (FTree κ) := fun s => .ok s.world.disk.1 s

/-- A failed call is an error. -/
def check : Except Errno α → M κ α
  | .ok a => pure a
  | .error e => throw (.sys e)

/-- A system call that has to succeed. -/
def must (f : World κ → Except Errno α × World κ) : M κ α := sys f >>= check

/-- A step that is taken under a condition. -/
def given (b : Bool) (m : M κ Unit) : M κ Unit := if b then m else pure ()

/-- What a step fails with, put into words by its caller. -/
def wrap (g : Fault → Fault) (m : M κ α) : M κ α := fun s => match m s with
  | .ok a s' => .ok a s'
  | .error f s' => .error (g f) s'

/-- The names of a slash-separated path. -/
def parts (p : Bytes) : Path := p.splitOn 47

/-- `checkPath`: nothing but proper names. -/
def checkPath (p : Bytes) : M κ Unit :=
  if p = [] then throw .emptyPath
  else if ∃ n ∈ parts p, ¬ Proper n then throw (.unsafePath p)
  else pure ()

variable (S : Setting κ)

/-- Whether the directories at a path, given last name first, and above it are real directories. -/
def rejectUp (D : FTree κ) : List Name → Except Fault Unit
  | [] => .ok ()
  | n :: up => match S.lstat (n :: up).reverse D with
    | .error .noent => rejectUp D up
    | .error e => .error (.sys e)
    | .ok e =>
      if e.isLink then .error (.throughLink (n :: up).reverse)
      else if e.isDir = false then .error (.notDir (n :: up).reverse)
      else rejectUp D up

/-- Fails if an existing component of a path below the root is not a real directory. At `/` no
component has the root and a separator as a prefix, so that none is looked at. -/
def rejectSymlinkComponents (D : FTree κ) (t : Path) : Except Fault Unit :=
  if S.cwd = [] then .ok () else rejectUp S D t.dropLast.reverse

/-- Opens a directory that the owner may not read, write and search, and notes its mode. -/
def writable (dir : Path) : M κ (Except Errno Unit) := do
  let s ← get
  if dir ∈ s.restore.map Prod.fst then pure (.ok ())
  else match S.lstat dir s.world.disk.1 with
    | .error e => pure (.error e)
    | .ok e =>
      if e.isDir = false ∨ e.info.perm &&& 0o700 = 0o700 then pure (.ok ())
      else do
        set { s with restore := s.restore ++ [(dir, e.info.perm)] }
        sys (S.chmod dir (e.info.perm ||| 0o700))

/-- What is deleted may be gone already, and a directory that is not empty is left. -/
def removeEmpty (p : Bytes) (t : Path) : M κ Unit := do
  match ← sys (S.remove t) with
  | .ok () => pure ()
  | .error .noent => pure ()
  | .error .notempty => pure ()
  | .error .exist => pure ()
  | .error e => throw (.inPath p (.sys e))

/-- One turn of the loop that deletes. -/
def deleteOne (c : Change Bytes κ) : M κ Unit := do
  let t := parts c.path
  match rejectSymlinkComponents S (← disk) t with
  | .error (.notDir _) => pure ()
  | .error f => throw f
  | .ok () =>
    match ← writable S t.dropLast with
    | .ok () => removeEmpty S c.path t
    | .error .noent => removeEmpty S c.path t
    | .error e => throw (.sys e)

/-- `clearTarget`: a file of another type makes room. -/
def clearTarget (t : Path) (e : Entry κ) : M κ Unit := do
  match S.lstat t (← disk) with
  | .error .noent => pure ()
  | .error err => throw (.sys err)
  | .ok have' => if have'.type ≠ e.type then must (S.removeAll t) else pure ()

/-- How the names of temporary files begin. -/
def tmpName : Name := [46, 100, 115, 116, 111, 114, 101, 45, 116, 109, 112, 45]

/-- `writeRegular`: the content goes to a temporary file, which replaces the target. -/
def writeRegular (t : Path) (content : κ) : M κ Unit := do
  let tmp ← must (S.createTemp t.dropLast tmpName)
  if S.has content = false then
    let _ ← sys (S.remove tmp)
    throw .missing
  else
    match ← sys (S.write tmp content) with
    | .error e =>
      let _ ← sys (S.remove tmp)
      throw (.sys e)
    | .ok () =>
      match ← sys (S.rename tmp t) with
      | .ok () => pure ()
      | .error e =>
        let _ ← sys (S.remove tmp)
        throw (.sys e)

/-- Removes the file at a path, if there is one, and makes another in its place. -/
def replaceBy (t : Path) (g : Fault → Fault) (make : World κ → Except Errno Unit × World κ) :
    M κ Unit := do
  match ← sys (S.remove t) with
  | .ok () => wrap g (must make)
  | .error .noent => wrap g (must make)
  | .error e => throw (.sys e)

/-- The device numbers, cut to 32 bits; none if there are not two of them. -/
def device (rdev : List ℕ) : List ℕ := match rdev with
  | [major, minor] => [major % 2 ^ 32, minor % 2 ^ 32]
  | _ => [0, 0]

/-- `applyMeta`: the owner for a superuser only, and no mode for a link. -/
def applyMeta (t : Path) (e : Entry κ) : M κ Unit := do
  given S.superuser (wrap (.inStep "chown") (must (S.lchown t e.info.uid e.info.gid)))
  given (!e.isLink) (wrap (.inStep "chmod") (must (S.chmod t e.info.perm)))
  wrap (.inStep "set mtime") (must (S.utimes (!e.isLink) t e.info.mtime))

/-- What is not a directory, put in the place of what is there. -/
def writeContent (t : Path) (e : Entry κ) : Leaf κ → M κ Unit
  | .reg content => writeRegular S t content
  | .lnk target => replaceBy S t id (S.symlink target t)
  | .fifo => replaceBy S t (.inStep "mkfifo") (S.mkfifo t e.info.perm)
  | .chr rdev => replaceBy S t (.inStep "mknod") (S.mknod t e.info.perm (.chr (device rdev)))
  | .blk rdev => replaceBy S t (.inStep "mknod") (S.mknod t e.info.perm (.blk (device rdev)))
  | .sock => pure ()
  | .other _ => pure ()

/-- Whether a change of this kind has content to write. -/
def contentChange (k : Kind) : Bool := k ≠ .modeChanged ∧ k ≠ .metaChanged

/-- Puts a file that is not a directory in place, if its content changes, and sets its metadata. -/
def writeFile (k : Kind) (t : Path) (e : Entry κ) (l : Leaf κ) : M κ Unit := do
  given (contentChange k) (writeContent S t e l)
  applyMeta S t e

/-- Puts the new entry of a change in place; a directory gets its metadata later. -/
def writeEntry (c : Change Bytes κ) (t : Path) (e : Entry κ) : M κ Unit := match e.leaf with
  | none => do
    match ← sys (S.mkdir t 0o700) with
    | .ok () => pure ()
    | .error .exist => pure ()
    | .error err => throw (.inPath c.path (.sys err))
  | some .sock => pure ()
  | some (.other b) => throw (.unsupported c.path (.other b))
  | some l => wrap (.inPath c.path) (writeFile S c.kind t e l)

/-- One turn of the loop that writes. -/
def writeOne (c : Change Bytes κ) : M κ Unit := do
  let t := parts c.path
  match rejectSymlinkComponents S (← disk) t with
  | .error f => throw f
  | .ok () =>
    must (S.mkdirAll t.dropLast 0o755)
    check (← writable S t.dropLast)
    match c.new with
    | none =>
      -- dereferenced by `clearTarget` where there is a file, and by the switch where there is none
      match S.lstat t (← disk) with
      | .error .noent => throw .nilEntry
      | .error err => throw (.inPath c.path (.sys err))
      | .ok _ => throw .nilEntry
    | some e =>
      wrap (.inPath c.path) (clearTarget S t e)
      writeEntry S c t e

/-- The metadata of a directory, once all below it is written. -/
def finishDir (c : Change Bytes κ) : M κ Unit := match c.new with
  | none => throw .nilEntry
  | some e => wrap (.inPath c.path) (applyMeta S (parts c.path) e)

/-- The directories that were opened get their modes back. -/
def restoreAll : M κ Unit := do
  let s ← get
  (S.order s.restore).forM fun r => must (S.chmod r.1 r.2)

/-- In the order that deletes what is below a path before the path. -/
def descending (l : List (Change Bytes κ)) : List (Change Bytes κ) :=
  l.insertionSort fun c c' => c.path ≥ c'.path

/-- In the order that makes a directory before what is below it. -/
def ascending (l : List (Change Bytes κ)) : List (Change Bytes κ) :=
  l.insertionSort fun c c' => c.path ≤ c'.path

/-- The deletions, in their order. -/
def dels (changes : List (Change Bytes κ)) : List (Change Bytes κ) :=
  descending (changes.filter fun c => c.kind = .deleted)

/-- All other changes, in theirs. -/
def rest (changes : List (Change Bytes κ)) : List (Change Bytes κ) :=
  ascending (changes.filter fun c => c.kind ≠ .deleted)

/-- The directories among the changes, the deepest first. -/
def dirs (changes : List (Change Bytes κ)) : List (Change Bytes κ) :=
  descending ((rest changes).filter fun c => c.new.any Entry.isDir)

/-- `Apply`: the order keeps every directory that a later step still needs. -/
def apply (changes : List (Change Bytes κ)) : M κ Unit := do
  changes.forM fun c => checkPath c.path
  (dels changes).forM (deleteOne S)
  (rest changes).forM (writeOne S)
  restoreAll S
  (dirs changes).forM (finishDir S)

/-- A process that owns what is on the disk and can get every object. -/
def ownerSetting (cwd : Path) (now : ℕ → ℤ) (blank : κ) : Setting κ where
  toProc := Posix.owner cwd now blank
  has _ := true
  order := id
  order_perm _ := List.Perm.refl _

/-- The state of a process that has not done anything yet. -/
def St.start (D : Disk κ) : St κ := ⟨⟨D, []⟩, []⟩

/-- The state in which a computation ends, failed or not. -/
def ends (m : M κ α) (s : St κ) : St κ := match m s with
  | .ok _ s' => s'
  | .error _ s' => s'

end Dstore.Worktree
