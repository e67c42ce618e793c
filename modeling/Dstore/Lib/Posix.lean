import Dstore.Lib.Disk

/-!
# Files under a process

System calls of one process on a disk. A path is relative to the process's directory `cwd` and is
resolved name by name, symbolic links included. `allow` decides what the process may do to an
object; `ownerAllow` is the rule for a process that owns every file and is not root. Every call that
changes the disk is logged with its path, the object it reached and the disk it left behind.
-/

namespace Posix

open FileTree

variable {κ : Type}

/-- The errors of the calls. -/
inductive Errno
  | noent
  | notdir
  | acces
  | perm
  | exist
  | notempty
  | isdir
  | loop
  | busy
  deriving DecidableEq, Repr

/-- What a process may be allowed at a path. -/
inductive Access
  | search
  | write
  | list
  | own
  | device
  deriving DecidableEq

/-- The calls that change the disk. -/
inductive Call
  | mkdir
  | create
  | write
  | rename
  | symlink
  | mkfifo
  | mknod
  | remove
  | chmod
  | utimes
  | lchown
  deriving DecidableEq, Repr

/-- One call: the paths it was given, each with the object it reached, and the disk afterwards. -/
structure Event (κ : Type) where
  call : Call
  touched : List (Path × Path)
  disk : Disk κ

/-- The disk, and the calls so far, the last one first. -/
structure World (κ : Type) where
  disk : Disk κ
  log : List (Event κ) := []

/-- The world after a call that has changed the disk. -/
def World.did (w : World κ) (call : Call) (touched : List (Path × Path)) (D : Disk κ) : World κ :=
  ⟨D, ⟨call, touched, D⟩ :: w.log⟩

/-- A process and what it meets: its directory, its rights, the clock (by the number of calls so
far), the content of an empty file, and names not in use for temporary files. -/
structure Proc (κ : Type) where
  cwd : Path
  allow : Access → Path → FTree κ → Bool
  superuser : Bool
  uid : ℕ
  gid : ℕ
  umask : BitVec 12
  now : ℕ → ℤ
  blank : κ
  fresh : FTree κ → Path → Name → Name
  look_fresh : ∀ (D : FTree κ) (c : Path) (pre : Name), D.look (c ++ [pre ++ fresh D c pre]) = none

/-- The name of the directory itself. -/
def dot : Name := [46]

/-- The name of the directory above. -/
def dotdot : Name := [46, 46]

/-- A name that leads to an entry. -/
def Proper (n : Name) : Prop := n ≠ [] ∧ n ≠ dot ∧ n ≠ dotdot

instance (n : Name) : Decidable (Proper n) := inferInstanceAs (Decidable (_ ∧ _ ∧ _))

section resolve

variable (D : FTree κ) (may : Path → Bool) (follow : Bool)

/-- The object a path leads to from `cur`; at a link to follow, `jump` goes on. -/
def steps (jump : Path → Path → Except Errno Path) : Path → Path → Except Errno Path
  | cur, [] => .ok cur
  | cur, n :: rest => match D.look cur with
    | none => .error .noent
    | some ⟨_, some _⟩ => .error .notdir
    | some ⟨_, none⟩ =>
      if may cur = false then .error .acces
      else if n = [] ∨ n = dot then steps jump cur rest
      else if n = dotdot then steps jump cur.dropLast rest
      else match D.look (cur ++ [n]) with
        | some ⟨_, some (.lnk target)⟩ =>
          if rest = [] ∧ follow = false then .ok (cur ++ [n])
          else if target = [] then .error .noent
          else jump (if target.head? = some 47 then [] else cur) (target.splitOn 47 ++ rest)
        | some _ => steps jump (cur ++ [n]) rest
        | none => if rest = [] then .ok (cur ++ [n]) else .error .noent

/-- Path resolution that follows at most so many links. -/
def namei : ℕ → Path → Path → Except Errno Path
  | 0 => steps D may follow fun _ _ => .error .loop
  | k + 1 => steps D may follow (namei k)

end resolve

namespace Proc

variable (P : Proc κ)

/-- The object of a path; links at its end are followed only if asked. -/
def resolve (follow : Bool) (p : Path) (D : FTree κ) : Except Errno Path :=
  namei D (fun c => P.allow .search c D) follow 40 P.cwd p

/-- The entry of a path. -/
def statAs (follow : Bool) (p : Path) (D : FTree κ) : Except Errno (Entry κ) :=
  match P.resolve follow p D with
  | .error e => .error e
  | .ok c => match D.look c with
    | none => .error .noent
    | some e => .ok e

/-- The entry of a path, a link not followed. -/
def lstat (p : Path) (D : FTree κ) : Except Errno (Entry κ) := P.statAs false p D

/-- The entry of a path, links followed. -/
def stat (p : Path) (D : FTree κ) : Except Errno (Entry κ) := P.statAs true p D

/-- Whether the process may list the directory. -/
def listable (p : Path) (D : FTree κ) : Bool := match P.resolve false p D with
  | .error _ => false
  | .ok c => P.allow .list c D

/-- A call on the object of a path: `f` decides on the disk it leaves behind. -/
def act (call : Call) (follow : Bool) (p : Path) (f : ℤ → Path → Disk κ → Except Errno (Disk κ))
    (w : World κ) : Except Errno Unit × World κ :=
  match P.resolve follow p w.disk.1 with
  | .error e => (.error e, w)
  | .ok c => match f (P.now w.log.length) c w.disk with
    | .error e => (.error e, w)
    | .ok D => (.ok (), w.did call [(p, c)] D)

/-- Set the mtime of the object. -/
def stamp (t : ℤ) (c : Path) (D : Disk κ) : Disk κ := D.info c fun m => { m with mtime := t }

/-- A new entry changes the mtime of its directory. -/
def enter (t : ℤ) (c : Path) (e : Entry κ) (D : Disk κ) : Disk κ := stamp t c.dropLast (D.plant c e)

/-- So does the loss of one. -/
def leave (t : ℤ) (c : Path) (D : Disk κ) : Disk κ := stamp t c.dropLast (D.prune c)

/-- Make a file where there is none. -/
def making (e : ℤ → Entry κ) (t : ℤ) (c : Path) (D : Disk κ) : Except Errno (Disk κ) :=
  if (D.1.look c).isSome then .error .exist
  else if P.allow .write c.dropLast D.1 = false then .error .acces
  else .ok (enter t c (e t) D)

/-- The metadata of a new file. -/
def born (mode : BitVec 12) (t : ℤ) : Meta := ⟨mode &&& ~~~P.umask, P.uid, P.gid, t, [], []⟩

def mkdir (p : Path) (mode : BitVec 12) : World κ → Except Errno Unit × World κ :=
  P.act .mkdir false p (P.making fun t => ⟨P.born mode t, none⟩)

def mkfifo (p : Path) (mode : BitVec 12) : World κ → Except Errno Unit × World κ :=
  P.act .mkfifo false p (P.making fun t => ⟨P.born mode t, some .fifo⟩)

/-- Make a file, if nothing more speaks against it. -/
def makingUnless (no : Path → FTree κ → Option Errno) (e : ℤ → Entry κ) (t : ℤ) (c : Path)
    (D : Disk κ) : Except Errno (Disk κ) := match no c D.1 with
  | some err => .error err
  | none => P.making e t c D

/-- `mknod(2)`, for devices. -/
def mknod (p : Path) (mode : BitVec 12) (l : Leaf κ) : World κ → Except Errno Unit × World κ :=
  P.act .mknod false p (P.makingUnless
    (fun c D => if P.allow .device c D then none else some .perm) fun t => ⟨P.born mode t, some l⟩)

def symlink (target : Name) (p : Path) : World κ → Except Errno Unit × World κ :=
  P.act .symlink false p (P.makingUnless (fun _ _ => if target = [] then some .noent else none)
    fun t => ⟨⟨0o777, P.uid, P.gid, t, [], []⟩, some (.lnk target)⟩)

/-- Remove a file or an empty directory. -/
def removing (t : ℤ) (c : Path) (D : Disk κ) : Except Errno (Disk κ) := match D.1.at' c with
  | none => .error .noent
  | some s =>
    if c = [] then .error .busy
    else if P.allow .write c.dropLast D.1 = false then .error .acces
    else if s.kids.names ≠ [] then .error .notempty
    else .ok (leave t c D)

/-- `os.Remove`, which does not tell files from directories. -/
def remove (p : Path) : World κ → Except Errno Unit × World κ := P.act .remove false p P.removing

/-- Change the metadata of a file the process owns. -/
def changing (f : Meta → Meta) (c : Path) (D : Disk κ) : Except Errno (Disk κ) :=
  if D.1.look c = none then .error .noent
  else if P.allow .own c D.1 = false then .error .perm
  else .ok (D.info c f)

/-- `chmod(2)`, which follows links. -/
def chmod (p : Path) (mode : BitVec 12) : World κ → Except Errno Unit × World κ :=
  P.act .chmod true p fun _ => P.changing fun m => { m with perm := mode }

/-- Set the mtime. -/
def utimes (follow : Bool) (p : Path) (t : ℤ) : World κ → Except Errno Unit × World κ :=
  P.act .utimes follow p fun _ => P.changing fun m => { m with mtime := t }

/-- Changes the owner of a file, links included; the set-id bits of a file that is not a directory
go. -/
def lchown (p : Path) (uid gid : ℕ) : World κ → Except Errno Unit × World κ :=
  P.act .lchown false p fun _ c D =>
    let keep : BitVec 12 := if (D.1.look c).any Entry.isDir then 0o7777 else 0o1777
    P.changing (fun m => { m with uid := uid, gid := gid, perm := m.perm &&& keep }) c D

/-- Replace the content of a regular file. -/
def writing (content : κ) (t : ℤ) (c : Path) (D : Disk κ) : Except Errno (Disk κ) :=
  match D.1.look c with
  | some ⟨m, some (.reg _)⟩ => .ok (D.plant c ⟨{ m with mtime := t }, some (.reg content)⟩)
  | _ => .error .noent

/-- Write a file that the process has just made. -/
def write (p : Path) (content : κ) : World κ → Except Errno Unit × World κ :=
  P.act .write false p (writing content)

/-- Make a file under a name not in use. -/
def createTemp (dir : Path) (pre : Name) (w : World κ) : Except Errno Path × World κ :=
  match P.resolve true dir w.disk.1 with
  | .error e => (.error e, w)
  | .ok c =>
    let tmp := dir ++ [pre ++ P.fresh w.disk.1 c pre]
    match P.act .create false tmp (P.making fun t => ⟨P.born 0o600 t, some (.reg P.blank)⟩) w with
    | (.error e, w) => (.error e, w)
    | (.ok (), w) => (.ok tmp, w)

/-- `rename(2)` of what is not a directory. -/
def rename (old new : Path) (w : World κ) : Except Errno Unit × World κ :=
  match P.resolve false old w.disk.1, P.resolve false new w.disk.1 with
  | .error e, _ => (.error e, w)
  | _, .error e => (.error e, w)
  | .ok a, .ok b => match w.disk.1.look a with
    | none => (.error .noent, w)
    | some e =>
      if a = b then (.ok (), w)
      else if P.allow .write a.dropLast w.disk.1 = false ∨
          P.allow .write b.dropLast w.disk.1 = false then
        (.error .acces, w)
      else if e.isDir = true ∨ (w.disk.1.look b).any Entry.isDir = true then (.error .isdir, w)
      else
        let t := P.now w.log.length
        (.ok (), w.did .rename [(old, a), (new, b)] (enter t b e (leave t a w.disk)))

/-- Makes a directory with the directories above it, the path given last name first. -/
def mkdirUp (mode : BitVec 12) : List Name → World κ → Except Errno Unit × World κ
  | [], w => match P.stat [] w.disk.1 with
    | .error e => (.error e, w)
    | .ok e => if e.isDir then (.ok (), w) else (.error .notdir, w)
  | n :: up, w => match P.stat (n :: up).reverse w.disk.1 with
    | .ok e => if e.isDir then (.ok (), w) else (.error .notdir, w)
    | .error _ => match mkdirUp mode up w with
      | (.error e, w) => (.error e, w)
      | (.ok (), w) => match P.mkdir (n :: up).reverse mode w with
        | (.ok (), w) => (.ok (), w)
        | (.error e, w) => match P.lstat (n :: up).reverse w.disk.1 with
          | .error _ => (.error e, w)
          | .ok d => if d.isDir then (.ok (), w) else (.error e, w)

/-- Make a directory with those above it. -/
def mkdirAll (p : Path) (mode : BitVec 12) : World κ → Except Errno Unit × World κ :=
  P.mkdirUp mode p.reverse

/-- Remove a file; that it is gone already is no error. -/
def unlink (p : Path) (w : World κ) : Option Errno × World κ := match P.remove p w with
  | (.ok (), w) => (none, w)
  | (.error .noent, w) => (none, w)
  | (.error e, w) => (some e, w)

mutual

/-- Removes a file with all below it; the first error is reported, and the rest is removed. -/
def removeTree (p : Path) : FTree κ → World κ → Option Errno × World κ
  | .leaf _ _, w => P.unlink p w
  | .dir _ d, w =>
    let (err, w) := if P.listable p w.disk.1 then removeKids p d w else (some .acces, w)
    match P.unlink p w with
    | (none, w) => (none, w)
    | (some e, w) => (some (err.getD e), w)

/-- Remove what a directory holds. -/
def removeKids (p : Path) : Dir κ → World κ → Option Errno × World κ
  | .nil, w => (none, w)
  | .cons n t rest, w =>
    let (e, w) := removeTree (p ++ [n]) t w
    let (e', w) := removeKids p rest w
    (e <|> e', w)

end

/-- Remove a file with all below it. -/
def removeAll (p : Path) (w : World κ) : Except Errno Unit × World κ :=
  match P.unlink p w with
  | (none, w) => (.ok (), w)
  | (some _, w) => match P.resolve true p.dropLast w.disk.1 with
    | .error .noent => (.ok (), w)
    | .error e => (.error e, w)
    | .ok c =>
      if P.allow .list c w.disk.1 = false then (.error .acces, w)
      else match P.resolve false p w.disk.1 with
        | .error .noent => (.ok (), w)
        | .error e => (.error e, w)
        | .ok c => match w.disk.1.at' c with
          | none => (.ok (), w)
          | some t => match P.removeTree p t w with
            | (none, w) => (.ok (), w)
            | (some e, w) => (.error e, w)

end Proc

/-- The bit that allows the owner the access. -/
def ownerBit : Access → BitVec 12
  | .search => 0o100
  | .write => 0o200
  | .list => 0o400
  | .own => 0
  | .device => 0

/-- The rights of a process that owns everything. -/
def ownerAllow (a : Access) (c : Path) (D : FTree κ) : Bool :=
  a ≠ .device && match D.look c with
    | none => false
    | some e => e.info.perm &&& ownerBit a = ownerBit a

/-- The length of the longest name. -/
def longest : Dir κ → ℕ
  | .nil => 0
  | .cons n _ rest => max n.length (longest rest)

theorem find_of_longer {n : Name} : ∀ {d : Dir κ}, longest d < n.length → d.find n = none
  | .nil, _ => rfl
  | .cons m t rest, h => by
    unfold longest at h
    have hne : m ≠ n := by
      rintro rfl
      omega
    rw [Dir.find_cons_of_ne hne, find_of_longer (by omega)]

/-- A name longer than any in the directory. -/
def longer (D : FTree κ) (c : Path) (_ : Name) : Name :=
  List.replicate ((D.at' c).elim 0 fun s => longest s.kids + 1) 48

/-- No entry has the longer name. -/
theorem look_longer (D : FTree κ) (c : Path) (pre : Name) :
    D.look (c ++ [pre ++ longer D c pre]) = none := by
  rw [FTree.look_append]
  cases hs : D.at' c with
  | none => rfl
  | some s =>
    rw [Option.bind_some, FTree.look_cons, find_of_longer]
    · rfl
    · rw [longer, hs, Option.elim_some, List.length_append, List.length_replicate]
      omega

/-- A process that owns everything. -/
def owner (cwd : Path) (now : ℕ → ℤ) (blank : κ) : Proc κ where
  cwd := cwd
  allow := ownerAllow
  superuser := false
  uid := 0
  gid := 0
  umask := 0o022
  now := now
  blank := blank
  fresh := longer
  look_fresh := look_longer

end Posix
