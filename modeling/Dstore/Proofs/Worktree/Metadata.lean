import Dstore.Proofs.Worktree.Inside
import Dstore.Proofs.Worktree.Merge
import Dstore.Worktree.Flow

/-!
# The working copy's own metadata

The scan does not list `.dstore`, but the difference from the base to the remote is applied as it
is.
-/

namespace Dstore.Worktree

open FileTree Posix Hoare

variable {κ : Type} [DecidableEq κ]

/-- The end of a clone, or of a pull that has found a remote tree. -/
inductive Ran (S : Setting κ) (W : Disk κ) : Dir κ → Dir κ → St κ → Prop
  | clone (remote : Dir κ) : Ran S W .nil remote (ends (clone S remote) (St.start W))
  | pull (length : κ → ℕ) (syncedAt : ℤ) (force : Bool) (base remote : Dir κ) :
    Ran S W base remote (ends (pull S length syncedAt force base (some remote)) (St.start W))

theorem tmpName_ne (s : Name) : tmpName ++ s ≠ dotDstore := by
  intro h
  have := congrArg List.length h
  rw [List.length_append] at this
  change 12 + s.length = 7 at this
  omega

section kept

variable {S : Setting κ} {W : Disk κ} {base remote : Dir κ}

/-- The trees do not differ in the metadata directory. -/
def SparesMetadata (base remote : Dir κ) : Prop :=
  ∀ c ∈ diffTrees base remote, (parts c.path).head? ≠ some dotDstore

theorem SparesMetadata.off (h : SparesMetadata base remote) {c : Change Bytes κ}
    (hc : c ∈ diffTrees base remote) : Off (· = dotDstore) (parts c.path) := by
  rintro n r hr rfl
  exact h c hc (by rw [hr]; rfl)

variable (hcwd : S.cwd ≠ []) (hroot : W.1.typeAt S.cwd = some .dir)
  (hnames : W.1.named (fun n => Proper n) = true) (hspare : SparesMetadata base remote)
  (hrep : NotReplaced S W.1 (diffTrees base remote))

include hcwd hroot hnames hspare hrep

theorem holds_apply_part {l : List (Change Bytes κ)} (hl : ∀ c ∈ l, c ∈ diffTrees base remote)
    (hdl : (l.map Change.path).Nodup) :
    Holds (fun s => s = St.start W) (apply S l) (fun _ => Stayed S (· = dotDstore) W.1)
      fun _ => Stayed S (· = dotDstore) W.1 :=
  holds_apply tmpName_ne (fun c hc => hspare.off (hl c hc)) hcwd hroot hnames hdl
    fun c hc k hk => hrep c (hl c hc) k (hl k hk)

theorem holds_pull {length : κ → ℕ} {syncedAt : ℤ} {force : Bool}
    (hd : ((diffTrees base remote).map Change.path).Nodup) :
    Holds (fun s => s = St.start W) (pull S length syncedAt force base (some remote))
      (fun _ => Stayed S (· = dotDstore) W.1) fun _ => Stayed S (· = dotDstore) W.1 := by
  have hstart : ∀ s, s = St.start W → Stayed S (· = dotDstore) W.1 s := by
    rintro s rfl
    nofun
  unfold pull
  dsimp only
  split_ifs
  · exact Holds.pure hstart
  refine Holds.bind (holds_disk (Q := fun _ s => s = St.start W) fun s hs => hs) fun D => ?_
  cases hres : resolved force (scan length syncedAt (listing S D) base) (diffTrees base remote) with
  | none => exact Holds.pure hstart
  | some l =>
    refine Holds.bind (holds_apply_part hcwd hroot hnames hspare hrep
      (fun c hc => ((mem_resolved hres).1 hc).1) (nodup_resolved hres hd)) fun _ => ?_
    exact Holds.pure fun s hs => hs

end kept

/-- Where base and remote do not differ at `.dstore` or below it, a clone or a pull leaves all of it
as it is, at every point of the run. -/
theorem metadata_kept (S : Setting κ) (W : Disk κ) (base remote : Dir κ) (hcwd : S.cwd ≠ [])
    (hroot : W.1.typeAt S.cwd = some .dir) (hnames : W.1.named (fun n => Proper n) = true)
    (hd : ((diffTrees base remote).map Change.path).Nodup) (hspare : SparesMetadata base remote)
    (hrep : NotReplaced S W.1 (diffTrees base remote)) (s : St κ) (hrun : Ran S W base remote s) :
    ∀ ev ∈ s.world.log, ∀ q,
      ev.disk.1.look (S.cwd ++ dotDstore :: q) = W.1.look (S.cwd ++ dotDstore :: q) := by
  have hstay : Stayed S (· = dotDstore) W.1 s := by
    cases hrun with
    | clone =>
      exact holds_ends (holds_apply_part hcwd hroot hnames hspare hrep (fun _ hc => hc) hd) rfl
    | pull => exact holds_ends (holds_pull hcwd hroot hnames hspare hrep hd) rfl
  exact fun ev hev q => (hstay ev hev).2 _ (.inr ⟨dotDstore, q, rfl, rfl⟩)

/-- A working copy that was just made. -/
def newCopy : Disk ℕ :=
  ⟨.dir ⟨0o755, 0, 0, 0, [], []⟩ (.cons [119] (.dir ⟨0o755, 0, 0, 0, [], []⟩
    (.cons dotDstore (.dir ⟨0o755, 0, 0, 0, [], []⟩
      (.cons [115] (.leaf ⟨0o600, 0, 0, 0, [], []⟩ (.reg 4)) .nil)) .nil)) .nil), rfl⟩

/-- A remote tree with one file. -/
def remoteFile (n : Name) : Dir ℕ := .cons n (.leaf ⟨0o644, 0, 0, 3, [], []⟩ (.reg 9)) .nil

/-- A remote file of that name takes the place of the metadata. -/
theorem metadata_replaced :
    let S : Setting ℕ := ownerSetting [[119]] (fun k => k) 0
    newCopy.1.look [[119], dotDstore, [115]] = some ⟨⟨0o600, 0, 0, 0, [], []⟩, some (.reg 4)⟩ ∧
    (ends (clone S (remoteFile dotDstore)) (St.start newCopy)).world.disk.1.look [[119], dotDstore]
      = some ⟨⟨0o644, 0, 0, 3, [], []⟩, some (.reg 9)⟩ ∧
    (ends (pull S (fun _ => 1) 0 false .nil (some (remoteFile dotDstore)))
        (St.start newCopy)).world.disk.1.look
      [[119], dotDstore, [115]] = none := by
  decide +kernel

/-- A remote file of another name is pulled beside the metadata. -/
theorem metadata_kept_beside :
    let S : Setting ℕ := ownerSetting [[119]] (fun k => k) 0
    let s := ends (pull S (fun _ => 1) 0 false .nil (some (remoteFile [120]))) (St.start newCopy)
    s.world.disk.1.look [[119], [120]] = some ⟨⟨0o644, 0, 0, 3, [], []⟩, some (.reg 9)⟩ ∧
    ∀ ev ∈ s.world.log, ∀ q,
      ev.disk.1.look (S.cwd ++ dotDstore :: q) = newCopy.1.look (S.cwd ++ dotDstore :: q) := by
  intro S s
  have hspare : SparesMetadata .nil (remoteFile [120]) := by
    have hall : ∀ c ∈ diffTrees .nil (remoteFile [120]), c.path = [120] ∧ c.kind = .added := by
      decide +kernel
    intro c hc
    rw [(hall c hc).1]
    decide +kernel
  have hrep : NotReplaced S newCopy.1 (diffTrees .nil (remoteFile [120])) := by
    have hall : ∀ c ∈ diffTrees .nil (remoteFile [120]), c.kind ≠ .deleted := by decide +kernel
    exact fun c hc _ _ hdel => absurd hdel (hall c hc)
  exact ⟨by decide +kernel, metadata_kept S newCopy .nil (remoteFile [120]) (by decide)
    (by decide +kernel) (by decide +kernel) (by decide +kernel) hspare hrep s (.pull _ _ _ _ _)⟩

end Dstore.Worktree
