import Dstore.Worktree.Scan
import Dstore.Proofs.Worktree.Diff

/-!
# Status reports what push would ingest

Where every trusted file has the content of its base entry, the scan reads every entry as ingest
records it. The two walks, each with recursions of its own, then take the same decisions at every
pair of entries, and expand what one side alone has to the same changes.
-/

namespace Dstore.Worktree

open FileTree

variable {π κ : Type} {length : κ → ℕ} {syncedAt : ℤ} {join : π → Name → π}

/-- A file whose size and mtime are the base entry's, and whose base mtime lies before the racy
window, still has the base content. -/
def StatSound (length : κ → ℕ) (syncedAt : ℤ) (b e : Entry κ) : Prop :=
  ∀ x y, b.leaf = some (.reg x) → e.leaf = some (.reg y) → length y = length x →
    e.info.mtime = b.info.mtime → b.info.mtime ≤ syncedAt - racyWindow → y = x

/-- Unchanged stat data mean unchanged content, here and below. -/
def TreeSound (length : κ → ℕ) (syncedAt : ℤ) (x y : FTree κ) : Prop :=
  ∀ q b e, x.Occurs b q → y.Occurs e q → StatSound length syncedAt b e

/-- So for what is in a directory. -/
def DirSound (length : κ → ℕ) (syncedAt : ℤ) (a d : Dir κ) : Prop :=
  ∀ n q b e, a.Occurs b n q → d.Occurs e n q → StatSound length syncedAt b e

variable {y : FTree κ} {n : Name} {d : Dir κ}

/-- When a file is not read. -/
theorem trusted_iff {b e : Entry κ} : trusted length syncedAt b e = true ↔
    ∃ x y, b.leaf = some (.reg x) ∧ e.leaf = some (.reg y) ∧ length y = length x ∧
      e.info.mtime = b.info.mtime ∧ b.info.mtime ≤ syncedAt - racyWindow := by
  unfold trusted
  split
  · rename_i x y hb he
    simp [hb, he]
  · rename_i hno
    constructor
    · nofun
    · rintro ⟨x, y, hb, he, -⟩
      exact absurd he (hno x y hb)

theorem readEntry_eq {b e : Entry κ} (h : StatSound length syncedAt b e) :
    readEntry length syncedAt b e = e := by
  unfold readEntry
  by_cases ht : trusted length syncedAt b e = true
  · obtain ⟨x, y, hb, he, hlen, hm, hw⟩ := trusted_iff.1 ht
    rw [if_pos ht, hb, ← h x y hb he hlen hm hw, ← he]
  · rw [if_neg ht]

theorem TreeSound.kids {m : Meta} (h : TreeSound length syncedAt (.dir m d) y) :
    DirSound length syncedAt d y.kids := by
  intro n q b e hb he
  cases y with
  | leaf m' l' => exact he.elim
  | dir m' d' => exact h (n :: q) b e hb he

theorem DirSound.tail {x : FTree κ} {rest d : Dir κ}
    (h : DirSound length syncedAt (.cons n x rest) d) : DirSound length syncedAt rest d :=
  fun k q b e hb he => h k q b e (.inr hb) he

theorem DirSound.head {x y : FTree κ} {rest d : Dir κ}
    (h : DirSound length syncedAt (.cons n x rest) (.cons n y d)) : TreeSound length syncedAt x y :=
  fun q b e hb he => h n q b e (.inl ⟨rfl, hb⟩) (.inl ⟨rfl, he⟩)

theorem DirSound.skip {a d : Dir κ} (h : DirSound length syncedAt a (.cons n y d)) :
    DirSound length syncedAt a d :=
  fun k q b e hb he => h k q b e hb (.inr he)

theorem listDir_false : ∀ d : Dir κ, listDir false d = d
  | .nil => rfl
  | .cons n t rest => by
    rw [listDir, if_pos (by rfl), listDir_false rest]

/-- The listing at the root is what ingest records. -/
theorem listDir_true : ∀ d : Dir κ, listDir true d = ingest d
  | .nil => rfl
  | .cons n t rest => by
    have ih : listDir true rest = rest.without dotDstore := listDir_true rest
    rw [listDir, ingest, Dir.without, ih]
    by_cases hn : n = dotDstore <;> simp [listed, hn]

mutual

theorem added_eq : ∀ (t : FTree κ) (p : π), added join p t = expand join .added p t
  | .leaf m l, p => rfl
  | .dir m d, p => by
    rw [added, addedChildren_eq d p]
    rfl

theorem addedChildren_eq : ∀ (d : Dir κ) (p : π),
    addedChildren join p d = expandChildren join .added p d
  | .nil, p => rfl
  | .cons n t rest, p => by
    rw [addedChildren, if_pos (by rfl), added_eq t (join p n), addedChildren_eq rest p]
    rfl

end

theorem addedRest_eq (p : π) : ∀ d : Dir κ, addedRest join p d = expandChildren join .added p d
  | .nil => rfl
  | .cons k y disk => by
    rw [addedRest, added_eq, addedRest_eq p disk]
    rfl

/-- The scan's loop and the diff's take the same steps, where they agree at the entry both have and
behind it. -/
theorem dirLoop_eq {gone : List (Change π κ)} {p : π} {both both' : FTree κ → List (Change π κ)}
    {next next' : Dir κ → List (Change π κ)} {P : Dir κ → Prop}
    (hskip : ∀ k y rest, P (.cons k y rest) → P rest)
    (hboth : ∀ y rest, P (.cons n y rest) → both y = both' y) (hnext : ∀ d, P d → next d = next' d) :
    ∀ {d : Dir κ}, P d → dirLoop join p n gone both next d =
      walk gone (fun k y => expand join .added (join p k) y) both' next' n d
  | .nil, hd => by rw [dirLoop, walk, hnext _ hd]
  | .cons k y rest, hd => by
    unfold dirLoop walk
    by_cases hnk : n < k
    · rw [if_pos hnk, if_pos hnk, hnext _ hd]
    · rw [if_neg hnk, if_neg hnk]
      by_cases hkn : k < n
      · rw [if_pos hkn, if_pos hkn, added_eq, dirLoop_eq hskip hboth hnext (hskip _ _ _ hd)]
      · obtain rfl : n = k := le_antisymm (not_lt.1 hkn) (not_lt.1 hnk)
        rw [if_neg hkn, if_neg hkn, hboth _ _ hd, hnext _ (hskip _ _ _ hd)]

theorem walk_same {gone : List (Change π κ)} {new : Name → FTree κ → List (Change π κ)}
    {both : FTree κ → List (Change π κ)} {next : Dir κ → List (Change π κ)} {rest : Dir κ} :
    walk gone new both next n (.cons n y rest) = both y ++ next rest := by
  rw [walk, if_neg (lt_irrefl n), if_neg (lt_irrefl n)]

theorem TreeSound.entry {x y : FTree κ} (h : TreeSound length syncedAt x y) :
    readEntry length syncedAt x.entry y.entry = y.entry := by
  refine readEntry_eq (h [] _ _ ?_ ?_)
  · cases x <;> rfl
  · cases y <;> rfl

section equal

variable [DecidableEq κ]

mutual

theorem diffEntry_self : ∀ {x : FTree κ} {p : π}, diffEntry join p x x = []
  | .leaf m l, p => by simp [diffEntry, FTree.entry, compare_self]
  | .dir m d, p => by simp [diffEntry, FTree.entry, compare_self]

theorem diffDirs_self : ∀ {d : Dir κ} {p : π}, diffDirs join p d d = []
  | .nil, p => rfl
  | .cons n x rest, p => by rw [diffDirs, walk_same, diffEntry_self, diffDirs_self]; rfl

end

mutual

/-- Under sound stat data the scan is the difference. -/
theorem both_eq : ∀ {x y : FTree κ} {p : π}, TreeSound length syncedAt x y →
    both length syncedAt join p x y = diffEntry join p x y
  | .leaf m l, y, p, h => by
    have he : readEntry length syncedAt ⟨m, some l⟩ y.entry = y.entry := h.entry
    unfold both diffEntry
    rw [he, addedChildren_eq]
    by_cases ht : (⟨m, some l⟩ : Entry κ).type ≠ y.entry.type
    · rw [if_pos ht, compare_typeChanged.2 ht]
      rfl
    · rw [if_neg ht]
      cases hk : compare ⟨m, some l⟩ y.entry with
      | none => rfl
      | some k =>
        have hne : k ≠ .typeChanged := by
          rintro rfl
          exact ht (compare_typeChanged.1 hk)
        simp [hne]
  | .dir m d, y, p, h => by
    have he : readEntry length syncedAt ⟨m, none⟩ y.entry = y.entry := h.entry
    have hsub : scanDir length syncedAt join p d y.kids = diffDirs join p d y.kids := scanDir_eq h.kids
    unfold both diffEntry
    rw [he, listDir_false, hsub, addedChildren_eq]
    cases y with
    | leaf m' l' =>
      have ht : (⟨m, none⟩ : Entry κ).type ≠ (FTree.leaf m' l').entry.type := by cases l' <;> nofun
      rw [if_pos ht, compare_typeChanged.2 ht]
      simp
    | dir m' d' =>
      have ht : ¬ (⟨m, none⟩ : Entry κ).type ≠ (FTree.dir m' d').entry.type := fun h => h rfl
      have hd : diffDirs join p d (FTree.dir m' d').kids
          = if d = d' then [] else diffDirs join p d d' := by
        by_cases hd : d = d'
        · subst hd
          rw [if_pos rfl]
          exact diffDirs_self
        · rw [if_neg hd]
          rfl
      rw [if_neg ht, hd]
      congr 1
      cases hk : compare ⟨m, none⟩ (FTree.dir m' d').entry with
      | none => rfl
      | some k =>
        have hne : k ≠ .typeChanged := by
          rintro rfl
          exact ht (compare_typeChanged.1 hk)
        simp [hne]

theorem scanDir_eq : ∀ {a d : Dir κ} {p : π}, DirSound length syncedAt a d →
    scanDir length syncedAt join p a d = diffDirs join p a d
  | .nil, d, p, _ => addedRest_eq p d
  | .cons n x rest, d, p, h => by
    unfold scanDir diffDirs
    refine dirLoop_eq (P := fun d => DirSound length syncedAt (.cons n x rest) d)
      (fun k y r hd => hd.skip) (fun y r hd => both_eq hd.head) (fun d hd => scanDir_eq hd.tail) h

end

/-- Status reports what push would ingest: where every file that the scan takes as unchanged by its
size and mtime has the content of its base entry, the scan and the difference to the ingested tree
list the same paths with the same kinds. -/
theorem scan_eq_ingest (length : κ → ℕ) (syncedAt : ℤ) (disk base : Dir κ)
    (h : DirSound length syncedAt base (ingest disk)) :
    (scan length syncedAt disk base).map (fun c => (c.path, c.kind))
      = (diffTrees base (ingest disk)).map (fun c => (c.path, c.kind)) := by
  have heq : scan length syncedAt disk base = diffTrees base (ingest disk) := by
    unfold scan diffTrees
    rw [listDir_true, scanDir_eq h]
    by_cases hb : base = ingest disk
    · rw [if_pos hb, ← hb]
      exact diffDirs_self
    · rw [if_neg hb]
  rw [heq]

end equal

/-- A file left alone since the sync, one with a newer mtime and new content, and the metadata
directory. -/
theorem scan_eq_ingest_edited :
    let base : Dir ℕ := .cons [97] (.leaf ⟨0o644, 0, 0, 0, [], []⟩ (.reg 7))
      (.cons [98] (.leaf ⟨0o644, 0, 0, 0, [], []⟩ (.reg 8)) .nil)
    let disk : Dir ℕ := .cons dotDstore (.dir ⟨0o755, 0, 0, 9, [], []⟩ .nil)
      (.cons [97] (.leaf ⟨0o644, 0, 0, 0, [], []⟩ (.reg 7))
        (.cons [98] (.leaf ⟨0o644, 0, 0, 5, [], []⟩ (.reg 9)) .nil))
    DirSound (fun _ => 1) racyWindow base (ingest disk) ∧
      (scan (fun _ => 1) racyWindow disk base).map (fun c => (c.path, c.kind))
        = (diffTrees base (ingest disk)).map (fun c => (c.path, c.kind)) ∧
      (scan (fun _ => 1) racyWindow disk base).map (fun c => (c.path, c.kind)) =
        [([98], .modified)] := by
  intro base disk
  have h : DirSound (fun _ => 1) racyWindow base (ingest disk) := by
    rintro n q b e hb he x y hx hy - hm -
    have hd : ingest disk = .cons [97] (.leaf ⟨0o644, 0, 0, 0, [], []⟩ (.reg 7))
      (.cons [98] (.leaf ⟨0o644, 0, 0, 5, [], []⟩ (.reg 9)) .nil) := by decide +kernel
    rw [hd] at he
    cases q with
    | nil =>
      rcases hb with ⟨rfl, rfl⟩ | ⟨rfl, rfl⟩ | hb
      · rcases he with ⟨-, rfl⟩ | ⟨he, -⟩ | he
        · exact (Leaf.reg.inj (Option.some.inj (hx.symm.trans hy))).symm
        · cases he
        · exact he.elim
      · rcases he with ⟨he, -⟩ | ⟨-, rfl⟩ | he
        · cases he
        · cases hm
        · exact he.elim
      · exact hb.elim
    | cons k q =>
      rcases hb with ⟨-, hb⟩ | ⟨-, hb⟩ | hb <;> exact hb.elim
  exact ⟨h, scan_eq_ingest _ _ _ _ h, by decide +kernel⟩

end Dstore.Worktree
