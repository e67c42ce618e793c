import Dstore.Proofs.Worktree.Diff

/-!
# Paths as strings

A component path is spelled with `/` between its names. Names that are not empty and do not have the
separator can be read off the spelling again.
-/

namespace Dstore.Worktree

open FileTree

/-- A path with slashes. -/
def spell (p : Path) : Bytes := p.foldl joinPath []

/-- A name without slash. -/
def NameOk (n : Name) : Prop := n ≠ [] ∧ 47 ∉ n

instance (n : Name) : Decidable (NameOk n) := inferInstanceAs (Decidable (_ ∧ _))

@[simp] theorem spell_snoc (p : Path) (n : Name) : spell (snoc p n) = joinPath (spell p) n := by
  simp [spell, snoc]

section natural

variable {κ π π' : Type} (f : π → π')

/-- The change under another kind of path. -/
def Change.mapPath (c : Change π κ) : Change π' κ := ⟨f c.path, c.kind, c.old, c.new⟩

variable {join : π → Name → π} {join' : π' → Name → π'} {f}

@[simp] theorem mapPath_single {kind : Kind} {p : π} {e : Entry κ} :
    (single kind p e).mapPath f = single kind (f p) e := by
  unfold single
  split_ifs <;> rfl

mutual

theorem map_expand (hf : ∀ p n, f (join p n) = join' (f p) n) {kind : Kind} :
    ∀ {t : FTree κ} {p : π},
      (expand join kind p t).map (Change.mapPath f) = expand join' kind (f p) t
  | .leaf m l, p => by simp [expand]
  | .dir m d, p => by simp [expand, map_expandChildren hf]

theorem map_expandChildren (hf : ∀ p n, f (join p n) = join' (f p) n) {kind : Kind} :
    ∀ {d : Dir κ} {p : π},
      (expandChildren join kind p d).map (Change.mapPath f) = expandChildren join' kind (f p) d
  | .nil, p => rfl
  | .cons n t rest, p => by
    rw [expandChildren, expandChildren, List.map_append, map_expand hf, map_expandChildren hf, hf]

end

theorem map_walk {gone : List (Change π κ)} {new : Name → FTree κ → List (Change π κ)}
    {both : FTree κ → List (Change π κ)} {next : Dir κ → List (Change π κ)} {n : Name} :
    ∀ {b : Dir κ}, (walk gone new both next n b).map (Change.mapPath f)
      = walk (gone.map (Change.mapPath f)) (fun k y => (new k y).map (Change.mapPath f))
          (fun y => (both y).map (Change.mapPath f)) (fun b => (next b).map (Change.mapPath f)) n b
  | .nil => by simp [walk]
  | .cons k y rest => by
    unfold walk
    split_ifs
    · rw [List.map_append]
    · rw [List.map_append, map_walk]
    · rw [List.map_append]

variable [DecidableEq κ]

mutual

theorem map_diffEntry (hf : ∀ p n, f (join p n) = join' (f p) n) : ∀ {x y : FTree κ} {p : π},
    (diffEntry join p x y).map (Change.mapPath f) = diffEntry join' (f p) x y
  | .leaf m l, y, p => by
    unfold diffEntry
    cases compare ⟨m, some l⟩ y.entry with
    | none => rfl
    | some k =>
      by_cases hk : k = .typeChanged <;> simp [hk, map_expandChildren hf, Change.mapPath]
  | .dir m d, y, p => by
    unfold diffEntry
    rw [List.map_append]
    congr 1
    · cases compare ⟨m, none⟩ y.entry with
      | none => rfl
      | some k =>
        by_cases hk : k = .typeChanged <;> simp [hk, map_expandChildren hf, Change.mapPath]
    · cases y with
      | leaf m' l' => rfl
      | dir m' d' =>
        by_cases hd : d = d'
        · simp [hd]
        · simp [hd, map_diffDirs hf]

/-- The walk does not depend on how paths are written. -/
theorem map_diffDirs (hf : ∀ p n, f (join p n) = join' (f p) n) : ∀ {a b : Dir κ} {p : π},
    (diffDirs join p a b).map (Change.mapPath f) = diffDirs join' (f p) a b
  | .nil, b, p => map_expandChildren hf
  | .cons n x rest, b, p => by
    unfold diffDirs
    rw [map_walk, map_expand hf, hf]
    have hnew : (fun k y => (expand join .added (join p k) y).map (Change.mapPath f))
        = fun k (y : FTree κ) => expand join' .added (join' (f p) k) y := by
      funext k y
      rw [map_expand hf, hf]
    have hboth : (fun y => (diffEntry join (join p n) x y).map (Change.mapPath f))
        = diffEntry join' (join' (f p) n) x := by
      funext y
      rw [map_diffEntry hf, hf]
    have hnext : (fun b => (diffDirs join p rest b).map (Change.mapPath f))
        = diffDirs join' (f p) rest := by
      funext b
      exact map_diffDirs hf
    rw [hnew, hboth, hnext]

end

/-- The difference by lists of names. -/
def diffPaths (a b : Dir κ) : List (Change Path κ) := if a = b then [] else diffDirs snoc [] a b

theorem diffTrees_eq (a b : Dir κ) : diffTrees a b = (diffPaths a b).map (Change.mapPath spell) := by
  unfold diffTrees diffPaths
  split_ifs
  · rfl
  · rw [map_diffDirs spell_snoc]
    rfl

variable {a b : Dir κ}

/-- The difference of two trees, path by path. -/
theorem mem_diffPaths (ha : a.sorted = true) (hb : b.sorted = true) {c : Change Path κ} :
    c ∈ diffPaths a b ↔ ∃ k, classify (a.look c.path) (b.look c.path) = some k ∧
      c = ⟨c.path, k, a.look c.path, b.look c.path⟩ := by
  have hd : c ∈ diffPaths a b ↔ Differs [] a.look b.look c := by
    unfold diffPaths
    by_cases hab : a = b
    · subst hab
      simp [not_differs_self]
    · rw [if_neg hab, mem_diffDirs ha hb]
  rw [hd]
  constructor
  · rintro ⟨q, k, hk, rfl⟩
    exact ⟨k, hk, rfl⟩
  · rintro ⟨k, hk, hc⟩
    exact ⟨c.path, k, hk, by simpa using hc⟩

theorem ordered_diffPaths (ha : a.sorted = true) (hb : b.sorted = true) :
    Ordered (diffPaths a b) := by
  unfold diffPaths
  split_ifs
  · exact List.Pairwise.nil
  · exact ordered_diffDirs ha hb

end natural

/-- A path with a slash in front of each name. -/
def spellTail (p : Path) : Bytes := p.flatMap fun n => 47 :: n

theorem foldl_joinPath {pre : Bytes} (hpre : pre ≠ []) (p : Path) :
    p.foldl joinPath pre = pre ++ spellTail p := by
  induction p generalizing pre with
  | nil => simp [spellTail]
  | cons n p ih =>
    rw [List.foldl_cons, joinPath, if_neg hpre, ih (by simp)]
    simp [spellTail]

theorem spell_cons {n : Name} (hn : n ≠ []) (p : Path) : spell (n :: p) = n ++ spellTail p := by
  rw [spell, List.foldl_cons, joinPath, if_pos rfl, foldl_joinPath hn]

theorem spell_append {p : Path} (hp : ∀ n ∈ p, NameOk n) (hne : p ≠ []) (q : Path) :
    spell (p ++ q) = spell p ++ spellTail q := by
  obtain ⟨n, p, rfl⟩ := List.exists_cons_of_ne_nil hne
  have hn := (hp n List.mem_cons_self).1
  rw [List.cons_append, spell_cons hn, spell_cons hn]
  simp [spellTail]

end Dstore.Worktree
