import Dstore.Lib.FileTree

/-!
# Disks

A disk is a file tree whose directories list distinct names in order. Three operations change it:
`plant` puts a file or an empty directory at a path, `prune` removes a path with all below it, and
`info` changes the metadata at a path.
-/

namespace FileTree

variable {κ : Type}

/-- A tree whose directories are in order, so that no two entries have one name. -/
abbrev Disk (κ : Type) := { t : FTree κ // t.sorted = true }

namespace Entry

/-- A new file with this entry; a directory is empty. -/
def toTree (e : Entry κ) : FTree κ := match e.leaf with
  | some l => .leaf e.info l
  | none => .dir e.info .nil

/-- Change the metadata, and nothing else. -/
def onInfo (f : Meta → Meta) (e : Entry κ) : Entry κ := ⟨f e.info, e.leaf⟩

/-- The entry is a symbolic link. -/
def isLink (e : Entry κ) : Bool := e.type = .lnk

variable {e : Entry κ} {q : Path} {n : Name}

variable {p : Path} {n : Name}

@[simp] theorem entry_toTree : e.toTree.entry = e := by
  rcases e with ⟨m, _ | l⟩ <;> rfl

theorem look_toTree_cons : e.toTree.look (n :: q) = none := by
  rcases e with ⟨m, _ | l⟩ <;> rfl

theorem sorted_toTree : e.toTree.sorted = true := by
  rcases e with ⟨m, _ | l⟩ <;> rfl

end Entry

namespace FTree

def onInfo (f : Meta → Meta) : FTree κ → FTree κ
  | .leaf m l => .leaf (f m) l
  | .dir m d => .dir (f m) d

variable {f : Meta → Meta} {t : FTree κ} {q : Path} {n : Name}

@[simp] theorem entry_onInfo : (t.onInfo f).entry = t.entry.onInfo f := by
  cases t <;> rfl

@[simp] theorem kids_onInfo : (t.onInfo f).kids = t.kids := by
  cases t <;> rfl

theorem look_onInfo_cons : (t.onInfo f).look (n :: q) = t.look (n :: q) := by
  rw [look_cons, look_cons, kids_onInfo]

theorem sorted_onInfo (h : t.sorted = true) : (t.onInfo f).sorted = true := by
  cases t <;> exact h

/-- The type of the file at a path. -/
def typeAt (t : FTree κ) (p : Path) : Option FileType := (t.look p).map Entry.type

theorem typeAt_eq_none : t.typeAt p = none ↔ t.look p = none := Option.map_eq_none_iff

theorem typeAt_eq_dir : t.typeAt p = some .dir ↔ ∃ m, t.look p = some ⟨m, none⟩ := by
  unfold typeAt
  rw [Option.map_eq_some_iff]
  constructor
  · rintro ⟨⟨m, l⟩, he, ht⟩
    have hl : l = none := Entry.isDir_iff.1 (decide_eq_true ht)
    exact ⟨m, hl ▸ he⟩
  · rintro ⟨m, he⟩
    exact ⟨_, he, rfl⟩

/-- What is above a file is a directory. -/
theorem typeAt_above (h : t.typeAt (p ++ n :: q) ≠ none) : t.typeAt p = some .dir := by
  obtain ⟨e, he⟩ := Option.ne_none_iff_exists'.1 (mt typeAt_eq_none.2 h)
  exact typeAt_eq_dir.2 (dir_of_look he)

theorem typeAt_below (h : t.typeAt p ≠ some .dir) : t.typeAt (p ++ n :: q) = none := by
  by_contra hne
  exact h (typeAt_above hne)

theorem at'_none : at' p t = none ↔ t.look p = none := by
  unfold look
  exact Option.map_eq_none_iff.symm

end FTree

namespace Disk

/-- Put a new file at a path. -/
def plant (c : Path) (e : Entry κ) (D : Disk κ) : Disk κ :=
  ⟨D.1.update (fun _ => some e.toTree) c, FTree.sorted_update D.2 fun _ _ _ h => by
    rw [← Option.some.inj h]
    exact Entry.sorted_toTree⟩

/-- Take the file at a path away. -/
def prune (c : Path) (D : Disk κ) : Disk κ :=
  ⟨D.1.update (fun _ => none) c, FTree.sorted_update D.2 fun _ _ _ h => by cases h⟩

/-- Change the metadata of the file at a path. -/
def info (c : Path) (f : Meta → Meta) (D : Disk κ) : Disk κ :=
  ⟨D.1.update (Option.map (FTree.onInfo f)) c, FTree.sorted_update D.2 fun o s ho h => by
    obtain ⟨t, rfl, rfl⟩ := Option.map_eq_some_iff.1 h
    exact FTree.sorted_onInfo (ho t rfl)⟩

variable {D : Disk κ} {c q : Path} {e : Entry κ} {f : Meta → Meta}

/-- Nothing comes into being below what is no directory. -/
theorem look_update_of_not_dir {g : Option (FTree κ) → Option (FTree κ)} {p r : Path}
    (h : ∀ m, D.1.look p ≠ some ⟨m, none⟩) :
    (D.1.update g (p ++ [n])).look (p ++ n :: r) = none ∧ D.1.look (p ++ n :: r) = none := by
  refine ⟨FTree.look_below fun m => ?_, FTree.look_below h⟩
  rw [FTree.look_update_of_not_prefix D.2]
  · exact h m
  · intro hp
    have := hp.length_le
    rw [List.length_append, List.length_singleton] at this
    omega

theorem eq_append_of_prefix (h : p ++ [n] <+: q) : ∃ r, q = p ++ n :: r := by
  obtain ⟨r, rfl⟩ := h
  exact ⟨r, by simp⟩

/-- Pruning takes the path away, with all below it. -/
theorem look_prune (hc : c ≠ []) :
    (D.prune c).1.look q = if c <+: q then none else D.1.look q := by
  obtain ⟨p, n, rfl⟩ := (List.eq_nil_or_concat' c).resolve_left hc
  by_cases hq : p ++ [n] <+: q
  · rw [if_pos hq]
    obtain ⟨r, rfl⟩ := eq_append_of_prefix hq
    by_cases hd : ∃ m, D.1.look p = some ⟨m, none⟩
    · obtain ⟨m, hm⟩ := hd
      exact FTree.look_update_append D.2 hm
    · exact (look_update_of_not_dir fun m hm => hd ⟨m, hm⟩).1
  · rw [if_neg hq]
    exact FTree.look_update_of_not_prefix D.2 hq

/-- A planted file is what stands at its path, with nothing below it. -/
theorem look_plant {m : Meta} (hd : D.1.look p = some ⟨m, none⟩) :
    (D.plant (p ++ [n]) e).1.look q
      = if p ++ [n] <+: q then (if q = p ++ [n] then some e else none) else D.1.look q := by
  by_cases hq : p ++ [n] <+: q
  · rw [if_pos hq]
    obtain ⟨r, rfl⟩ := eq_append_of_prefix hq
    have h := FTree.look_update_append (f := fun _ => some e.toTree) (n := n) (q := r) D.2 hd
    refine h.trans ?_
    rw [Option.bind_some]
    cases r with
    | nil => simp
    | cons k r =>
      rw [if_neg (by simp)]
      exact Entry.look_toTree_cons
  · rw [if_neg hq]
    exact FTree.look_update_of_not_prefix D.2 hq

/-- New metadata are seen at their path only. -/
theorem look_info :
    (D.info c f).1.look q = if q = c then (D.1.look q).map (Entry.onInfo f) else D.1.look q := by
  rcases List.eq_nil_or_concat' c with rfl | ⟨p, n, rfl⟩
  · show ((Option.map (FTree.onInfo f) (some D.1)).getD D.1).look q = _
    cases q with
    | nil => simp
    | cons k q =>
      rw [if_neg (List.cons_ne_nil _ _)]
      exact FTree.look_onInfo_cons
  · by_cases hq : p ++ [n] <+: q
    · obtain ⟨r, rfl⟩ := eq_append_of_prefix hq
      by_cases hd : ∃ m, D.1.look p = some ⟨m, none⟩
      · obtain ⟨m, hm⟩ := hd
        have h := FTree.look_update_append (f := Option.map (FTree.onInfo f)) (n := n) (q := r) D.2 hm
        refine h.trans ?_
        have hsplit : p ++ n :: r = (p ++ [n]) ++ r := by simp
        cases hs : FTree.at' (p ++ [n]) D.1 with
        | none => rw [hsplit, FTree.look_append, hs]; simp
        | some s =>
          rw [hsplit, FTree.look_append, hs, Option.map_some, Option.bind_some, Option.bind_some]
          cases r with
          | nil => simp
          | cons k r =>
            rw [if_neg (by simp)]
            exact FTree.look_onInfo_cons
      · obtain ⟨h₁, h₂⟩ := look_update_of_not_dir (g := Option.map (FTree.onInfo f)) (n := n) (r := r)
          fun m hm => hd ⟨m, hm⟩
        rw [h₂]
        refine h₁.trans ?_
        simp
    · have hne : q ≠ p ++ [n] := fun h => hq (h ▸ List.prefix_rfl)
      rw [if_neg hne]
      exact FTree.look_update_of_not_prefix D.2 hq

end Disk

end FileTree
