import Dstore.Lib.PosixPaths

/-!
# What calls leave behind

What a call on a straight path does to the world: nothing, or one logged change of the object at the
literal path.
-/

namespace Posix

open FileTree

variable {κ : Type} {D : Disk κ} {base p q l : Path} {n : Name} {e : Entry κ} {t : ℤ} {m : Meta}

namespace Proc

variable {c : Path} {D' : Disk κ}

theorem look_stamp : (stamp t p D).1.look q
    = if q = p then (D.1.look q).map (Entry.onInfo fun m => { m with mtime := t }) else D.1.look q :=
  Disk.look_info

/-- A removal is seen at its path, and as a new mtime above. -/
theorem look_leave : (leave t (p ++ [n]) D).1.look q
    = if p ++ [n] <+: q then none
      else if q = p then (D.1.look q).map (Entry.onInfo fun m => { m with mtime := t })
      else D.1.look q := by
  unfold leave
  rw [List.dropLast_concat, look_stamp, Disk.look_prune (by simp)]
  by_cases hq : p ++ [n] <+: q
  · rw [if_pos hq, if_pos hq]
    split_ifs <;> rfl
  · rw [if_neg hq, if_neg hq]

end Proc

theorem typeAt_info {f : Meta → Meta} : (D.info p f).1.typeAt q = D.1.typeAt q := by
  unfold FTree.typeAt
  rw [Disk.look_info]
  split_ifs
  · rw [Option.map_map]
    rfl
  · rfl

theorem typeAt_enter (hd : D.1.typeAt p = some .dir) : (Proc.enter t (p ++ [n]) e D).1.typeAt q
    = if p ++ [n] <+: q then (if q = p ++ [n] then some e.type else none) else D.1.typeAt q := by
  obtain ⟨m, hm⟩ := FTree.typeAt_eq_dir.1 hd
  unfold Proc.enter Proc.stamp
  rw [typeAt_info, FTree.typeAt, Disk.look_plant hm]
  split_ifs <;> rfl

theorem typeAt_leave :
    (Proc.leave t (p ++ [n]) D).1.typeAt q = if p ++ [n] <+: q then none else D.1.typeAt q := by
  unfold Proc.leave Proc.stamp
  rw [typeAt_info, FTree.typeAt, Disk.look_prune (by simp)]
  split_ifs <;> rfl

/-! ### Outside a directory

What a process is to leave alone: everything outside its directory, and the entries of certain names
in it. -/

section outside

variable {keep : Name → Prop}

/-- The path does not begin with a name to be left alone. -/
def Off (keep : Name → Prop) (l : Path) : Prop := ∀ n r, l = n :: r → ¬ keep n

theorem Off.of_prefix (h : Off keep l) (hq : q <+: l) : Off keep q := by
  rintro n r rfl
  obtain ⟨s, rfl⟩ := hq
  exact h n (r ++ s) rfl

theorem Off.append (h : Off keep l) (hl : l ≠ []) : Off keep (l ++ q) := by
  obtain ⟨k, l, rfl⟩ := List.exists_cons_of_ne_nil hl
  rintro n r hr
  rw [← (List.cons.inj hr).1]
  exact h k l rfl

/-- A path the process may touch. -/
structure Allowed (keep : Name → Prop) (l : Path) : Prop where
  proper : ∀ n ∈ l, Proper n
  off : Off keep l

theorem Allowed.of_prefix (h : Allowed keep l) (hq : q <+: l) : Allowed keep q :=
  ⟨fun n hn => h.proper n (hq.subset hn), h.off.of_prefix hq⟩

theorem Allowed.append (h : Allowed keep l) (hl : l ≠ []) (hq : ∀ n ∈ q, Proper n) :
    Allowed keep (l ++ q) :=
  ⟨fun n hn => (List.mem_append.1 hn).elim (h.proper n) (hq n), h.off.append hl⟩

theorem Allowed.beside {d : Path} {k n : Name} (h : Allowed keep (d ++ [k])) (hn : Allowed keep [n]) :
    Allowed keep (d ++ [n]) := by
  rcases eq_or_ne d [] with rfl | hd
  · exact hn
  · exact (h.of_prefix (List.prefix_append d [k])).append hd hn.proper

/-- An object the process is to leave alone. -/
def Outside (base : Path) (keep : Name → Prop) (q : Path) : Prop :=
  ¬ base <+: q ∨ ∃ n r, keep n ∧ q = base ++ n :: r

/-- What the process is to leave alone is as it was. -/
def SameOutside (base : Path) (keep : Name → Prop) (D D' : FTree κ) : Prop :=
  ∀ q, Outside base keep q → D'.look q = D.look q

theorem SameOutside.refl {D : FTree κ} : SameOutside base keep D D := fun _ _ => rfl

theorem SameOutside.trans {D D' D'' : FTree κ} (h : SameOutside base keep D D')
    (h' : SameOutside base keep D' D'') : SameOutside base keep D D'' :=
  fun q hq => (h' q hq).trans (h q hq)

theorem Outside.ne (hq : Outside base keep q) (hk : Off keep l) : q ≠ base ++ l := by
  rintro rfl
  rcases hq with hq | ⟨n, r, hn, hr⟩
  · exact hq (List.prefix_append _ _)
  · exact hk n r (List.append_cancel_left hr) hn

theorem Outside.not_prefix (hq : Outside base keep q) (hk : Off keep l) (hl : l ≠ []) :
    ¬ base ++ l <+: q := by
  intro hp
  rcases hq with hq | ⟨n, r, hn, rfl⟩
  · exact hq ((List.prefix_append _ _).trans hp)
  · obtain ⟨k, l, rfl⟩ := List.exists_cons_of_ne_nil hl
    have hkl := (List.prefix_append_right_inj base).1 hp
    rw [List.cons_prefix_cons] at hkl
    exact hk k l rfl (hkl.1 ▸ hn)

variable (hk : Off keep l)

include hk

theorem sameOutside_info {f : Meta → Meta} : SameOutside base keep D.1 (D.info (base ++ l) f).1 := by
  intro q hq
  rw [Disk.look_info, if_neg (hq.ne hk)]

theorem sameOutside_plant (hl : l ≠ []) : SameOutside base keep D.1 (D.plant (base ++ l) e).1 :=
  fun _ hq => FTree.look_update_of_not_prefix D.2 (hq.not_prefix hk hl)

theorem sameOutside_prune (hl : l ≠ []) : SameOutside base keep D.1 (D.prune (base ++ l)).1 :=
  fun _ hq => FTree.look_update_of_not_prefix D.2 (hq.not_prefix hk hl)

theorem sameOutside_enter (hl : l ≠ []) :
    SameOutside base keep D.1 (Proc.enter t (base ++ l) e D).1 := by
  unfold Proc.enter Proc.stamp
  rw [List.dropLast_append_of_ne_nil hl]
  exact (sameOutside_plant hk hl).trans (sameOutside_info (hk.of_prefix (List.dropLast_prefix l)))

theorem sameOutside_leave (hl : l ≠ []) :
    SameOutside base keep D.1 (Proc.leave t (base ++ l) D).1 := by
  unfold Proc.leave Proc.stamp
  rw [List.dropLast_append_of_ne_nil hl]
  exact (sameOutside_prune hk hl).trans (sameOutside_info (hk.of_prefix (List.dropLast_prefix l)))

end outside

namespace Proc

variable {P : Proc κ} {w : World κ}

/-- A call on a path without links fails, or acts on the object the path names. -/
theorem act_cases (call : Call) (follow : Bool) (f : ℤ → Path → Disk κ → Except Errno (Disk κ))
    (hn : ∀ n ∈ l, Proper n) (hs : Straight w.disk.1 P.cwd l)
    (hf : follow = true → w.disk.1.typeAt (P.cwd ++ l) ≠ some .lnk) :
    (∃ e, P.act call follow l f w = (.error e, w)) ∨
    ∃ D, f (P.now w.log.length) (P.cwd ++ l) w.disk = .ok D ∧
      (∀ q n r, l = q ++ n :: r → w.disk.1.typeAt (P.cwd ++ q) = some .dir) ∧
      P.act call follow l f w = (.ok (), w.did call [(l, P.cwd ++ l)] D) := by
  unfold act
  cases hr : P.resolve follow l w.disk.1 with
  | error e => exact .inl ⟨e, rfl⟩
  | ok c =>
    obtain ⟨rfl, hdirs⟩ := resolve_ok hn hs hf hr
    cases hD : f (P.now w.log.length) (P.cwd ++ l) w.disk with
    | error e => exact .inl ⟨e, by dsimp only; rw [hD]⟩
    | ok D => exact .inr ⟨D, rfl, hdirs, by dsimp only; rw [hD]⟩

theorem making_ok {f : ℤ → Entry κ} (h : P.making f t c D = .ok D') :
    D.1.typeAt c = none ∧ D' = enter t c (f t) D := by
  unfold making at h
  split_ifs at h with h1 h2
  refine ⟨FTree.typeAt_eq_none.2 ?_, (Except.ok.inj h).symm⟩
  simpa using h1

theorem changing_ok {f : Meta → Meta} (h : P.changing f c D = .ok D') :
    D' = D.info c f := by
  unfold changing at h
  split_ifs at h
  exact (Except.ok.inj h).symm

theorem makingUnless_ok {no : Path → FTree κ → Option Errno} {f : ℤ → Entry κ}
    (h : P.makingUnless no f t c D = .ok D') :
    D.1.typeAt c = none ∧ D' = enter t c (f t) D := by
  unfold makingUnless at h
  split at h
  · cases h
  · exact making_ok h

/-- Only what has nothing below it is removed. -/
theorem removing_ok (h : P.removing t c D = .ok D') :
    ∃ s, D.1.at' c = some s ∧ s.kids = .nil ∧ D' = leave t c D := by
  unfold removing at h
  split at h
  · cases h
  · rename_i s hs
    split_ifs at h with h1 h2 h3
    exact ⟨s, hs, Dir.names_eq_nil.1 (not_not.1 h3), (Except.ok.inj h).symm⟩

theorem writing_ok {content : κ} (h : writing content t c D = .ok D') :
    ∃ m k, D.1.look c = some ⟨m, some (.reg k)⟩ ∧
      D' = D.plant c ⟨{ m with mtime := t }, some (.reg content)⟩ := by
  unfold writing at h
  split at h
  · exact ⟨_, _, ‹_›, (Except.ok.inj h).symm⟩
  · cases h

theorem typeAt_writing {content : κ} (h : writing content t c D = .ok D') (hc : c ≠ []) :
    D'.1.typeAt q = D.1.typeAt q := by
  obtain ⟨m, k, hlook, rfl⟩ := writing_ok h
  obtain ⟨d, n, rfl⟩ := (List.eq_nil_or_concat' c).resolve_left hc
  obtain ⟨m', hm'⟩ := FTree.dir_of_look hlook
  rw [FTree.typeAt, Disk.look_plant hm']
  by_cases hq : d ++ [n] <+: q
  · rw [if_pos hq]
    obtain ⟨r, rfl⟩ := hq
    cases r with
    | nil => rw [List.append_nil, if_pos rfl, FTree.typeAt, hlook]; rfl
    | cons n r =>
      rw [if_neg (by simp)]
      refine (FTree.typeAt_below ?_).symm
      rw [FTree.typeAt, hlook]
      nofun
  · rw [if_neg hq]
    rfl

theorem removing_noent (h : P.removing t c D = .error .noent) : D.1.typeAt c = none := by
  unfold removing at h
  split at h
  · rename_i hc
    exact FTree.typeAt_eq_none.2 (FTree.at'_none.1 hc)
  · split_ifs at h <;> cases h

/-- A removal that finds nothing changes nothing. -/
theorem remove_noent (hn : ∀ n ∈ l, Proper n) (hs : Straight w.disk.1 P.cwd l)
    (h : (P.remove l w).1 = .error .noent) :
    (P.remove l w).2 = w ∧ w.disk.1.typeAt (P.cwd ++ l) = none := by
  unfold remove act at h ⊢
  cases hr : P.resolve false l w.disk.1 with
  | error e =>
    rw [hr] at h
    cases h
    exact ⟨rfl, resolve_noent hn hs (by nofun) hr⟩
  | ok c =>
    obtain ⟨rfl, -⟩ := resolve_ok hn hs (by nofun) hr
    rw [hr] at h
    dsimp only at h ⊢
    cases hD : P.removing (P.now w.log.length) (P.cwd ++ l) w.disk with
    | error e =>
      rw [hD] at h
      cases h
      exact ⟨rfl, removing_noent hD⟩
    | ok D => rw [hD] at h; cases h

theorem remove_ok (hn : ∀ n ∈ l, Proper n) (hs : Straight w.disk.1 P.cwd l) (hl : l ≠ [])
    (h : (P.remove l w).1 = .ok ()) : (P.remove l w).2.disk.1.typeAt (P.cwd ++ l) = none := by
  rcases P.act_cases .remove false P.removing hn hs (by nofun) with
    ⟨e, he⟩ | ⟨D, hD, -, he⟩
  · rw [remove, he] at h
    cases h
  · obtain ⟨s, -, -, rfl⟩ := removing_ok hD
    rw [remove, he]
    show (leave _ (P.cwd ++ l) w.disk).1.typeAt (P.cwd ++ l) = none
    have hsplit : P.cwd ++ l = P.cwd ++ l.dropLast ++ [l.getLast hl] := by
      rw [List.append_assoc, List.dropLast_append_getLast]
    rw [hsplit, typeAt_leave, if_pos List.prefix_rfl]

theorem unlink_snd : (P.unlink l w).2 = (P.remove l w).2 := by
  unfold unlink
  split <;> rename_i h <;> rw [h]

/-- After an `unlink` without error the path is free. -/
theorem unlink_none (hn : ∀ n ∈ l, Proper n) (hs : Straight w.disk.1 P.cwd l) (hl : l ≠ [])
    (h : (P.unlink l w).1 = none) : (P.unlink l w).2.disk.1.typeAt (P.cwd ++ l) = none := by
  rw [unlink_snd]
  unfold unlink at h
  split at h
  · rename_i w' hw
    exact remove_ok hn hs hl (by rw [hw])
  · rename_i w' hw
    obtain ⟨h₁, h₂⟩ := remove_noent hn hs (by rw [hw])
    rw [h₁]
    exact h₂
  · cases h

/-- After `mkdir` there is a directory, new or old. -/
theorem mkdir_dir {mode : BitVec 12} (hn : ∀ n ∈ l, Proper n) (hs : Straight w.disk.1 P.cwd l)
    (hroot : w.disk.1.typeAt P.cwd ≠ none)
    (hty : w.disk.1.typeAt (P.cwd ++ l) = none ∨ w.disk.1.typeAt (P.cwd ++ l) = some .dir)
    (h : (P.mkdir l mode w).1 = .ok () ∨ (P.mkdir l mode w).1 = .error .exist) :
    (P.mkdir l mode w).2.disk.1.typeAt (P.cwd ++ l) = some .dir := by
  unfold mkdir act at h ⊢
  cases hr : P.resolve false l w.disk.1 with
  | error e =>
    rw [hr] at h
    rcases h with h | h <;> cases h
    rcases P.resolve_error hn hs (by nofun) hr with h | h | h <;> cases h
  | ok c =>
    obtain ⟨rfl, hdirs⟩ := resolve_ok hn hs (by nofun) hr
    rw [hr] at h
    dsimp only at h ⊢
    cases hD : P.making (fun t => ⟨P.born mode t, none⟩) (P.now w.log.length) (P.cwd ++ l) w.disk with
    | error e =>
      rw [hD] at h
      rcases h with h | h <;> cases h
      refine hty.resolve_left fun hnone => ?_
      unfold making at hD
      rw [FTree.typeAt_eq_none.1 hnone] at hD
      split_ifs at hD with h1
      · simp at h1
      · cases hD
    | ok D =>
      obtain ⟨hnew, rfl⟩ := making_ok hD
      have hl : l ≠ [] := by
        rintro rfl
        rw [List.append_nil] at hnew
        exact hroot hnew
      show (enter _ (P.cwd ++ l) _ w.disk).1.typeAt (P.cwd ++ l) = some .dir
      have hsplit : P.cwd ++ l = P.cwd ++ l.dropLast ++ [l.getLast hl] := by
        rw [List.append_assoc, List.dropLast_append_getLast]
      have hdir := hdirs l.dropLast (l.getLast hl) [] (List.dropLast_append_getLast hl).symm
      rw [hsplit, typeAt_enter hdir, if_pos List.prefix_rfl, if_pos rfl]
      rfl

end Proc

end Posix
