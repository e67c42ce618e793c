import Dstore.Lib.PosixCalls

/-!
# A process that stays in its directory

`Confined` says of a world that every logged call reached the object at the literal path it was
given, below the process's directory, and that nothing outside has changed. It is kept by calls on
paths that lead through no link.
-/

namespace Posix

open FileTree

variable {κ : Type} {W : FTree κ} {p l : Path} {free solid : Path → Prop} {w : World κ} {cwd : Path}
  {keep : Name → Prop}

/-- Every call so far has stayed below `cwd`, on literal paths. -/
structure Confined (cwd : Path) (keep : Name → Prop) (W : FTree κ) (p : Path)
    (free solid : Path → Prop) (w : World κ) : Prop where
  logged : ∀ ev ∈ w.log, (∀ a ∈ ev.touched, a.2 = cwd ++ a.1) ∧ SameOutside cwd keep W ev.disk.1
  outside : SameOutside cwd keep W w.disk.1
  root : w.disk.1.typeAt cwd = some .dir
  names : ∀ q, w.disk.1.typeAt q ≠ none → ∀ n ∈ q, Proper n
  plain : Plain w.disk.1 cwd p
  free_ne : ∀ d, free d → ∀ q, q <+: d → w.disk.1.typeAt (cwd ++ q) ≠ some .lnk
  solid_dir : ∀ d, solid d → ∀ q, q <+: d → w.disk.1.typeAt (cwd ++ q) = some .dir

variable {call : Call} {d : Path}

theorem prefix_iff_append {q : Path} : cwd ++ l <+: cwd ++ q ↔ l <+: q :=
  List.prefix_append_right_inj cwd

theorem not_append_prefix_self (hl : l ≠ []) : ¬ cwd ++ l <+: cwd := by
  intro h
  have := h.length_le
  rw [List.length_append] at this
  have : l.length ≠ 0 := fun h0 => hl (List.eq_nil_of_length_eq_zero h0)
  omega

namespace Confined

theorem logged_did (h : Confined cwd keep W p free solid w) {touched : List (Path × Path)}
    {D : Disk κ} (ht : ∀ a ∈ touched, a.2 = cwd ++ a.1) (ho : SameOutside cwd keep w.disk.1 D.1) :
    ∀ ev ∈ (w.did call touched D).log,
      (∀ a ∈ ev.touched, a.2 = cwd ++ a.1) ∧ SameOutside cwd keep W ev.disk.1 := by
  intro ev hev
  rcases List.mem_cons.1 hev with rfl | hev
  · exact ⟨ht, h.outside.trans ho⟩
  · exact h.logged ev hev

theorem same (h : Confined cwd keep W p free solid w) {D : Disk κ}
    (ho : SameOutside cwd keep w.disk.1 D.1) (ht : ∀ q, D.1.typeAt q = w.disk.1.typeAt q) :
    Confined cwd keep W p free solid (w.did call [(l, cwd ++ l)] D) where
  logged := h.logged_did (by simp) ho
  outside := h.outside.trans ho
  root := (ht _).trans h.root
  names q hq := h.names q (ht q ▸ hq)
  plain q n r hp := (ht (cwd ++ q)).symm ▸ h.plain q n r hp
  free_ne d hd q hq := (ht (cwd ++ q)).symm ▸ h.free_ne d hd q hq
  solid_dir d hd q hq := (ht (cwd ++ q)).trans (h.solid_dir d hd q hq)

theorem names_of (h : Confined cwd keep W p free solid w) : ∀ n ∈ cwd, Proper n :=
  h.names cwd (by rw [h.root]; nofun)

/-- A new file inside keeps the process confined. -/
theorem made (h : Confined cwd keep W p free solid w) (call : Call) (t : ℤ) (e : Entry κ) (hl : l ≠ [])
    (hn : Allowed keep l) (hnew : w.disk.1.typeAt (cwd ++ l) ≠ some .dir)
    (hdir : w.disk.1.typeAt (cwd ++ l.dropLast) = some .dir)
    (hp : ∀ n r, p = l ++ n :: r → e.type = .dir)
    (hf : e.type = .lnk → ∀ d, free d → ¬ l <+: d) :
    Confined cwd keep W p free solid
      (w.did call [(l, cwd ++ l)] (Proc.enter t (cwd ++ l) e w.disk)) := by
  have hsplit : cwd ++ l = cwd ++ l.dropLast ++ [l.getLast hl] := by
    rw [List.append_assoc, List.dropLast_append_getLast]
  have hty : ∀ q, (Proc.enter t (cwd ++ l) e w.disk).1.typeAt q
      = if q = cwd ++ l then some e.type else w.disk.1.typeAt q := by
    intro q
    rw [hsplit, typeAt_enter hdir, ← hsplit]
    by_cases hq : cwd ++ l <+: q
    · rw [if_pos hq]
      by_cases hql : q = cwd ++ l
      · rw [if_pos hql, if_pos hql]
      · rw [if_neg hql, if_neg hql]
        obtain ⟨r, rfl⟩ := hq
        have hr : r ≠ [] := fun h0 => hql (by rw [h0, List.append_nil])
        obtain ⟨n, r, rfl⟩ := List.exists_cons_of_ne_nil hr
        exact (FTree.typeAt_below hnew).symm
    · have hql : q ≠ cwd ++ l := fun h0 => hq (h0 ▸ List.prefix_rfl)
      rw [if_neg hq, if_neg hql]
  constructor
  · exact h.logged_did (by simp) (sameOutside_enter hn.off hl)
  · exact h.outside.trans (sameOutside_enter hn.off hl)
  · refine (hty cwd).trans ?_
    rw [if_neg, h.root]
    intro h0
    exact hl (by simpa using h0.symm)
  · intro q hq
    have hq' : (if q = cwd ++ l then some e.type else w.disk.1.typeAt q) ≠ none := hty q ▸ hq
    by_cases hql : q = cwd ++ l
    · intro n hnq
      rw [hql] at hnq
      rcases List.mem_append.1 hnq with hnq | hnq
      · exact h.names_of n hnq
      · exact hn.proper n hnq
    · rw [if_neg hql] at hq'
      exact h.names q hq'
  · intro q n r hpq
    show (Proc.enter t (cwd ++ l) e w.disk).1.typeAt (cwd ++ q) = none ∨
      (Proc.enter t (cwd ++ l) e w.disk).1.typeAt (cwd ++ q) = some .dir
    rw [hty]
    by_cases hql : q = l
    · subst hql
      rw [if_pos rfl, hp n r hpq]
      exact .inr rfl
    · rw [if_neg (by simpa using hql)]
      exact h.plain q n r hpq
  · intro d hd q hq
    show (Proc.enter t (cwd ++ l) e w.disk).1.typeAt (cwd ++ q) ≠ some .lnk
    rw [hty]
    by_cases hql : q = l
    · subst hql
      rw [if_pos rfl]
      exact fun h0 => hf (Option.some.inj h0) d hd hq
    · rw [if_neg (by simpa using hql)]
      exact h.free_ne d hd q hq
  · intro d hd q hq
    show (Proc.enter t (cwd ++ l) e w.disk).1.typeAt (cwd ++ q) = some .dir
    have hq' := h.solid_dir d hd q hq
    rw [hty, if_neg, hq']
    intro h0
    exact hnew (h0 ▸ hq')

theorem removed (h : Confined cwd keep W p free solid w) {t : ℤ} (hl : l ≠ []) (hn : Allowed keep l)
    (hs : ∀ d, solid d → ¬ l <+: d) :
    Confined cwd keep W p free solid (w.did call [(l, cwd ++ l)] (Proc.leave t (cwd ++ l) w.disk)) := by
  have hsplit : cwd ++ l = cwd ++ l.dropLast ++ [l.getLast hl] := by
    rw [List.append_assoc, List.dropLast_append_getLast]
  have hty : ∀ q, (Proc.leave t (cwd ++ l) w.disk).1.typeAt q
      = if cwd ++ l <+: q then none else w.disk.1.typeAt q := by
    intro q
    rw [hsplit, typeAt_leave]
  constructor
  · exact h.logged_did (by simp) (sameOutside_leave hn.off hl)
  · exact h.outside.trans (sameOutside_leave hn.off hl)
  · refine (hty cwd).trans ?_
    rw [if_neg (not_append_prefix_self hl), h.root]
  · intro q hq
    have hq' : (if cwd ++ l <+: q then none else w.disk.1.typeAt q) ≠ none := hty q ▸ hq
    split_ifs at hq'
    · exact absurd rfl hq'
    · exact h.names q hq'
  · intro q n r hpq
    show (Proc.leave t (cwd ++ l) w.disk).1.typeAt (cwd ++ q) = none ∨
      (Proc.leave t (cwd ++ l) w.disk).1.typeAt (cwd ++ q) = some .dir
    rw [hty]
    split_ifs
    · exact .inl rfl
    · exact h.plain q n r hpq
  · intro d hd q hq
    show (Proc.leave t (cwd ++ l) w.disk).1.typeAt (cwd ++ q) ≠ some .lnk
    rw [hty]
    split_ifs
    · nofun
    · exact h.free_ne d hd q hq
  · intro d hd q hq
    show (Proc.leave t (cwd ++ l) w.disk).1.typeAt (cwd ++ q) = some .dir
    rw [hty, if_neg, h.solid_dir d hd q hq]
    exact fun h0 => hs d hd ((prefix_iff_append.1 h0).trans hq)

theorem weaken {p' : Path} {free' solid' : Path → Prop} (h : Confined cwd keep W p free solid w)
    (hp : Plain w.disk.1 cwd p') (hf : ∀ d, free' d → ∀ q, q <+: d →
      w.disk.1.typeAt (cwd ++ q) ≠ some .lnk) (hs : ∀ d, solid' d → solid d) :
    Confined cwd keep W p' free' solid' w :=
  ⟨h.logged, h.outside, h.root, h.names, hp, hf, fun d hd => h.solid_dir d (hs d hd)⟩

theorem relog {w' : World κ} (h : Confined cwd keep W p free solid w) (hd : w'.disk = w.disk)
    (hl : ∀ ev ∈ w'.log, (∀ a ∈ ev.touched, a.2 = cwd ++ a.1) ∧ SameOutside cwd keep W ev.disk.1) :
    Confined cwd keep W p free solid w' :=
  ⟨hl, hd ▸ h.outside, hd ▸ h.root, hd ▸ h.names, hd ▸ h.plain, hd ▸ h.free_ne, hd ▸ h.solid_dir⟩

end Confined

section calls

variable {P : Proc κ} {follow : Bool}

theorem dir_dropLast {D : FTree κ} (hl : l ≠ [])
    (h : ∀ q n r, l = q ++ n :: r → D.typeAt (cwd ++ q) = some .dir) :
    D.typeAt (cwd ++ l.dropLast) = some .dir :=
  h l.dropLast (l.getLast hl) [] (List.dropLast_append_getLast hl).symm

namespace Confined

variable (h : Confined P.cwd keep W p free solid w) (hn : Allowed keep l)

include h hn

theorem ne_nil (hnew : w.disk.1.typeAt (P.cwd ++ l) = none) : l ≠ [] := by
  rintro rfl
  rw [List.append_nil, h.root] at hnew
  cases hnew

theorem changing {f : ℤ → Path → Disk κ → Except Errno (Disk κ)} (hs : Straight w.disk.1 P.cwd l)
    (hf : follow = true → w.disk.1.typeAt (P.cwd ++ l) ≠ some .lnk)
    (hok : ∀ t c D D', f t c D = .ok D' → ∃ g, D' = D.info c g) :
    Confined P.cwd keep W p free solid (P.act call follow l f w).2 := by
  rcases P.act_cases call follow f hn.proper hs hf with ⟨e, he⟩ | ⟨D, hD, -, he⟩
  · rw [he]
    exact h
  · obtain ⟨g, rfl⟩ := hok _ _ _ _ hD
    rw [he]
    exact h.same (sameOutside_info hn.off) fun q => typeAt_info

theorem chmod {mode : BitVec 12} (hs : Straight w.disk.1 P.cwd l)
    (hf : w.disk.1.typeAt (P.cwd ++ l) ≠ some .lnk) :
    Confined P.cwd keep W p free solid (P.chmod l mode w).2 :=
  h.changing hn hs (fun _ => hf) fun _ _ _ _ hD => ⟨_, Proc.changing_ok hD⟩

theorem utimes {t : ℤ} (hs : Straight w.disk.1 P.cwd l)
    (hf : follow = true → w.disk.1.typeAt (P.cwd ++ l) ≠ some .lnk) :
    Confined P.cwd keep W p free solid (P.utimes follow l t w).2 :=
  h.changing hn hs hf fun _ _ _ _ hD => ⟨_, Proc.changing_ok hD⟩

theorem lchown {uid gid : ℕ} (hs : Straight w.disk.1 P.cwd l) :
    Confined P.cwd keep W p free solid (P.lchown l uid gid w).2 :=
  h.changing hn hs (by nofun) fun _ _ _ _ hD => ⟨_, Proc.changing_ok hD⟩

/-- A call that makes a file where there is none. -/
theorem making {f : ℤ → Path → Disk κ → Except Errno (Disk κ)} {e : ℤ → Entry κ}
    (hok : ∀ t c D D', f t c D = .ok D' → D.1.typeAt c = none ∧ D' = Proc.enter t c (e t) D)
    (hs : Straight w.disk.1 P.cwd l) (hp : ∀ t n r, p = l ++ n :: r → (e t).type = .dir)
    (hf : ∀ t, (e t).type = .lnk → ∀ d, free d → ¬ l <+: d) :
    Confined P.cwd keep W p free solid (P.act call false l f w).2 := by
  rcases P.act_cases call false f hn.proper hs (by nofun) with ⟨e, he⟩ | ⟨D, hD, hdirs, he⟩
  · rw [he]
    exact h
  · obtain ⟨hnew, rfl⟩ := hok _ _ _ _ hD
    have hl := h.ne_nil hn hnew
    rw [he]
    exact h.made _ _ _ hl hn (by rw [hnew]; nofun) (dir_dropLast hl hdirs) (hp _) (hf _)

theorem mkdir {mode : BitVec 12} (hs : Straight w.disk.1 P.cwd l) :
    Confined P.cwd keep W p free solid (P.mkdir l mode w).2 :=
  h.making hn (fun _ _ _ _ hD => Proc.making_ok hD) hs (fun _ _ _ _ => rfl) (by nofun)

theorem remove (hl : l ≠ []) (hs : Straight w.disk.1 P.cwd l) (hsol : ∀ d, solid d → ¬ l <+: d) :
    Confined P.cwd keep W p free solid (P.remove l w).2 := by
  rcases P.act_cases .remove false P.removing hn.proper hs (by nofun) with
    ⟨e, he⟩ | ⟨D, hD, -, he⟩
  · rw [Proc.remove, he]
    exact h
  · obtain ⟨s, -, -, rfl⟩ := Proc.removing_ok hD
    rw [Proc.remove, he]
    exact h.removed hl hn hsol

theorem write (content : κ) (hl : l ≠ []) (hs : Straight w.disk.1 P.cwd l) :
    Confined P.cwd keep W p free solid (P.write l content w).2 ∧
      ∀ q, (P.write l content w).2.disk.1.typeAt q = w.disk.1.typeAt q := by
  rcases P.act_cases .write false (Proc.writing content) hn.proper hs (by nofun) with
    ⟨e, he⟩ | ⟨D, hD, -, he⟩
  · rw [Proc.write, he]
    exact ⟨h, fun _ => rfl⟩
  · have ht : ∀ q, D.1.typeAt q = w.disk.1.typeAt q := fun q =>
      Proc.typeAt_writing hD (by simp [hl])
    obtain ⟨m, k, -, rfl⟩ := Proc.writing_ok hD
    rw [Proc.write, he]
    exact ⟨h.same (sameOutside_plant hn.off hl) ht, ht⟩

end Confined

namespace Confined

variable (h : Confined P.cwd keep W p free solid w)

include h

theorem straight_isPrefix {q : Path} (hq : q <+: p) : Straight w.disk.1 P.cwd q := by
  obtain ⟨r, rfl⟩ := hq
  cases r with
  | nil => rw [List.append_nil] at h; exact h.plain.straight
  | cons n r => exact (h.plain.append).straight

/-- `mkdirAll` of what is above the path. -/
theorem mkdirUp {mode : BitVec 12} (hn : Allowed keep p) :
    ∀ {up : List Name}, up.reverse <+: p →
      Confined P.cwd keep W p free solid (P.mkdirUp mode up w).2
  | [], _ => by
    unfold Proc.mkdirUp
    split
    · exact h
    · split_ifs <;> exact h
  | n :: up, hup => by
    have hup' : up.reverse <+: p := by
      rw [List.reverse_cons] at hup
      exact (List.prefix_append _ _).trans hup
    have ih : Confined P.cwd keep W p free solid (P.mkdirUp mode up w).2 := mkdirUp hn hup'
    unfold Proc.mkdirUp
    split
    · split_ifs <;> exact h
    · split
      · rename_i w' hw
        rw [hw] at ih
        exact ih
      · rename_i w' hw
        rw [hw] at ih
        have hmk : Confined P.cwd keep W p free solid (P.mkdir (n :: up).reverse mode w').2 :=
          ih.mkdir (hn.of_prefix hup) (ih.straight_isPrefix hup)
        split
        · rename_i w'' hw'
          rw [hw'] at hmk
          exact hmk
        · rename_i e w'' hw'
          rw [hw'] at hmk
          split
          · exact hmk
          · split_ifs <;> exact hmk

end Confined

section removeTree

theorem Confined.straight_of_free (h : Confined P.cwd keep W p free solid w) {n : Name}
    (hd : free d) : Straight w.disk.1 P.cwd (d ++ [n]) := by
  intro q k r hq
  refine h.free_ne d hd q ?_
  rcases List.eq_nil_or_concat' r with rfl | ⟨r, j, rfl⟩
  · exact (List.append_inj' hq rfl).1 ▸ List.prefix_rfl
  · rw [← List.cons_append, ← List.append_assoc] at hq
    rw [(List.append_inj' hq rfl).1]
    exact List.prefix_append _ _

theorem Confined.unlink (h : Confined P.cwd keep W p free solid w) (hn : Allowed keep l) (hl : l ≠ [])
    (hs : Straight w.disk.1 P.cwd l) (hsol : ∀ d, solid d → ¬ l <+: d) :
    Confined P.cwd keep W p free solid (P.unlink l w).2 := by
  rw [Proc.unlink_snd]
  exact h.remove hn hl hs hsol

mutual

/-- The removal of a tree, from the leaves up: the paths below a directory that is free stay
straight. -/
theorem Confined.removeTree : ∀ {t : FTree κ} {l : Path} {w : World κ},
    (∀ e q, t.Occurs e q → (∀ n ∈ q, Proper n) ∧ (e.leaf = none → free (l ++ q))) →
    l ≠ [] → Allowed keep l → (∀ d, solid d → ¬ l <+: d) →
    (∀ w, Confined P.cwd keep W p free solid w → Straight w.disk.1 P.cwd l) →
    Confined P.cwd keep W p free solid w → Confined P.cwd keep W p free solid (P.removeTree l t w).2 ∧
      ((P.removeTree l t w).1 = none → (P.removeTree l t w).2.disk.1.typeAt (P.cwd ++ l) = none)
  | .leaf m k, l, w, _, hl, hn, hsol, hst, h => by
    unfold Proc.removeTree
    exact ⟨h.unlink hn hl (hst w h) hsol, Proc.unlink_none hn.proper (hst w h) hl⟩
  | .dir m d, l, w, hocc, hl, hn, hsol, hst, h => by
    have hfree : free l := by simpa using (hocc ⟨m, none⟩ [] rfl).2 rfl
    have hkids : Confined P.cwd keep W p free solid
        (if P.listable l w.disk.1 then P.removeKids l d w else (some .acces, w)).2 := by
      split_ifs
      · exact Confined.removeKids (fun e n q hd => hocc e (n :: q) hd) hl hn hsol hfree h
      · exact h
    have hun := hkids.unlink hn hl (hst _ hkids) hsol
    have hnone := fun hu => Proc.unlink_none (P := P) hn.proper (hst _ hkids) hl hu
    unfold Proc.removeTree
    dsimp only
    split <;> rename_i hw <;> rw [hw] at hun hnone
    · exact ⟨hun, fun _ => hnone rfl⟩
    · exact ⟨hun, by nofun⟩

theorem Confined.removeKids : ∀ {d : Dir κ} {l : Path} {w : World κ},
    (∀ e n q, d.Occurs e n q → (∀ k ∈ n :: q, Proper k) ∧ (e.leaf = none → free (l ++ n :: q))) →
    l ≠ [] → Allowed keep l → (∀ d, solid d → ¬ l <+: d) → free l →
    Confined P.cwd keep W p free solid w → Confined P.cwd keep W p free solid (P.removeKids l d w).2
  | .nil, l, w, _, _, _, _, _, h => h
  | .cons n t rest, l, w, hocc, hl, hn, hsol, hfree, h => by
    have hpn : Proper n := by
      cases t with
      | leaf m k => exact (hocc ⟨m, some k⟩ n [] (.inl ⟨rfl, rfl⟩)).1 n List.mem_cons_self
      | dir m d => exact (hocc ⟨m, none⟩ n [] (.inl ⟨rfl, rfl⟩)).1 n List.mem_cons_self
    have ht : Confined P.cwd keep W p free solid (P.removeTree (l ++ [n]) t w).2 := by
      refine (Confined.removeTree (fun e q he => ?_) (by simp) (hn.append hl ?_) ?_ ?_ h).1
      · obtain ⟨h₁, h₂⟩ := hocc e n q (.inl ⟨rfl, he⟩)
        refine ⟨fun k hk => h₁ k (List.mem_cons_of_mem _ hk), fun hk => ?_⟩
        rw [List.append_assoc]
        exact h₂ hk
      · exact fun k hk => List.mem_singleton.1 hk ▸ hpn
      · exact fun d hd hp => hsol d hd ((List.prefix_append _ _).trans hp)
      · exact fun w hw => hw.straight_of_free hfree
    unfold Proc.removeKids
    exact Confined.removeKids (d := rest) (fun e k q he => hocc e k q (.inr he)) hl hn hsol hfree ht

end

/-- `removeAll` stays inside, and if it succeeds the path is free. -/
theorem Confined.removeAll (h : Confined P.cwd keep W p free solid w) (hn : Allowed keep p)
    (hp : p ≠ []) (hsol : ∀ d, solid d → ¬ p <+: d) :
    Confined P.cwd keep W p free solid (P.removeAll p w).2 ∧
      ((P.removeAll p w).1 = .ok () → (P.removeAll p w).2.disk.1.typeAt (P.cwd ++ p) = none) := by
  have hun := h.unlink hn hp h.plain.straight hsol
  have hnone := fun hu => Proc.unlink_none (P := P) hn.proper h.plain.straight hp hu
  unfold Proc.removeAll
  split
  · rename_i w' hw
    rw [hw] at hun hnone
    exact ⟨hun, fun _ => hnone rfl⟩
  rename_i w' hw
  rw [hw] at hun
  dsimp only at hun ⊢
  have hpar : p = p.dropLast ++ [p.getLast hp] := (List.dropLast_append_getLast hp).symm
  split
  · rename_i hr
    refine ⟨hun, fun _ => ?_⟩
    have hd : w'.disk.1.typeAt (P.cwd ++ p.dropLast) = none :=
      P.resolve_noent (fun n hk => hn.proper n (List.dropLast_subset p hk))
        (hun.straight_isPrefix (List.dropLast_prefix p))
        (fun _ hlnk => by rcases hun.plain _ _ _ hpar with h | h <;> rw [h] at hlnk <;> cases hlnk) hr
    rw [hpar, ← List.append_assoc]
    refine FTree.typeAt_below ?_
    rw [hd]
    simp
  · exact ⟨hun, by simp⟩
  split_ifs
  · exact ⟨hun, by simp⟩
  split
  · rename_i hr
    exact ⟨hun, fun _ => P.resolve_noent hn.proper hun.plain.straight (by simp) hr⟩
  · exact ⟨hun, by simp⟩
  rename_i c hc
  obtain ⟨rfl, hdirs⟩ := P.resolve_ok hn.proper hun.plain.straight (by simp) hc
  split
  · rename_i ht
    exact ⟨hun, fun _ => FTree.typeAt_eq_none.2 (FTree.at'_none.1 ht)⟩
  rename_i t ht
  -- the directories of the tree are no links, and removals make none
  have hocc : ∀ e q, t.Occurs e q → w'.disk.1.look (P.cwd ++ p ++ q) = some e := by
    intro e q he
    rw [FTree.look_append, ht]
    exact FTree.look_of_occurs (FTree.sorted_at' w'.disk.2 ht) he
  have hall : Confined P.cwd keep W p (fun d => free d ∨ ∃ m q, d = p ++ q ∧
      w'.disk.1.look (P.cwd ++ p ++ q) = some ⟨m, none⟩) solid w' := by
    refine hun.weaken hun.plain ?_ fun d hd => hd
    rintro d (hd | ⟨m, q, rfl, hq⟩) s hs
    · exact hun.free_ne d hd s hs
    · intro hlnk
      obtain ⟨r, hr⟩ := hs
      have hsplit : P.cwd ++ p ++ q = P.cwd ++ s ++ r := by
        rw [List.append_assoc, List.append_assoc, hr]
      have hdir : w'.disk.1.typeAt (P.cwd ++ s) = some .dir := by
        cases r with
        | nil =>
          rw [List.append_nil] at hsplit
          rw [← hsplit]
          exact FTree.typeAt_eq_dir.2 ⟨m, hq⟩
        | cons n r =>
          refine FTree.typeAt_above (n := n) (q := r) ?_
          rw [← hsplit, FTree.typeAt, hq]
          simp
      rw [hdir] at hlnk
      cases hlnk
  have hnames : ∀ e q, t.Occurs e q → ∀ n ∈ q, Proper n := by
    intro e q he n hq
    refine hun.names (P.cwd ++ p ++ q) ?_ n (List.mem_append_right _ hq)
    rw [FTree.typeAt, hocc e q he]
    simp
  have hdir : ∀ e q, t.Occurs e q → e.leaf = none → free (p ++ q) ∨ ∃ m r, p ++ q = p ++ r ∧
      w'.disk.1.look (P.cwd ++ p ++ r) = some ⟨m, none⟩ := by
    intro e q he hk
    refine .inr ⟨e.info, q, rfl, ?_⟩
    rw [hocc e q he, ← hk]
  obtain ⟨hres, hnone'⟩ := Confined.removeTree (t := t) (l := p) (w := w')
    (fun e q he => ⟨hnames e q he, hdir e q he⟩) hp hn hsol (fun w hw => hw.plain.straight) hall
  have hfin := hres.weaken hres.plain (fun d hd => hres.free_ne d (.inl hd)) fun d hd => hd
  split <;> rename_i hw' <;> rw [hw'] at hfin hnone'
  · exact ⟨hfin, fun _ => hnone' rfl⟩
  · exact ⟨hfin, by simp⟩

end removeTree

section temp

variable {n : Name}

theorem Confined.straight_beside (h : Confined P.cwd keep W p free solid w) {k : Name}
    (hp : p = d ++ [k]) : Straight w.disk.1 P.cwd (d ++ [n]) := by
  subst hp
  exact (h.plain.append.snoc h.plain.last).straight

/-- The temporary file is beside the target, and is a regular one. -/
theorem Confined.createTemp (h : Confined P.cwd keep W p free solid w) {k pre : Name}
    (hp : p = d ++ [k]) (hn : Allowed keep p) (hpre : 2 < pre.length)
    (hkeep : ∀ s, ¬ keep (pre ++ s)) :
    Confined P.cwd keep W p free solid (P.createTemp d pre w).2 ∧
      ∀ tmp, (P.createTemp d pre w).1 = .ok tmp → ∃ n, Allowed keep [n] ∧ tmp = d ++ [n] ∧
        (P.createTemp d pre w).2.disk.1.typeAt (P.cwd ++ tmp) = some .reg ∧
        ∀ c, solid c → ¬ tmp <+: c := by
  unfold Proc.createTemp
  split
  · exact ⟨h, by nofun⟩
  rename_i c hc
  have hd : Straight w.disk.1 P.cwd d := h.straight_isPrefix ⟨[k], hp.symm⟩
  have hdl : w.disk.1.typeAt (P.cwd ++ d) ≠ some .lnk := by
    intro hlnk
    rcases h.plain d k [] hp with h | h <;> rw [h] at hlnk <;> cases hlnk
  obtain ⟨rfl, -⟩ := P.resolve_ok (fun n hk => hn.proper n (hp ▸ List.mem_append_left _ hk)) hd
    (fun _ => hdl) hc
  dsimp only
  have hprop : Proper (pre ++ P.fresh w.disk.1 (P.cwd ++ d) pre) := by
    have hlen : 2 < (pre ++ P.fresh w.disk.1 (P.cwd ++ d) pre).length := by
      rw [List.length_append]
      omega
    refine ⟨?_, ?_, ?_⟩ <;> intro h0 <;> rw [h0] at hlen <;> simp [dot, dotdot] at hlen
  have hname : Allowed keep [pre ++ P.fresh w.disk.1 (P.cwd ++ d) pre] := by
    refine ⟨fun x hx => List.mem_singleton.1 hx ▸ hprop, ?_⟩
    rintro x r hx
    rw [← (List.cons.inj hx).1]
    exact hkeep _
  have hnew : w.disk.1.typeAt (P.cwd ++ (d ++ [pre ++ P.fresh w.disk.1 (P.cwd ++ d) pre])) = none := by
    rw [← List.append_assoc]
    exact FTree.typeAt_eq_none.2 (P.look_fresh _ _ _)
  generalize pre ++ P.fresh w.disk.1 (P.cwd ++ d) pre = n at hname hnew
  have hall : Allowed keep (d ++ [n]) := (hp ▸ hn).beside hname
  have hsol : ∀ c, solid c → ¬ d ++ [n] <+: c := by
    intro c hc' hpre
    rw [h.solid_dir c hc' _ hpre] at hnew
    cases hnew
  have hnp : ∀ j r, p ≠ d ++ [n] ++ j :: r := by
    intro j r h0
    have := congrArg List.length (hp.symm.trans h0)
    simp at this
  have hstr : Straight w.disk.1 P.cwd (d ++ [n]) := h.straight_beside hp
  have hok : ∀ t c (D D' : Disk κ),
      P.making (fun t => ⟨P.born 0o600 t, some (.reg P.blank)⟩) t c D = .ok D' →
      D.1.typeAt c = none ∧ D' = Proc.enter t c ⟨P.born 0o600 t, some (.reg P.blank)⟩ D :=
    fun _ _ _ _ hD => Proc.making_ok hD
  have hmk : Confined P.cwd keep W p free solid (P.act .create false (d ++ [n])
      (P.making fun t => ⟨P.born 0o600 t, some (.reg P.blank)⟩) w).2 :=
    h.making hall hok hstr (fun _ j r h0 => absurd h0 (hnp j r)) (by nofun)
  rcases P.act_cases .create false
    (P.making fun t => ⟨P.born 0o600 t, some (.reg P.blank)⟩) hall.proper hstr (by nofun) with
    ⟨e, he⟩ | ⟨D, hD, hdirs, he⟩
  · rw [he]
    exact ⟨h, by nofun⟩
  · obtain ⟨-, rfl⟩ := Proc.making_ok hD
    rw [he] at hmk ⊢
    refine ⟨hmk, ?_⟩
    rintro tmp ⟨⟩
    refine ⟨n, hname, rfl, ?_, hsol⟩
    have hdir : w.disk.1.typeAt (P.cwd ++ d) = some .dir := hdirs d n [] rfl
    show (Proc.enter _ (P.cwd ++ (d ++ [n])) _ w.disk).1.typeAt (P.cwd ++ (d ++ [n])) = some .reg
    rw [← List.append_assoc, typeAt_enter hdir, if_pos List.prefix_rfl, if_pos rfl]
    rfl

/-- The temporary file takes the target's place. -/
theorem Confined.rename (h : Confined P.cwd keep W p free solid w) {k : Name} (hp : p = d ++ [k])
    (hn : Allowed keep p) (hpn : Allowed keep [n])
    (hreg : w.disk.1.typeAt (P.cwd ++ (d ++ [n])) = some .reg)
    (hsol : ∀ c, solid c → ¬ d ++ [n] <+: c) :
    Confined P.cwd keep W p free solid (P.rename (d ++ [n]) p w).2 := by
  have hall : Allowed keep (d ++ [n]) := (hp ▸ hn).beside hpn
  unfold Proc.rename
  split
  · exact h
  · exact h
  rename_i a b ha hb
  obtain ⟨rfl, -⟩ := P.resolve_ok hall.proper (h.straight_beside hp) (by simp) ha
  obtain ⟨rfl, hdirs⟩ := P.resolve_ok hn.proper h.plain.straight (by simp) hb
  split
  · exact h
  rename_i e he
  split_ifs with hab hacc hdir
  · exact h
  · exact h
  · exact h
  have hty : e.type = .reg := by
    rw [FTree.typeAt, he] at hreg
    exact Option.some.inj hreg
  have hne : d ++ [n] ≠ p := fun h0 => hab (by rw [h0])
  have hpne : p ≠ [] := by rw [hp]; simp
  have hlen : (d ++ [n]).length = p.length := by rw [hp, List.length_append, List.length_append]; rfl
  have hoff : ¬ P.cwd ++ (d ++ [n]) <+: P.cwd ++ p := fun h0 =>
    hne (List.IsPrefix.eq_of_length (prefix_iff_append.1 h0) hlen)
  have hoff' : ¬ P.cwd ++ (d ++ [n]) <+: P.cwd ++ d := by
    intro h0
    have := (prefix_iff_append.1 h0).length_le
    rw [List.length_append, List.length_singleton] at this
    omega
  -- the old name goes, then the new one is put in place of what is there
  have h₁ : Confined P.cwd keep W p free solid (w.did .rename [(d ++ [n], P.cwd ++ (d ++ [n]))]
      (Proc.leave (P.now w.log.length) (P.cwd ++ (d ++ [n])) w.disk)) :=
    h.removed (by simp) hall hsol
  have hleave : ∀ q, (Proc.leave (P.now w.log.length) (P.cwd ++ (d ++ [n])) w.disk).1.typeAt q
      = if P.cwd ++ (d ++ [n]) <+: q then none else w.disk.1.typeAt q := by
    intro q
    rw [← List.append_assoc, typeAt_leave]
  have h₂ := h₁.made .rename (P.now w.log.length) e hpne hn ?_ ?_ ?_ ?_
  · refine h₂.relog rfl (h.logged_did ?_ ?_)
    · intro x hx
      rcases List.mem_cons.1 hx with rfl | hx
      · rfl
      · rw [List.mem_singleton.1 hx]
    · exact (sameOutside_leave hall.off (by simp)).trans (sameOutside_enter hn.off hpne)
  · intro hdir'
    have hd' : w.disk.1.typeAt (P.cwd ++ p) = some .dir := by
      have := (hleave (P.cwd ++ p)).symm.trans hdir'
      rwa [if_neg hoff] at this
    obtain ⟨m, hm⟩ := FTree.typeAt_eq_dir.1 hd'
    exact hdir (.inr (by rw [hm]; rfl))
  · refine (hleave _).trans ?_
    have hdl : p.dropLast = d := by rw [hp, List.dropLast_concat]
    rw [hdl, if_neg hoff']
    exact hdirs d k [] hp
  · intro x r h0
    have := congrArg List.length h0
    simp at this
  · rw [hty]
    simp

end temp

end calls

end Posix
