import Dstore.Lib.Posix

/-!
# Paths without links

A path is straight when no name along it before the last leads to a link. Such a path is resolved to
itself, whatever else is on the disk.
-/

namespace Posix

open FileTree

variable {κ : Type} {D : FTree κ} {may : Path → Bool} {follow : Bool}
  {jump : Path → Path → Except Errno Path} {cur base c : Path} {ns p q r : Path} {n : Name}

/-- No component but the last is a link. -/
def Straight (D : FTree κ) (base p : Path) : Prop :=
  ∀ q n r, p = q ++ n :: r → D.typeAt (base ++ q) ≠ some .lnk

/-- Every component but the last is missing or a directory. -/
def Plain (D : FTree κ) (base p : Path) : Prop :=
  ∀ q n r, p = q ++ n :: r → D.typeAt (base ++ q) = none ∨ D.typeAt (base ++ q) = some .dir

theorem Plain.straight (h : Plain D base p) : Straight D base p := by
  intro q n r hp hl
  rcases h q n r hp with h | h <;> rw [hl] at h <;> cases h

theorem Straight.tail (h : Straight D cur (n :: ns)) : Straight D (cur ++ [n]) ns := by
  intro q k r hq
  have := h (n :: q) k r (by rw [hq, List.cons_append])
  rwa [List.append_cons] at this

theorem Plain.append (h : Plain D base (p ++ n :: q)) : Plain D base p := by
  intro s k r hp
  exact h s k (r ++ n :: q) (by rw [hp, List.append_assoc, List.cons_append])

theorem Plain.last (h : Plain D base (p ++ n :: q)) :
    D.typeAt (base ++ p) = none ∨ D.typeAt (base ++ p) = some .dir := h p n q rfl

theorem Plain.snoc (h : Plain D base p)
    (hp : D.typeAt (base ++ p) = none ∨ D.typeAt (base ++ p) = some .dir) :
    Plain D base (p ++ [n]) := by
  intro s k r hs
  rcases List.eq_nil_or_concat' r with rfl | ⟨r, j, rfl⟩
  · obtain ⟨rfl, -⟩ := List.append_inj' hs rfl
    exact hp
  · rw [← List.cons_append, ← List.append_assoc] at hs
    obtain ⟨rfl, -⟩ := List.append_inj' hs rfl
    exact h s k r rfl

section one

variable (h : Proper n)

theorem steps_cons_absent (hc : D.typeAt cur = none) :
    steps D may follow jump cur (n :: ns) = .error .noent := by
  unfold steps
  rw [FTree.typeAt_eq_none.1 hc]

theorem steps_cons_leaf {t : FileType} (hc : D.typeAt cur = some t) (ht : t ≠ .dir) :
    steps D may follow jump cur (n :: ns) = .error .notdir := by
  obtain ⟨⟨m, l⟩, he, rfl⟩ := Option.map_eq_some_iff.1 hc
  cases l with
  | none => exact absurd rfl ht
  | some l => unfold steps; rw [he]

theorem steps_cons_closed (hc : D.typeAt cur = some .dir) (hm : may cur = false) :
    steps D may follow jump cur (n :: ns) = .error .acces := by
  obtain ⟨m, he⟩ := FTree.typeAt_eq_dir.1 hc
  unfold steps
  rw [he]
  exact if_pos hm

variable (hc : D.typeAt cur = some .dir) (hm : may cur = true)

include h hc hm

theorem steps_cons_open : steps D may follow jump cur (n :: ns) = match D.look (cur ++ [n]) with
    | some ⟨_, some (.lnk target)⟩ =>
      if ns = [] ∧ follow = false then .ok (cur ++ [n])
      else if target = [] then .error .noent
      else jump (if target.head? = some 47 then [] else cur) (target.splitOn 47 ++ ns)
    | some _ => steps D may follow jump (cur ++ [n]) ns
    | none => if ns = [] then .ok (cur ++ [n]) else .error .noent := by
  obtain ⟨m, he⟩ := FTree.typeAt_eq_dir.1 hc
  obtain ⟨h1, h2, h3⟩ := h
  conv_lhs => unfold steps
  rcases D.look (cur ++ [n]) with _ | ⟨i, _ | l⟩
  · simp [he, hm, h1, h2, h3]
  · simp [he, hm, h1, h2, h3]
  · cases l <;> simp [he, hm, h1, h2, h3]

theorem steps_cons_new (ht : D.typeAt (cur ++ [n]) = none) :
    steps D may follow jump cur (n :: ns) = if ns = [] then .ok (cur ++ [n]) else .error .noent := by
  rw [steps_cons_open h hc hm, FTree.typeAt_eq_none.1 ht]

theorem steps_cons_old {t : FileType} (ht : D.typeAt (cur ++ [n]) = some t) (hl : t ≠ .lnk) :
    steps D may follow jump cur (n :: ns) = steps D may follow jump (cur ++ [n]) ns := by
  rw [steps_cons_open h hc hm]
  obtain ⟨⟨m, l⟩, he, rfl⟩ := Option.map_eq_some_iff.1 ht
  rw [he]
  rcases l with _ | _ | _ | _ | _ | _ | _ | _
  all_goals first | rfl | exact absurd rfl hl

theorem steps_cons_link (ht : D.typeAt (cur ++ [n]) = some .lnk) :
    steps D may false jump cur [n] = .ok (cur ++ [n]) := by
  rw [steps_cons_open h hc hm]
  obtain ⟨⟨m, l⟩, he, hl⟩ := Option.map_eq_some_iff.1 ht
  rw [he]
  rcases l with _ | _ | _ | _ | _ | _ | _ | _
  all_goals first | exact if_pos ⟨rfl, rfl⟩ | cases hl

end one

section steps

variable (hn : ∀ n ∈ ns, Proper n) (hs : Straight D cur ns)
  (hf : follow = true → D.typeAt (cur ++ ns) ≠ some .lnk)

include hn hs hf

/-- A path of proper names without links leads where it says, or fails. -/
theorem steps_cases (may : Path → Bool) (jump : Path → Path → Except Errno Path) {n : Name}
    {rest : Path} (hns : ns = n :: rest) :
    (D.typeAt cur = none ∧ steps D may follow jump cur ns = .error .noent) ∨
    (D.typeAt (cur ++ ns) = none ∧ steps D may follow jump cur ns = .error .notdir) ∨
    steps D may follow jump cur ns = .error .acces ∨
    (D.typeAt cur = some .dir ∧
      ((D.typeAt (cur ++ [n]) = none ∧
        steps D may follow jump cur ns = if rest = [] then .ok (cur ++ [n]) else .error .noent) ∨
       (rest = [] ∧ steps D may follow jump cur ns = .ok (cur ++ [n])) ∨
        steps D may follow jump cur ns = steps D may follow jump (cur ++ [n]) rest)) := by
  subst hns
  have hp : Proper n := hn n List.mem_cons_self
  cases hc : D.typeAt cur with
  | none => exact .inl ⟨rfl, steps_cons_absent hc⟩
  | some t =>
    by_cases ht : t = .dir
    · subst ht
      refine .inr (.inr ?_)
      cases hm : may cur with
      | false => exact .inl (steps_cons_closed hc hm)
      | true =>
        refine .inr ⟨rfl, ?_⟩
        cases hx : D.typeAt (cur ++ [n]) with
        | none => exact .inl ⟨rfl, steps_cons_new hp hc hm hx⟩
        | some u =>
          refine .inr ?_
          by_cases hu : u = .lnk
          · subst hu
            have hnil : rest = [] := by
              by_contra hne
              obtain ⟨k, r, rfl⟩ := List.exists_cons_of_ne_nil hne
              exact hs [n] k r rfl hx
            subst hnil
            have hfollow : follow = false := by
              by_contra hfo
              exact hf (by simpa using hfo) hx
            subst hfollow
            exact .inl ⟨rfl, steps_cons_link hp hc hm hx⟩
          · exact .inr (steps_cons_old hp hc hm hx hu)
    · refine .inr (.inl ⟨FTree.typeAt_below ?_, steps_cons_leaf hc ht⟩)
      rw [hc]
      exact fun h => ht (Option.some.inj h)

/-- A path that resolves is its own object, with directories above. -/
theorem steps_ok (h : steps D may follow jump cur ns = .ok c) :
    c = cur ++ ns ∧ ∀ q n r, ns = q ++ n :: r → D.typeAt (cur ++ q) = some .dir := by
  induction ns generalizing cur with
  | nil =>
    refine ⟨?_, by simp⟩
    rw [List.append_nil]
    exact (Except.ok.inj h).symm
  | cons n ns ih =>
    rcases steps_cases hn hs hf may jump rfl with
      ⟨-, h'⟩ | ⟨-, h'⟩ | h' | ⟨hdir, hnext⟩
    · rw [h'] at h; cases h
    · rw [h'] at h; cases h
    · rw [h'] at h; cases h
    have hrest : c = cur ++ [n] ++ ns ∧
        ∀ q k r, ns = q ++ k :: r → D.typeAt (cur ++ [n] ++ q) = some .dir := by
      rcases hnext with ⟨-, h'⟩ | ⟨rfl, h'⟩ | h' <;> rw [h'] at h
      · by_cases hnil : ns = []
        · subst hnil
          rw [if_pos rfl] at h
          exact ⟨by rw [List.append_nil]; exact (Except.ok.inj h).symm, by simp⟩
        · rw [if_neg hnil] at h
          cases h
      · exact ⟨by rw [List.append_nil]; exact (Except.ok.inj h).symm, by simp⟩
      · refine ih (fun k hk => hn k (List.mem_cons_of_mem _ hk)) hs.tail (fun hfo => ?_) h
        rw [List.append_assoc]
        exact hf hfo
    refine ⟨by rw [hrest.1, List.append_assoc]; rfl, fun q k r hq => ?_⟩
    cases q with
    | nil => rwa [List.append_nil]
    | cons j q =>
      obtain ⟨rfl, hq'⟩ := List.cons.inj hq
      have := hrest.2 q k r hq'
      rwa [List.append_assoc] at this

/-- A path that is not found has nothing at its end. -/
theorem steps_noent (h : steps D may follow jump cur ns = .error .noent) :
    D.typeAt (cur ++ ns) = none := by
  induction ns generalizing cur with
  | nil => cases h
  | cons n ns ih =>
    have hsplit : cur ++ n :: ns = cur ++ [n] ++ ns := by simp
    rcases steps_cases hn hs hf may jump rfl with
      ⟨hc, -⟩ | ⟨hx, -⟩ | h' | ⟨-, ⟨hx, h'⟩ | ⟨-, h'⟩ | h'⟩
    · refine FTree.typeAt_below ?_
      rw [hc]
      nofun
    · exact hx
    · rw [h'] at h; cases h
    · cases ns with
      | nil => exact hx
      | cons k r =>
        rw [hsplit]
        refine FTree.typeAt_below ?_
        rw [hx]
        nofun
    · rw [h'] at h; cases h
    · rw [h'] at h
      rw [hsplit]
      refine ih (fun k hk => hn k (List.mem_cons_of_mem _ hk)) hs.tail (fun hfo => ?_) h
      rw [← hsplit]
      exact hf hfo

theorem steps_error {e : Errno} (h : steps D may follow jump cur ns = .error e) :
    e = .noent ∨ e = .notdir ∨ e = .acces := by
  induction ns generalizing cur with
  | nil => cases h
  | cons n ns ih =>
    rcases steps_cases hn hs hf may jump rfl with
      ⟨-, h'⟩ | ⟨-, h'⟩ | h' | ⟨-, ⟨-, h'⟩ | ⟨-, h'⟩ | h'⟩ <;> rw [h'] at h
    · cases h; exact .inl rfl
    · cases h; exact .inr (.inl rfl)
    · cases h; exact .inr (.inr rfl)
    · split_ifs at h
      cases h
      exact .inl rfl
    · cases h
    · refine ih (fun k hk => hn k (List.mem_cons_of_mem _ hk)) hs.tail (fun hfo => ?_) h
      rw [List.append_assoc]
      exact hf hfo

end steps

namespace Proc

variable {P : Proc κ} (hn : ∀ n ∈ p, Proper n) (hs : Straight D P.cwd p)
  (hf : follow = true → D.typeAt (P.cwd ++ p) ≠ some .lnk)

include hn hs hf

theorem resolve_ok (h : P.resolve follow p D = .ok c) :
    c = P.cwd ++ p ∧ ∀ q n r, p = q ++ n :: r → D.typeAt (P.cwd ++ q) = some .dir :=
  steps_ok hn hs hf h

theorem resolve_noent (h : P.resolve follow p D = .error .noent) : D.typeAt (P.cwd ++ p) = none :=
  steps_noent hn hs hf h

theorem resolve_error {e : Errno} (h : P.resolve follow p D = .error e) :
    e = .noent ∨ e = .notdir ∨ e = .acces := steps_error hn hs hf h

/-- What `stat` finds is what stands at the path. -/
theorem statAs_ok {e : Entry κ} (h : P.statAs follow p D = .ok e) :
    D.look (P.cwd ++ p) = some e := by
  unfold statAs at h
  cases hr : P.resolve follow p D with
  | error e => rw [hr] at h; cases h
  | ok c =>
    obtain ⟨rfl, -⟩ := resolve_ok hn hs hf hr
    rw [hr] at h
    dsimp only at h
    cases hl : D.look (P.cwd ++ p) with
    | none => rw [hl] at h; cases h
    | some e => rw [hl] at h; exact congrArg some (Except.ok.inj h)

/-- Where `stat` finds nothing there is nothing. -/
theorem statAs_noent (h : P.statAs follow p D = .error .noent) : D.typeAt (P.cwd ++ p) = none := by
  unfold statAs at h
  cases hr : P.resolve follow p D with
  | error e =>
    rw [hr] at h
    cases h
    exact resolve_noent hn hs hf hr
  | ok c =>
    obtain ⟨rfl, -⟩ := resolve_ok hn hs hf hr
    rw [hr] at h
    dsimp only at h
    cases hl : D.look (P.cwd ++ p) with
    | none => exact FTree.typeAt_eq_none.2 hl
    | some e => rw [hl] at h; cases h

end Proc

end Posix
