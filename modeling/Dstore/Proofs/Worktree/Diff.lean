import Dstore.Worktree.Change
import Dstore.Lib.Lex

/-!
# What a difference lists

Over component paths a walk in step lists exactly the paths at which the two trees differ, each with
what the trees have there: the pruning of equal subdirectories leaves nothing out.
-/

namespace Dstore.Worktree

open FileTree

variable {κ : Type} {t x y : FTree κ} {d a b : Dir κ} {p : Path} {n : Name}

/-- A path and one name more. -/
def snoc (p : Path) (n : Name) : Path := p ++ [n]

section expand

mutual

variable {kind : Kind} {c : Change Path κ} {pre : Path}

/-- The expansion of a tree has one change for each path. -/
theorem mem_expand : ∀ {t : FTree κ} {p : Path},
    t.sorted = true →
      (c ∈ expand snoc kind p t ↔ ∃ q e, t.look q = some e ∧ c = single kind (p ++ q) e)
  | .leaf m l, p, _ => by
    rw [expand, List.mem_singleton]
    constructor
    · rintro rfl
      exact ⟨[], ⟨m, some l⟩, rfl, by rw [List.append_nil]⟩
    · rintro ⟨q, e, hq, rfl⟩
      cases q with
      | nil =>
        rw [List.append_nil]
        exact congrArg _ (Option.some.inj hq).symm
      | cons k q => simp [FTree.look_cons, FTree.kids, Dir.find] at hq
  | .dir m d, p, ht => by
    rw [expand, List.mem_cons, mem_expandChildren ht]
    constructor
    · rintro (rfl | ⟨q, e, hq, rfl⟩)
      · exact ⟨[], ⟨m, none⟩, rfl, by rw [List.append_nil]⟩
      · cases q with
        | nil => exact absurd hq (by simp [Dir.look])
        | cons k q => exact ⟨k :: q, e, Dir.look_kids.trans hq, rfl⟩
    · rintro ⟨q, e, hq, rfl⟩
      cases q with
      | nil =>
        rw [List.append_nil]
        exact .inl (congrArg _ (Option.some.inj hq).symm)
      | cons k q => exact .inr ⟨k :: q, e, Dir.look_kids.symm.trans hq, rfl⟩

theorem mem_expandChildren : ∀ {d : Dir κ} {p : Path},
    d.sorted = true →
      (c ∈ expandChildren snoc kind p d ↔ ∃ q e, d.look q = some e ∧ c = single kind (p ++ q) e)
  | .nil, p, _ => by simp [expandChildren]
  | .cons k t rest, p, hd => by
    obtain ⟨ht, hr, ha⟩ := Dir.sorted_cons.1 hd
    rw [expandChildren, List.mem_append, mem_expand ht, mem_expandChildren hr]
    constructor
    · rintro (⟨q, e, hq, rfl⟩ | ⟨q, e, hq, rfl⟩)
      · refine ⟨k :: q, e, ?_, by rw [snoc, List.append_assoc]; rfl⟩
        rw [Dir.look, Dir.find_cons_self]
        exact hq
      · cases q with
        | nil => exact absurd hq (by simp [Dir.look])
        | cons j q =>
          refine ⟨j :: q, e, ?_, rfl⟩
          have hjk : k ≠ j := by
            rintro rfl
            rw [Dir.look, Dir.find_of_after ha] at hq
            simp at hq
          rw [Dir.look, Dir.find_cons_of_ne hjk]
          exact hq
    · rintro ⟨q, e, hq, rfl⟩
      cases q with
      | nil => exact absurd hq (by simp [Dir.look])
      | cons j q =>
        rw [Dir.look] at hq
        by_cases hjk : k = j
        · subst hjk
          rw [Dir.find_cons_self] at hq
          exact .inl ⟨q, e, hq, by rw [snoc, List.append_assoc]; rfl⟩
        · rw [Dir.find_cons_of_ne hjk] at hq
          exact .inr ⟨j :: q, e, hq, rfl⟩

end

/-- What a walk through a sorted listing gives: the changes at `n`, the new names before it, and
what comes behind. -/
theorem mem_walk {gone : List (Change Path κ)} {new : Name → FTree κ → List (Change Path κ)}
    {both : FTree κ → List (Change Path κ)} {next : Dir κ → List (Change Path κ)} :
    ∀ {b : Dir κ}, b.sorted = true →
      (c ∈ walk gone new both next n b ↔
        c ∈ ((b.find n).elim gone both) ∨ (∃ k y, k < n ∧ b.find k = some y ∧ c ∈ new k y) ∨
          c ∈ next (b.beyond n))
  | .nil, _ => by simp [walk, Dir.find, Dir.beyond]
  | .cons k y rest, hb => by
    obtain ⟨hy, hr, ha⟩ := Dir.sorted_cons.1 hb
    unfold walk
    by_cases hnk : n < k
    · have hn : (Dir.cons k y rest).after n = true :=
        Dir.after_cons.2 ⟨hnk, Dir.after_trans hnk ha⟩
      rw [if_pos hnk, Dir.find_of_after hn, Dir.beyond_of_after hn, List.mem_append, Option.elim_none]
      have hnone : ¬ ∃ j z, j < n ∧ (Dir.cons k y rest).find j = some z ∧ c ∈ new j z := by
        rintro ⟨j, z, hj, hz, -⟩
        exact absurd (hj.trans (Dir.lt_of_find hn hz)) (lt_irrefl _)
      simp only [hnone, false_or]
    · rw [if_neg hnk]
      by_cases hkn : k < n
      · rw [if_pos hkn, List.mem_append, mem_walk hr, Dir.find_cons_of_ne hkn.ne]
        have hbey : (Dir.cons k y rest).beyond n = rest.beyond n := if_neg hnk
        have hsplit : (∃ j z, j < n ∧ (Dir.cons k y rest).find j = some z ∧ c ∈ new j z) ↔
            c ∈ new k y ∨ ∃ j z, j < n ∧ rest.find j = some z ∧ c ∈ new j z := by
          constructor
          · rintro ⟨j, z, hj, hz, hc⟩
            by_cases hjk : k = j
            · subst hjk
              rw [Dir.find_cons_self] at hz
              exact .inl (Option.some.inj hz ▸ hc)
            · rw [Dir.find_cons_of_ne hjk] at hz
              exact .inr ⟨j, z, hj, hz, hc⟩
          · rintro (hc | ⟨j, z, hj, hz, hc⟩)
            · exact ⟨k, y, hkn, Dir.find_cons_self, hc⟩
            · have hjk : k ≠ j := (Dir.lt_of_find ha hz).ne
              exact ⟨j, z, hj, by rw [Dir.find_cons_of_ne hjk]; exact hz, hc⟩
        rw [hbey, hsplit, or_assoc, or_left_comm]
      · obtain rfl : n = k := le_antisymm (not_lt.1 hkn) (not_lt.1 hnk)
        have hbey : (Dir.cons n y rest).beyond n = rest := by
          rw [Dir.beyond, if_neg (lt_irrefl n), Dir.beyond_of_after ha]
        have hnone : ¬ ∃ j z, j < n ∧ (Dir.cons n y rest).find j = some z ∧ c ∈ new j z := by
          rintro ⟨j, z, hj, hz, -⟩
          rw [Dir.find_cons_of_ne hj.ne'] at hz
          exact absurd (hj.trans (Dir.lt_of_find ha hz)) (lt_irrefl _)
        rw [if_neg hkn, List.mem_append, Dir.find_cons_self, hbey, Option.elim_some]
        simp only [hnone, false_or]

end expand

/-- The kind of a path from what the two sides have there. -/
def classify [DecidableEq κ] : Option (Entry κ) → Option (Entry κ) → Option Kind
  | none, none => none
  | none, some _ => some .added
  | some _, none => some .deleted
  | some o, some n => compare o n

section diff

variable [DecidableEq κ]

theorem compare_self (e : Entry κ) : compare e e = none := by
  have hc : sameContent e e = true := by
    unfold sameContent
    split <;> simp_all
  unfold compare
  simp [hc]

theorem classify_self (o : Option (Entry κ)) : classify o o = none := by
  cases o with
  | none => rfl
  | some e => exact compare_self e

theorem compare_typeChanged {o n : Entry κ} : compare o n = some .typeChanged ↔ o.type ≠ n.type := by
  unfold compare
  split_ifs <;> simp_all

/-- The change is the one that the two sides call for. -/
def Differs (pre : Path) (lookA lookB : Path → Option (Entry κ)) (c : Change Path κ) : Prop :=
  ∃ q k, classify (lookA q) (lookB q) = some k ∧ c = ⟨pre ++ q, k, lookA q, lookB q⟩

variable {pre : Path} {c : Change Path κ}

theorem differs_added {look : Path → Option (Entry κ)} :
    (∃ q e, look q = some e ∧ c = single .added (pre ++ q) e) ↔ Differs pre (fun _ => none) look c := by
  constructor
  · rintro ⟨q, e, hq, rfl⟩
    exact ⟨q, .added, by rw [hq]; rfl, by rw [hq]; rfl⟩
  · rintro ⟨q, k, hk, rfl⟩
    cases hq : look q with
    | none => simp [hq, classify] at hk
    | some e =>
      rw [hq] at hk
      obtain rfl : Kind.added = k := Option.some.inj hk
      exact ⟨q, e, hq, by simp [single]⟩

theorem differs_deleted {look : Path → Option (Entry κ)} :
    (∃ q e, look q = some e ∧ c = single .deleted (pre ++ q) e) ↔
      Differs pre look (fun _ => none) c := by
  constructor
  · rintro ⟨q, e, hq, rfl⟩
    exact ⟨q, .deleted, by rw [hq]; rfl, by rw [hq]; rfl⟩
  · rintro ⟨q, k, hk, rfl⟩
    cases hq : look q with
    | none => simp [hq, classify] at hk
    | some e =>
      rw [hq] at hk
      obtain rfl : Kind.deleted = k := Option.some.inj hk
      exact ⟨q, e, hq, by simp [single]⟩

theorem not_differs_self {look : Path → Option (Entry κ)} : ¬ Differs pre look look c := by
  rintro ⟨q, k, hk, -⟩
  rw [classify_self] at hk
  cases hk

theorem differs_listing : Differs pre a.look b.look c ↔
    ∃ n, Differs (pre ++ [n]) (fun q => a.look (n :: q)) (fun q => b.look (n :: q)) c := by
  constructor
  · rintro ⟨q, k, hk, rfl⟩
    cases q with
    | nil => simp [Dir.look, classify] at hk
    | cons n q => exact ⟨n, q, k, hk, by rw [List.append_assoc]; rfl⟩
  · rintro ⟨n, q, k, hk, rfl⟩
    exact ⟨n :: q, k, hk, by rw [List.append_assoc]; rfl⟩

/-- A difference is at the file itself, or below. -/
theorem differs_file : Differs p x.look y.look c ↔
    (∃ k, compare x.entry y.entry = some k ∧ c = ⟨p, k, some x.entry, some y.entry⟩) ∨
      Differs p x.kids.look y.kids.look c := by
  constructor
  · rintro ⟨q, k, hk, rfl⟩
    cases q with
    | nil => exact .inl ⟨k, hk, by rw [List.append_nil]; rfl⟩
    | cons n q =>
      rw [Dir.look_kids, Dir.look_kids] at hk ⊢
      exact .inr ⟨n :: q, k, hk, rfl⟩
  · rintro (⟨k, hk, rfl⟩ | ⟨q, k, hk, rfl⟩)
    · exact ⟨[], k, hk, by rw [List.append_nil]; rfl⟩
    · cases q with
      | nil => simp [Dir.look, classify] at hk
      | cons n q =>
        rw [← Dir.look_kids, ← Dir.look_kids] at hk ⊢
        exact ⟨n :: q, k, hk, rfl⟩

omit [DecidableEq κ] in
theorem kids_of_type {m : Meta} {l : Leaf κ} (h : (⟨m, some l⟩ : Entry κ).type = y.entry.type) :
    y.kids = .nil := by
  cases y with
  | leaf m' l' => rfl
  | dir m' d => cases l <;> cases h

mutual

/-- The changes of two trees at one path. -/
theorem mem_diffEntry : ∀ {x y : FTree κ} {p : Path}, x.sorted = true →
    y.sorted = true → (c ∈ diffEntry snoc p x y ↔ Differs p x.look y.look c)
  | .leaf m l, y, p, _, hy => by
    rw [differs_file]
    show _ ↔ _ ∨ Differs p (Dir.nil : Dir κ).look y.kids.look c
    have hnil : (Dir.nil : Dir κ).look = fun _ => none := funext fun q => Dir.look_nil_dir
    rw [hnil, ← differs_added, ← mem_expandChildren (FTree.sorted_kids hy), diffEntry]
    show c ∈ (match compare (FTree.leaf m l).entry y.entry with | none => _ | some k => _) ↔ _
    cases hk : compare (FTree.leaf m l).entry y.entry with
    | none =>
      have ht : (FTree.leaf m l).entry.type = y.entry.type := by
        by_contra hne
        rw [compare_typeChanged.2 hne] at hk
        cases hk
      simp [kids_of_type ht, expandChildren]
    | some k =>
      by_cases hty : k = .typeChanged
      · subst hty
        simp [FTree.entry]
      · have ht : (FTree.leaf m l).entry.type = y.entry.type := by
          by_contra hne
          rw [compare_typeChanged.2 hne] at hk
          exact hty (Option.some.inj hk).symm
        simp [kids_of_type ht, expandChildren, hty, FTree.entry]
  | .dir m d, .leaf m' l', p, hx, hy => by
    rw [differs_file]
    show _ ↔ _ ∨ Differs p d.look (Dir.nil : Dir κ).look c
    have hnil : (Dir.nil : Dir κ).look = fun _ => none := funext fun q => Dir.look_nil_dir
    have hk : compare (FTree.dir m d).entry (FTree.leaf m' l').entry = some .typeChanged :=
      compare_typeChanged.2 (by cases l' <;> nofun)
    have hk' : compare ⟨m, none⟩ (FTree.leaf m' l').entry = some .typeChanged := hk
    rw [hnil, ← differs_deleted, ← mem_expandChildren hx, diffEntry, hk, hk']
    simp [expandChildren, FTree.kids, FTree.entry]
  | .dir m d, .dir m' d', p, hx, hy => by
    rw [differs_file]
    show _ ↔ _ ∨ Differs p d.look d'.look c
    have hsub : c ∈ (if d = d' then [] else diffDirs snoc p d d') ↔ Differs p d.look d'.look c := by
      by_cases hd : d = d'
      · subst hd
        simp [not_differs_self]
      · rw [if_neg hd, mem_diffDirs hx hy]
    rw [← hsub, diffEntry, List.mem_append]
    refine or_congr_left ?_
    show c ∈ (match compare (FTree.dir m d).entry (FTree.dir m' d').entry with
      | none => _ | some k => _) ↔ _
    cases hk : compare (FTree.dir m d).entry (FTree.dir m' d').entry with
    | none => simp
    | some k =>
      have hty : k ≠ .typeChanged := by
        rintro rfl
        exact compare_typeChanged.1 hk rfl
      simp [hty, FTree.entry]

/-- The changes of two directories are their differences. -/
theorem mem_diffDirs : ∀ {a b : Dir κ} {pre : Path}, a.sorted = true →
    b.sorted = true → (c ∈ diffDirs snoc pre a b ↔ Differs pre a.look b.look c)
  | .nil, b, pre, _, hb => by
    have hnil : (Dir.nil : Dir κ).look = fun _ => none := funext fun q => Dir.look_nil_dir
    rw [diffDirs, mem_expandChildren hb, differs_added, hnil]
  | .cons n x rest, b, pre, ha, hb => by
    obtain ⟨hx, hr, haft⟩ := Dir.sorted_cons.1 ha
    have hlow : ∀ {m}, m < n → (Dir.cons n x rest).find m = none := fun {m} h =>
      Dir.find_of_after (Dir.after_cons.2 ⟨h, Dir.after_trans h haft⟩)
    have hsame : c ∈ (b.find n).elim (expand snoc .deleted (snoc pre n) x)
          (diffEntry snoc (snoc pre n) x)
        ↔ Differs (pre ++ [n]) (fun q => (Dir.cons n x rest).look (n :: q))
            (fun q => b.look (n :: q)) c := by
      rw [Dir.look_of_find Dir.find_cons_self]
      cases hf : b.find n with
      | none =>
        rw [Dir.look_of_find_none hf, ← differs_deleted, Option.elim_none, mem_expand hx, snoc]
      | some y =>
        rw [Dir.look_of_find hf, Option.elim_some, mem_diffEntry hx (Dir.sorted_of_find hb hf), snoc]
    -- behind `n` the two rests are the two listings
    have hhigh : ∀ {m}, n < m →
        (fun q => rest.look (m :: q)) = (fun q => (Dir.cons n x rest).look (m :: q)) ∧
        (fun q => (b.beyond n).look (m :: q)) = (fun q => b.look (m :: q)) := by
      intro m hm
      refine ⟨funext fun q => (Dir.look_cons_of_ne hm.ne).symm, funext fun q => ?_⟩
      rw [Dir.look_beyond hb, if_pos hm]
    rw [diffDirs, mem_walk hb, mem_diffDirs hr (Dir.sorted_beyond hb), hsame, differs_listing,
      differs_listing]
    constructor
    · rintro (h | ⟨m, y, hm, hy, hc⟩ | ⟨m, h⟩)
      · exact ⟨n, h⟩
      · refine ⟨m, ?_⟩
        rw [mem_expand (Dir.sorted_of_find hb hy), snoc, differs_added] at hc
        rw [Dir.look_of_find_none (hlow hm), Dir.look_of_find hy]
        exact hc
      · by_cases hm : n < m
        · rw [(hhigh hm).1, (hhigh hm).2] at h
          exact ⟨m, h⟩
        · have hrest : rest.find m = none := by
            rcases (not_lt.1 hm).lt_or_eq with hlt | rfl
            · exact Dir.find_of_after (Dir.after_trans hlt haft)
            · exact Dir.find_of_after haft
          have hbey : (b.beyond n).find m = none := by rw [Dir.find_beyond hb, if_neg hm]
          rw [Dir.look_of_find_none hrest, Dir.look_of_find_none hbey] at h
          exact absurd h not_differs_self
    · rintro ⟨m, h⟩
      rcases lt_trichotomy n m with hm | rfl | hm
      · rw [← (hhigh hm).1, ← (hhigh hm).2] at h
        exact .inr (.inr ⟨m, h⟩)
      · exact .inl h
      · refine .inr (.inl ?_)
        rw [Dir.look_of_find_none (hlow hm)] at h
        cases hf : b.find m with
        | none =>
          rw [Dir.look_of_find_none hf] at h
          exact absurd h not_differs_self
        | some y =>
          rw [Dir.look_of_find hf, ← differs_added] at h
          exact ⟨m, y, hm, hf, (mem_expand (Dir.sorted_of_find hb hf)).2 h⟩

end

end diff

/-- Paths ascend. -/
def Ordered (l : List (Change Path κ)) : Prop := l.Pairwise fun c c' => c.path < c'.path

/-- The change is below the entry `n`. -/
def Heads (pre : Path) (n : Name) (c : Change Path κ) : Prop := ∃ q, c.path = pre ++ n :: q

theorem Heads.lt {m : Name} {c c' : Change Path κ} (h : Heads pre n c) (h' : Heads pre m c')
    (hnm : n < m) : c.path < c'.path := by
  obtain ⟨q, hq⟩ := h
  obtain ⟨q', hq'⟩ := h'
  rw [hq, hq', LexOrder.append_lt_append]
  exact List.cons_lt_cons_iff.2 (.inl hnm)

theorem single_path {p : Path} {e : Entry κ} : (single kind p e).path = p := by
  unfold single
  split_ifs <;> rfl

theorem heads_expand (ht : t.sorted = true) (hc : c ∈ expand snoc kind (snoc pre n) t) :
    Heads pre n c := by
  obtain ⟨q, e, -, rfl⟩ := (mem_expand ht).1 hc
  exact ⟨q, by rw [single_path, snoc, List.append_assoc]; rfl⟩

theorem heads_expandChildren (hd : d.sorted = true) (ha : d.after n = true)
    (hc : c ∈ expandChildren snoc kind pre d) : ∃ m, n < m ∧ Heads pre m c := by
  obtain ⟨q, e, hq, rfl⟩ := (mem_expandChildren hd).1 hc
  cases q with
  | nil => cases hq
  | cons m q =>
    obtain ⟨s, hs, -⟩ := Option.bind_eq_some_iff.1 hq
    exact ⟨m, Dir.lt_of_find ha hs, q, single_path⟩

theorem lt_expandChildren (hd : d.sorted = true) (hc : c ∈ expandChildren snoc kind p d) :
    p < c.path := by
  obtain ⟨q, e, hq, rfl⟩ := (mem_expandChildren hd).1 hc
  rw [single_path]
  refine LexOrder.lt_append ?_
  rintro rfl
  cases hq

mutual

theorem ordered_expand : ∀ {t : FTree κ} {p : Path}, t.sorted = true →
    Ordered (expand snoc kind p t)
  | .leaf m l, p, _ => List.pairwise_singleton _ _
  | .dir m d, p, ht => by
    refine List.pairwise_cons.2 ⟨fun c hc => ?_, ordered_expandChildren ht⟩
    rw [single_path]
    exact lt_expandChildren ht hc

theorem ordered_expandChildren : ∀ {d : Dir κ} {p : Path}, d.sorted = true →
    Ordered (expandChildren snoc kind p d)
  | .nil, p, _ => List.Pairwise.nil
  | .cons n t rest, p, hd => by
    obtain ⟨ht, hr, ha⟩ := Dir.sorted_cons.1 hd
    refine List.pairwise_append.2 ⟨ordered_expand ht, ordered_expandChildren hr, ?_⟩
    intro c hc c' hc'
    obtain ⟨m, hnm, hm⟩ := heads_expandChildren hr ha hc'
    exact (heads_expand ht hc).lt hm hnm

end

/-- The walk goes on in order. -/
theorem ordered_walk {gone : List (Change Path κ)} {new : Name → FTree κ → List (Change Path κ)}
    {both : FTree κ → List (Change Path κ)} {next : Dir κ → List (Change Path κ)}
    (hgone : Ordered gone ∧ ∀ c ∈ gone, Heads pre n c)
    (hnew : ∀ k y, y.sorted = true → Ordered (new k y) ∧ ∀ c ∈ new k y, Heads pre k c)
    (hboth : ∀ y, y.sorted = true → Ordered (both y) ∧ ∀ c ∈ both y, Heads pre n c)
    (hnext : ∀ b, b.sorted = true → b.after n = true → Ordered (next b) ∧
      ∀ c ∈ next b, ∃ m, n < m ∧ Heads pre m c) :
    ∀ {b : Dir κ}, b.sorted = true → Ordered (walk gone new both next n b)
  | .nil, _ => by
    obtain ⟨hn, hh⟩ := hnext .nil rfl rfl
    refine List.pairwise_append.2 ⟨hgone.1, hn, fun c hc c' hc' => ?_⟩
    obtain ⟨m, hnm, hm⟩ := hh c' hc'
    exact (hgone.2 c hc).lt hm hnm
  | .cons k y rest, hb => by
    obtain ⟨hy, hr, ha⟩ := Dir.sorted_cons.1 hb
    unfold walk
    by_cases hnk : n < k
    · rw [if_pos hnk]
      obtain ⟨hn, hh⟩ := hnext _ hb (Dir.after_cons.2 ⟨hnk, Dir.after_trans hnk ha⟩)
      refine List.pairwise_append.2 ⟨hgone.1, hn, fun c hc c' hc' => ?_⟩
      obtain ⟨m, hnm, hm⟩ := hh c' hc'
      exact (hgone.2 c hc).lt hm hnm
    · rw [if_neg hnk]
      by_cases hkn : k < n
      · rw [if_pos hkn]
        refine List.pairwise_append.2 ⟨(hnew k y hy).1, ordered_walk hgone hnew hboth hnext hr, ?_⟩
        intro c hc c' hc'
        have hk := (hnew k y hy).2 c hc
        rcases (mem_walk hr).1 hc' with h | ⟨j, z, -, hz, h⟩ | h
        · have hn : Heads pre n c' := by
            cases hf : rest.find n with
            | none => exact hgone.2 c' (by rwa [hf] at h)
            | some z => exact (hboth z (Dir.sorted_of_find hr hf)).2 c' (by rwa [hf] at h)
          exact hk.lt hn hkn
        · exact hk.lt ((hnew j z (Dir.sorted_of_find hr hz)).2 c' h) (Dir.lt_of_find ha hz)
        · obtain ⟨m, hnm, hm⟩ := (hnext _ (Dir.sorted_beyond hr) (Dir.after_beyond hr)).2 c' h
          exact hk.lt hm (hkn.trans hnm)
      · rw [if_neg hkn]
        obtain rfl : n = k := le_antisymm (not_lt.1 hkn) (not_lt.1 hnk)
        obtain ⟨hn, hh⟩ := hnext rest hr ha
        refine List.pairwise_append.2 ⟨(hboth y hy).1, hn, fun c hc c' hc' => ?_⟩
        obtain ⟨m, hnm, hm⟩ := hh c' hc'
        exact ((hboth y hy).2 c hc).lt hm hnm

section order

variable [DecidableEq κ]

theorem heads_diffDirs (ha : a.sorted = true) (hb : b.sorted = true) (hna : a.after n = true)
    (hnb : b.after n = true) (hc : c ∈ diffDirs snoc pre a b) :
    ∃ m, n < m ∧ Heads pre m c := by
  obtain ⟨m, q, k, hk, rfl⟩ := differs_listing.1 ((mem_diffDirs ha hb).1 hc)
  refine ⟨m, ?_, q, by simp⟩
  cases hfa : a.find m with
  | some s => exact Dir.lt_of_find hna hfa
  | none =>
    cases hfb : b.find m with
    | some s => exact Dir.lt_of_find hnb hfb
    | none => simp [Dir.look, hfa, hfb, classify] at hk

mutual

/-- The changes come in the order of their paths. -/
theorem ordered_diffEntry : ∀ {x y : FTree κ} {p : Path}, x.sorted = true → y.sorted = true →
    Ordered (diffEntry snoc p x y)
  | .leaf m l, y, p, _, hy => by
    unfold diffEntry
    cases compare ⟨m, some l⟩ y.entry with
    | none => exact List.Pairwise.nil
    | some k =>
      by_cases hk : k = .typeChanged
      · simp only [hk, if_true]
        exact List.pairwise_cons.2 ⟨fun c hc => lt_expandChildren (FTree.sorted_kids hy) hc,
          ordered_expandChildren (FTree.sorted_kids hy)⟩
      · simp only [hk, if_false]
        exact List.pairwise_singleton _ _
  | .dir m d, .leaf m' l', p, hx, hy => by
    have hk : compare ⟨m, none⟩ (FTree.leaf m' l').entry = some .typeChanged :=
      compare_typeChanged.2 (by cases l' <;> nofun)
    unfold diffEntry
    simp only [hk, if_true, FTree.kids, expandChildren, List.append_nil]
    exact List.pairwise_cons.2 ⟨fun c hc => lt_expandChildren hx hc, ordered_expandChildren hx⟩
  | .dir m d, .dir m' d', p, hx, hy => by
    have hsub : Ordered (if d = d' then [] else diffDirs snoc p d d') ∧
        ∀ c ∈ (if d = d' then [] else diffDirs snoc p d d'), p < c.path := by
      by_cases hd : d = d'
      · simp [hd, Ordered]
      · rw [if_neg hd]
        refine ⟨ordered_diffDirs hx hy, fun c hc => ?_⟩
        obtain ⟨n, q, k, -, rfl⟩ := differs_listing.1 ((mem_diffDirs hx hy).1 hc)
        rw [List.append_assoc]
        exact LexOrder.lt_append (by simp)
    unfold diffEntry
    cases hk : compare ⟨m, none⟩ (FTree.dir m' d').entry with
    | none => exact hsub.1
    | some k =>
      have hty : k ≠ .typeChanged := by
        rintro rfl
        exact compare_typeChanged.1 hk rfl
      simp only [hty, if_false]
      exact List.pairwise_cons.2 ⟨hsub.2, hsub.1⟩

theorem ordered_diffDirs : ∀ {a b : Dir κ} {pre : Path}, a.sorted = true → b.sorted = true →
    Ordered (diffDirs snoc pre a b)
  | .nil, b, pre, _, hb => ordered_expandChildren hb
  | .cons n x rest, b, pre, ha, hb => by
    obtain ⟨hx, hr, haft⟩ := Dir.sorted_cons.1 ha
    refine ordered_walk ⟨ordered_expand hx, fun c hc => heads_expand hx hc⟩
      (fun k y hy => ⟨ordered_expand hy, fun c hc => heads_expand hy hc⟩)
      (fun y hy => ⟨ordered_diffEntry hx hy, fun c hc => ?_⟩)
      (fun b' hb' hab' => ⟨ordered_diffDirs hr hb', fun c hc => heads_diffDirs hr hb' haft hab' hc⟩) hb
    obtain ⟨q, k, -, rfl⟩ := (mem_diffEntry hx hy).1 hc
    exact ⟨q, by simp [snoc]⟩

end

end order

end Dstore.Worktree
