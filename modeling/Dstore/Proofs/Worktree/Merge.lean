import Dstore.Lib.Lex
import Dstore.Worktree.Merge

/-!
# What a pull applies

The changes applied are the incoming ones with a favourable verdict, and with force those in
conflict as well: each once, in some order. What conflicts is said by rules (`merge_rules`).
-/

namespace Dstore.Worktree

open FileTree

section lookups

variable {κ : Type} {mine : List (Change Bytes κ)} {m : Change Bytes κ} {p q : Bytes}

/-- A local change took a directory above `p` away. -/
def Gone (mine : List (Change Bytes κ)) (p : Bytes) : Prop :=
  ∃ l ∈ mine, takesDir l = true ∧ l.path ≠ [] ∧ l.path ++ [47] <+: p

theorem mem_above : q ∈ above p ↔ q ≠ [] ∧ q ++ [47] <+: p := by
  simp only [above, List.mem_map, List.mem_filter, List.mem_reverse, List.mem_range,
    decide_eq_true_eq]
  constructor
  · rintro ⟨i, ⟨hi, hpos, hs⟩, rfl⟩
    refine ⟨List.ne_nil_of_length_pos (by rw [List.length_take]; omega), ?_⟩
    rw [show [47] = p[i]?.toList by rw [hs]; rfl, ← List.take_add_one]
    exact List.take_prefix _ _
  · rintro ⟨hq, r, rfl⟩
    exact ⟨q.length, ⟨by simp, List.length_pos_iff.2 hq, by simp⟩, by simp⟩

theorem byPath_eq_none : byPath mine p = none ↔ ∀ l ∈ mine, l.path ≠ p := by simp [byPath]

theorem of_byPath (h : byPath mine p = some m) : m ∈ mine ∧ m.path = p :=
  ⟨List.mem_reverse.1 (List.mem_of_find?_eq_some h), by simpa using List.find?_some h⟩

theorem byPath_path (hd : (mine.map Change.path).Nodup) (hm : m ∈ mine) :
    byPath mine m.path = some m := by
  obtain ⟨m', h⟩ := Option.ne_none_iff_exists'.1 fun h => byPath_eq_none.1 h m hm rfl
  rw [h, List.inj_on_of_nodup_map hd (of_byPath h).1 hm (of_byPath h).2]

theorem goneAbove_isSome (hd : (mine.map Change.path).Nodup) :
    (goneAbove mine p).isSome ↔ Gone mine p := by
  simp only [goneAbove, List.findSome?_isSome_iff, mem_above, Option.isSome_filter,
    Option.any_eq_true]
  constructor
  · rintro ⟨q, ⟨hq, hp⟩, l, hl, ht⟩
    obtain ⟨hmem, rfl⟩ := of_byPath hl
    exact ⟨l, hmem, ht, hq, hp⟩
  · rintro ⟨l, hl, ht, hne, hp⟩
    exact ⟨l.path, ⟨hne, hp⟩, l, byPath_path hd hl, ht⟩

/-- The search in the sorted paths finds a change below a directory where there is one. -/
theorem firstBelow_isSome : (firstBelow mine p).isSome ↔ ∃ l ∈ mine, p ++ [47] <+: l.path := by
  unfold firstBelow
  constructor
  · intro h
    obtain ⟨m, hm⟩ := Option.isSome_iff_exists.1 h
    obtain ⟨q, hq, hm⟩ := Option.bind_eq_some_iff.1 hm
    obtain ⟨hmem, rfl⟩ := of_byPath hm
    exact ⟨m, hmem, by simpa using (Option.filter_eq_some_iff.1 hq).2⟩
  · rintro ⟨l, hl, r, hr⟩
    have hmem : ∀ {q}, q ∈ paths mine ↔ ∃ l ∈ mine, l.path = q := by simp [paths]
    have hsort : (paths mine).Pairwise (· ≤ ·) := List.pairwise_insertionSort _ _
    have hle : p ++ [47] ≤ l.path := by
      rw [← hr]
      rcases eq_or_ne r [] with rfl | h0
      · simp
      · exact (LexOrder.lt_append h0).le
    obtain ⟨q, hq⟩ := Option.isSome_iff_exists.1 ((List.find?_isSome (p := fun q => p ++ [47] ≤ q)).2
      ⟨_, hmem.2 ⟨l, hl, rfl⟩, by simpa using hle⟩)
    obtain ⟨hpq, as, bs, heq, has⟩ := List.find?_eq_some_iff_append.1 hq
    -- the first path that is not before the directory's is not behind that of `l`
    have hql : q ≤ l.path := by
      have hin := hmem.2 ⟨l, hl, rfl⟩
      rw [heq] at hin hsort
      rcases List.mem_append.1 hin with hin | hin
      · simpa [hle] using has _ hin
      · rcases List.mem_cons.1 hin with hin | hin
        · exact hin.ge
        · exact (List.pairwise_cons.1 (List.pairwise_append.1 hsort).2.1).1 _ hin
    have hpre : p ++ [47] <+: q := by
      rcases hql.eq_or_lt with rfl | hlt
      · exact ⟨r, hr⟩
      · exact LexOrder.prefix_of_mem_range (by simpa using hpq) (hr ▸ hlt)
    obtain ⟨l', hl', rfl⟩ := hmem.1 (List.mem_of_find?_eq_some hq)
    rw [hq, Option.filter_some, if_pos (by simpa using hpre), Option.bind_some,
      Option.isSome_iff_ne_none]
    exact fun h => byPath_eq_none.1 h l' hl' rfl

end lookups

variable {κ : Type} [DecidableEq κ] {force : Bool} {mine incoming l : List (Change Bytes κ)}
  {c : Change Bytes κ}

/-- The change conflicts with a local one. -/
def InConflict (mine : List (Change Bytes κ)) (c : Change Bytes κ) : Prop :=
  ∃ l, judge mine c = .conflict l

/-- The change is applied. -/
def Applied (force : Bool) (mine : List (Change Bytes κ)) (c : Change Bytes κ) : Prop :=
  judge mine c = .take ∨ (force = true ∧ InConflict mine c)

theorem mem_merge_fst : c ∈ (merge mine incoming).1 ↔ c ∈ incoming ∧ judge mine c = .take := by
  unfold merge
  rw [List.mem_filter]
  refine and_congr_right fun _ => ?_
  cases judge mine c <;> simp

theorem mem_merge_snd {k : Conflict κ} : k ∈ (merge mine incoming).2 ↔
    ∃ c ∈ incoming, ∃ l, judge mine c = .conflict l ∧ k = ⟨c.path, l, c⟩ := by
  unfold merge
  rw [List.mem_filterMap]
  refine exists_congr fun c => and_congr_right fun _ => ?_
  cases judge mine c <;> simp [eq_comm]

theorem merge_snd_eq_nil :
    (merge mine incoming).2 = [] ↔ ∀ c ∈ incoming, ¬ InConflict mine c := by
  rw [List.eq_nil_iff_forall_not_mem]
  constructor
  · rintro h c hc ⟨l, hl⟩
    exact h _ (mem_merge_snd.2 ⟨c, hc, l, hl, rfl⟩)
  · intro h k hk
    obtain ⟨c, hc, l, hl, -⟩ := mem_merge_snd.1 hk
    exact h c hc ⟨l, hl⟩

theorem sublist_incoming : ((merge mine incoming).2.map Conflict.incoming).Sublist incoming := by
  unfold merge
  induction incoming with
  | nil => exact List.Sublist.refl _
  | cons c incoming ih =>
    dsimp only at ih ⊢
    rw [List.filterMap_cons]
    cases judge mine c with
    | conflict l => exact ih.cons_cons c
    | take => exact ih.cons c
    | nothing => exact ih.cons c

/-- What a pull applies. -/
theorem mem_resolved (h : resolved force mine incoming = some l) :
    c ∈ l ↔ c ∈ incoming ∧ Applied force mine c := by
  unfold resolved at h
  dsimp only at h
  split_ifs at h with hnil hforce
  · cases h
    rw [mem_merge_fst]
    refine and_congr_right fun hc => ⟨.inl, fun ha => ha.resolve_right fun hcon => ?_⟩
    exact merge_snd_eq_nil.1 (List.isEmpty_iff.1 hnil) c hc hcon.2
  · cases h
    rw [List.mem_append, mem_merge_fst, List.mem_map]
    constructor
    · rintro (⟨hc, ht⟩ | ⟨k, hk, rfl⟩)
      · exact ⟨hc, .inl ht⟩
      · obtain ⟨c, hc, l, hl, rfl⟩ := mem_merge_snd.1 hk
        exact ⟨hc, .inr ⟨hforce, l, hl⟩⟩
    · rintro ⟨hc, ht | ⟨-, l, hl⟩⟩
      · exact .inl ⟨hc, ht⟩
      · exact .inr ⟨_, mem_merge_snd.2 ⟨c, hc, l, hl, rfl⟩, rfl⟩

/-- No path is changed twice. -/
theorem nodup_resolved (h : resolved force mine incoming = some l)
    (hd : (incoming.map Change.path).Nodup) : (l.map Change.path).Nodup := by
  have htake : ((merge mine incoming).1.map Change.path).Nodup :=
    (List.filter_sublist.map Change.path).nodup hd
  unfold resolved at h
  dsimp only at h
  split_ifs at h with hnil hforce
  · cases h
    exact htake
  · cases h
    rw [List.map_append, List.nodup_append]
    refine ⟨htake, (sublist_incoming.map Change.path).nodup hd, ?_⟩
    rintro _ ha _ hb rfl
    obtain ⟨c, hc, hcp⟩ := List.mem_map.1 ha
    obtain ⟨c', hc', hcp'⟩ := List.mem_map.1 hb
    obtain ⟨k, hk, rfl⟩ := List.mem_map.1 hc'
    obtain ⟨c', hmem, l, hl, rfl⟩ := mem_merge_snd.1 hk
    obtain ⟨hin, ht⟩ := mem_merge_fst.1 hc
    obtain rfl : c = c' := List.inj_on_of_nodup_map hd hin hmem (hcp.trans hcp'.symm)
    rw [ht] at hl
    cases hl

/-- When a change conflicts, in terms of the two lists. -/
def Clashes (mine : List (Change Bytes κ)) (c : Change Bytes κ) : Prop :=
  (∃ l ∈ mine, l.path = c.path ∧ l.kind ≠ .metaChanged ∧
    (l.kind = .deleted ∧ c.kind ≠ .deleted ∨
      l.kind ≠ .deleted ∧ (c.kind = .deleted ∨ sameEdit l c = false))) ∨
  (∀ l ∈ mine, l.path ≠ c.path) ∧ (c.kind ≠ .deleted ∧ Gone mine c.path ∨
    c.kind = .typeChanged ∧ c.old.any Entry.isDir = true ∧ ∃ l ∈ mine, c.path ++ [47] <+: l.path)

/-- When there is nothing to do, in terms of the two lists. -/
def Made (mine : List (Change Bytes κ)) (c : Change Bytes κ) : Prop :=
  c.kind = .deleted ∧ ((∃ l ∈ mine, l.path = c.path ∧ l.kind = .deleted) ∨
    (∀ l ∈ mine, l.path ≠ c.path) ∧ Gone mine c.path)

/-- The verdicts, in terms of the two lists. -/
theorem judge_rules (hd : (mine.map Change.path).Nodup) (c : Change Bytes κ) :
    (InConflict mine c ↔ Clashes mine c) ∧
      (judge mine c = .take ↔ ¬ Clashes mine c ∧ ¬ Made mine c) := by
  unfold InConflict judge
  rcases hby : byPath mine c.path with _ | l
  · have hnone := byPath_eq_none.1 hby
    have hat : ∀ P : Change Bytes κ → Prop, ¬ ∃ l ∈ mine, l.path = c.path ∧ P l := by
      rintro P ⟨l, hl, hp, -⟩
      exact hnone l hl hp
    simp only [Clashes, Made, hat, eq_true hnone, false_or, true_and, ← goneAbove_isSome hd,
      ← firstBelow_isSome]
    rcases goneAbove mine c.path with _ | g
    · by_cases hk : c.kind = .typeChanged ∧ c.old.any Entry.isDir = true
      · rcases firstBelow mine c.path with _ | f <;> simp [hk.1, hk.2]
      · rw [if_neg hk]
        simp [← and_assoc, hk]
    · by_cases hk : c.kind = .deleted <;> simp [hk]
  · obtain ⟨hl, hp⟩ := of_byPath hby
    have hat : ∀ P : Change Bytes κ → Prop, (∃ m ∈ mine, m.path = c.path ∧ P m) ↔ P l := by
      refine fun P => ⟨?_, fun h => ⟨l, hl, hp, h⟩⟩
      rintro ⟨m, hm, hmp, h⟩
      rwa [← List.inj_on_of_nodup_map hd hm hl (hmp.trans hp.symm)]
    have hsome : ¬ ∀ m ∈ mine, m.path ≠ c.path := fun h => h l hl hp
    simp only [Clashes, Made, hat, eq_false hsome, false_and, or_false]
    by_cases h1 : l.kind = .metaChanged
    · simp [h1]
    · by_cases h2 : l.kind = .deleted <;> by_cases h3 : c.kind = .deleted <;>
        cases sameEdit l c <;> simp [h1, h2, h3]

/-- An incoming change is in conflict where it clashes with a local one, and applied where it does
not and the local side has not made it already. -/
theorem merge_rules (hd : (mine.map Change.path).Nodup) (hc : c ∈ incoming) :
    ((∃ k ∈ (merge mine incoming).2, k.incoming = c) ↔ Clashes mine c) ∧
      (c ∈ (merge mine incoming).1 ↔ ¬ Clashes mine c ∧ ¬ Made mine c) := by
  obtain ⟨hconf, htake⟩ := judge_rules hd c
  rw [← hconf, mem_merge_fst, htake, ← hconf]
  refine ⟨⟨?_, ?_⟩, and_iff_right hc⟩
  · rintro ⟨k, hk, rfl⟩
    obtain ⟨c, -, l, hl, rfl⟩ := mem_merge_snd.1 hk
    exact ⟨l, hl⟩
  · rintro ⟨l, hl⟩
    exact ⟨_, mem_merge_snd.2 ⟨c, hc, l, hl, rfl⟩, rfl⟩

namespace Mixed

def file (x : ℕ) : Entry ℕ := ⟨⟨0o644, 0, 0, 0, [], []⟩, some (.reg x)⟩

def folder : Entry ℕ := ⟨⟨0o755, 0, 0, 0, [], []⟩, none⟩

/-- Locally `d` is deleted, `e` is edited and `f/x` is new. -/
def ours : List (Change Bytes ℕ) :=
  [⟨[100], .deleted, some folder, none⟩, ⟨[100, 47, 120], .deleted, some (file 1), none⟩,
    ⟨[101], .modified, some (file 1), some (file 2)⟩, ⟨[102, 47, 120], .added, none, some (file 3)⟩]

/-- The remote has `d/x` gone and `d/y` new, made the same edit of `e`, replaced `f` by a file and
added `g`. -/
def theirs : List (Change Bytes ℕ) :=
  [⟨[100, 47, 120], .deleted, some (file 1), none⟩, ⟨[100, 47, 121], .added, none, some (file 4)⟩,
    ⟨[101], .modified, some (file 1), some (file 2)⟩, ⟨[102], .typeChanged, some folder, some (file 5)⟩,
    ⟨[103], .added, none, some (file 6)⟩]

end Mixed

theorem merge_rules_mixed :
    (merge Mixed.ours Mixed.theirs).1.map Change.path = [[101], [103]] ∧
      ∀ c ∈ Mixed.theirs,
        (Clashes Mixed.ours c ↔ c.path ∈ ([[100, 47, 121], [102]] : List Bytes)) ∧
        (¬ Clashes Mixed.ours c ∧ ¬ Made Mixed.ours c ↔ c.path ∈ ([[101], [103]] : List Bytes)) := by
  have hmerge : ∀ c ∈ Mixed.theirs,
      ((∃ k ∈ (merge Mixed.ours Mixed.theirs).2, k.incoming = c) ↔
        c.path ∈ ([[100, 47, 121], [102]] : List Bytes)) ∧
      (c ∈ (merge Mixed.ours Mixed.theirs).1 ↔ c.path ∈ ([[101], [103]] : List Bytes)) := by
    decide +kernel
  refine ⟨by decide +kernel, fun c hc => ?_⟩
  have hd : (Mixed.ours.map Change.path).Nodup := by decide +kernel
  obtain ⟨hclash, htake⟩ := merge_rules hd hc
  rw [← htake, ← hclash]
  exact hmerge c hc

end Dstore.Worktree
