import Dstore.Proofs.Worktree.Paths

/-!
# The order of a change list

The walk lists a directory, then all below it, then the next name. In bytewise order of the full
paths a name that continues the directory's name with a byte below the separator comes before what
is in the directory.
-/

namespace Dstore.Worktree

open FileTree

/-- The name goes on with a character below the slash. -/
def Continues (m n : Name) : Prop := ∃ c w, n = m ++ c :: w ∧ c < 47

theorem nameOk_append {p q : Path} (h : ∀ n ∈ p ++ q, NameOk n) :
    (∀ n ∈ p, NameOk n) ∧ ∀ n ∈ q, NameOk n :=
  ⟨fun n hn => h n (List.mem_append_left _ hn), fun n hn => h n (List.mem_append_right _ hn)⟩

theorem spell_part (r : Path) (hr : ∀ n ∈ r, NameOk n) :
    ∃ pre, ∀ m s, NameOk m → spell (r ++ m :: s) = pre ++ (m ++ spellTail s) := by
  by_cases hne : r = []
  · subst hne
    exact ⟨[], fun m s hm => spell_cons hm.1 s⟩
  · refine ⟨spell r ++ [47], fun m s _ => ?_⟩
    rw [spell_append hr hne]
    simp [spellTail]

/-- Paths that part at two names are spelled in the order of the names, unless the second name
continues the first below the separator and the first path goes on. -/
theorem spell_lt_iff {r : Path} {m n : Name} {s u : Path} (hmn : m < n)
    (hp : ∀ k ∈ r ++ m :: s, NameOk k) (hq : ∀ k ∈ r ++ n :: u, NameOk k) :
    spell (r ++ m :: s) < spell (r ++ n :: u) ↔ ¬ (s ≠ [] ∧ Continues m n) := by
  have hm := hp m (by simp)
  have hn := hq n (by simp)
  obtain ⟨pre, hpre⟩ := spell_part r (nameOk_append hp).1
  rw [hpre m s hm, hpre n u hn, LexOrder.append_lt_append]
  by_cases hpfx : m <+: n
  · obtain ⟨t, rfl⟩ := hpfx
    have ht : t ≠ [] := by
      rintro rfl
      simp at hmn
    obtain ⟨c, w, rfl⟩ := List.exists_cons_of_ne_nil ht
    have hc : c ≠ 47 := by
      rintro rfl
      exact hn.2 (by simp)
    have hcont : Continues m (m ++ c :: w) ↔ c < 47 := by
      constructor
      · rintro ⟨c', w', h, hc'⟩
        have := List.append_cancel_left h
        rw [List.cons.injEq] at this
        exact this.1 ▸ hc'
      · exact fun h => ⟨c, w, rfl, h⟩
    rw [hcont, List.append_assoc, LexOrder.append_lt_append]
    cases s with
    | nil => simp [spellTail]
    | cons k s =>
      rw [show spellTail (k :: s) = 47 :: (k ++ spellTail s) by simp [spellTail], List.cons_append,
        List.cons_lt_cons_iff]
      rcases lt_or_gt_of_ne hc with h | h
      · simp [h, h.not_gt, h.ne']
      · simp [h, h.not_gt]
  · have hnot : ¬ Continues m n := by
      rintro ⟨c, w, rfl, -⟩
      exact hpfx (List.prefix_append _ _)
    simp [LexOrder.append_lt_of_not_prefix hmn hpfx, hnot]

variable {κ : Type} [DecidableEq κ] {a b : Dir κ}

/-- The two trees differ at the path. -/
def DifferAt (a b : Dir κ) (p : Path) : Prop := classify (a.look p) (b.look p) ≠ none

theorem DifferAt.mem (ha : a.sorted = true) (hb : b.sorted = true) {p : Path} (h : DifferAt a b p) :
    ∃ c ∈ diffPaths a b, c.path = p := by
  obtain ⟨k, hk⟩ := Option.ne_none_iff_exists'.1 h
  exact ⟨⟨p, k, a.look p, b.look p⟩, (mem_diffPaths ha hb).2 ⟨k, hk, rfl⟩, rfl⟩

theorem DifferAt.nameOk {P : Name → Bool} (ha : a.named P = true) (hb : b.named P = true)
    {p : Path} (h : DifferAt a b p) : ∀ n ∈ p, P n = true := by
  cases hla : a.look p with
  | some e => exact Dir.named_look ha hla
  | none =>
    cases hlb : b.look p with
    | some e => exact Dir.named_look hb hlb
    | none => exact absurd (by rw [hla, hlb]; rfl) h

theorem differAt_of_mem (ha : a.sorted = true) (hb : b.sorted = true) {c : Change Path κ}
    (hc : c ∈ diffPaths a b) : DifferAt a b c.path := by
  obtain ⟨k, hk, -⟩ := (mem_diffPaths ha hb).1 hc
  exact fun h => by rw [h] at hk; cases hk

/-- The change list of two sorted trees is strictly increasing in bytewise order of the paths if and
only if no two names of a directory, the second continuing the first with a byte below the
separator, have a difference below the first and one at or below the second. -/
theorem path_order (a b : Dir κ) (ha : a.sorted = true) (hb : b.sorted = true)
    (hna : a.named (fun n => NameOk n) = true) (hnb : b.named (fun n => NameOk n) = true) :
    ((diffTrees a b).map Change.path).Pairwise (· < ·) ↔
      ∀ (r : Path) (m n : Name) (s u : Path), Continues m n → s ≠ [] →
        ¬ (DifferAt a b (r ++ m :: s) ∧ DifferAt a b (r ++ n :: u)) := by
  have hok : ∀ {p}, DifferAt a b p → ∀ n ∈ p, NameOk n := fun h n hn =>
    of_decide_eq_true (h.nameOk hna hnb n hn)
  rw [diffTrees_eq, List.map_map, List.pairwise_map]
  constructor
  · rintro h r m n s u hc hs ⟨hp, hq⟩
    have hmn : m < n := by
      obtain ⟨c, w, rfl, -⟩ := hc
      exact LexOrder.lt_append (by simp)
    obtain ⟨c, hcm, hcp⟩ := hp.mem ha hb
    obtain ⟨c', hcm', hcp'⟩ := hq.mem ha hb
    -- the change below `m` comes first in the list
    have hlt : c.path < c'.path := by
      rw [hcp, hcp', LexOrder.append_lt_append]
      exact List.cons_lt_cons_iff.2 (.inl hmn)
    have hor : (diffPaths a b).Pairwise fun c c' =>
        (spell c.path < spell c'.path ∧ c.path < c'.path) ∨
          (spell c'.path < spell c.path ∧ c'.path < c.path) :=
      (h.and (ordered_diffPaths ha hb)).imp .inl
    have hne : c ≠ c' := by
      rintro rfl
      exact lt_irrefl _ hlt
    have hsym : Std.Symm fun c c' : Change Path κ =>
        (spell c.path < spell c'.path ∧ c.path < c'.path) ∨
          (spell c'.path < spell c.path ∧ c'.path < c.path) := ⟨fun _ _ => Or.symm⟩
    rcases hor.forall hcm hcm' hne with hlt' | hlt'
    · rw [hcp, hcp', spell_lt_iff hmn (hok hp) (hok hq)] at hlt'
      exact hlt'.1 ⟨hs, hc⟩
    · exact absurd hlt hlt'.2.not_gt
  · intro h
    refine (ordered_diffPaths ha hb).imp_of_mem fun {c c'} hcm hcm' hlt => ?_
    have hp := differAt_of_mem ha hb hcm
    have hq := differAt_of_mem ha hb hcm'
    show spell c.path < spell c'.path
    rcases LexOrder.parts_of_lt hlt with ⟨t, ht, he⟩ | ⟨r, m, n, s, u, hmn, hep, heq⟩
    · have hne : c.path ≠ [] := by
        intro h0
        apply hp
        rw [h0]
        rfl
      obtain ⟨k, t, rfl⟩ := List.exists_cons_of_ne_nil ht
      rw [he, spell_append (hok hp) hne]
      exact LexOrder.lt_append (by simp [spellTail])
    · rw [hep] at hp ⊢
      rw [heq] at hq ⊢
      rw [spell_lt_iff hmn (hok hp) (hok hq)]
      rintro ⟨hs, hc⟩
      exact h r m n s u hc hs ⟨hp, hq⟩

/-- A directory, and a file that sorts between it and what it holds. -/
def beside : Dir ℕ :=
  .cons [97] (.dir ⟨0o755, 0, 0, 0, [], []⟩
    (.cons [120] (.leaf ⟨0o644, 0, 0, 0, [], []⟩ (.reg 1)) .nil))
    (.cons [97, 46, 116, 120, 116] (.leaf ⟨0o644, 0, 0, 0, [], []⟩ (.reg 2)) .nil)

/-- Adding both lists `a`, `a/x`, `a.txt`: the last comes before `a/x` in bytewise order. -/
theorem path_order_beside :
    beside.sorted = true ∧ beside.named (fun n => NameOk n) = true ∧
      ¬ ((diffTrees .nil beside).map Change.path).Pairwise (· < ·) := by
  decide +kernel

/-- `d` with the files `a` and `b` and the directory `c` in it, and beside it the file `e`. -/
def nested (a : ℕ) (b : Dir ℕ → Dir ℕ) (c : Dir ℕ) : Dir ℕ :=
  .cons [100] (.dir ⟨0o755, 0, 0, 0, [], []⟩
    (.cons [97] (.leaf ⟨0o644, 0, 0, 0, [], []⟩ (.reg a))
      (b (.cons [99] (.dir ⟨0o755, 0, 0, 0, [], []⟩ c) .nil))))
    (.cons [101] (.leaf ⟨0o644, 0, 0, 0, [], []⟩ (.reg a)) .nil)

def oldNested : Dir ℕ :=
  nested 1 (.cons [98] (.leaf ⟨0o644, 0, 0, 0, [], []⟩ (.reg 2))) .nil

def newNested : Dir ℕ :=
  nested 3 id (.cons [120] (.leaf ⟨0o644, 0, 0, 0, [], []⟩ (.reg 4)) .nil)

/-- With `d/a` and `e` edited, `d/b` deleted and `d/c/x` added, no two changes are out of order. -/
theorem path_order_nested :
    (diffTrees oldNested newNested).map Change.path =
      [[100, 47, 97], [100, 47, 98], [100, 47, 99, 47, 120], [101]] ∧
    ∀ (r : Path) (m n : Name) (s u : Path), Continues m n → s ≠ [] →
      ¬ (DifferAt oldNested newNested (r ++ m :: s) ∧ DifferAt oldNested newNested (r ++ n :: u)) := by
  have hpaths : (diffTrees oldNested newNested).map Change.path =
      [[100, 47, 97], [100, 47, 98], [100, 47, 99, 47, 120], [101]] := by decide +kernel
  refine ⟨hpaths, (path_order oldNested newNested (by decide) (by decide) (by decide)
    (by decide)).1 ?_⟩
  rw [hpaths]
  decide

end Dstore.Worktree
