import Dstore.Lib.Byte

/-!
# Strings in lexicographic order

The strings that start with `l` and do not have the greatest letter are those from `l` on and below
`l` with the greatest letter appended.
-/

namespace LexOrder

variable {α : Type*} [LinearOrder α] {l m p : List α}

theorem nil_of_le_nil (h : l ≤ []) : l = [] := by
  cases l with
  | nil => rfl
  | cons a l => exact absurd h (not_le.2 List.Lex.nil)

theorem lt_append {t : List α} (ht : t ≠ []) : l < l ++ t := by
  induction l with
  | nil =>
    obtain ⟨a, t, rfl⟩ := List.exists_cons_of_ne_nil ht
    exact List.Lex.nil
  | cons a l ih => exact List.cons_lt_cons_iff.2 (.inr ⟨rfl, ih⟩)

theorem append_lt_append : p ++ l < p ++ m ↔ l < m := by
  induction p with
  | nil => rfl
  | cons a p ih => simp [ih]

theorem append_lt_of_not_prefix {s t : List α} (h : l < m) (hp : ¬ l <+: m) : l ++ s < m ++ t := by
  induction l generalizing m with
  | nil => exact absurd List.nil_prefix hp
  | cons a l ih =>
    cases m with
    | nil => exact absurd h (by simp)
    | cons b m =>
      rw [List.cons_lt_cons_iff] at h
      rw [List.cons_append, List.cons_append, List.cons_lt_cons_iff]
      rcases h with h | ⟨rfl, h⟩
      · exact .inl h
      · exact .inr ⟨rfl, ih h fun hp' => hp (List.cons_prefix_cons.2 ⟨rfl, hp'⟩)⟩

/-- Where two lists in order part. -/
theorem parts_of_lt (h : l < m) :
    (∃ t, t ≠ [] ∧ m = l ++ t) ∨ ∃ r a b s t, a < b ∧ l = r ++ a :: s ∧ m = r ++ b :: t := by
  induction l generalizing m with
  | nil => exact .inl ⟨m, by rintro rfl; simp at h, rfl⟩
  | cons a l ih =>
    cases m with
    | nil => exact absurd h (by simp)
    | cons b m =>
      rw [List.cons_lt_cons_iff] at h
      rcases h with h | ⟨rfl, h⟩
      · exact .inr ⟨[], a, b, l, m, h, rfl, rfl⟩
      · rcases ih h with ⟨t, ht, rfl⟩ | ⟨r, c, d, s, t, hcd, rfl, rfl⟩
        · exact .inl ⟨t, ht, rfl⟩
        · exact .inr ⟨a :: r, c, d, s, t, hcd, rfl, rfl⟩

/-- Nothing stands between a list and the list with the least letter appended. -/
theorem snoc_bot_le [OrderBot α] : l ++ [⊥] ≤ m ↔ l < m := by
  rw [← not_lt, not_iff_comm]
  induction l generalizing m with
  | nil =>
    cases m with
    | nil => simp
    | cons b m => simp [List.cons_lt_cons_iff]
  | cons a l ih =>
    cases m with
    | nil => simp
    | cons b m =>
      rw [List.cons_append, List.cons_lt_cons_iff, List.cons_lt_cons_iff, ← ih]
      rcases lt_trichotomy a b with h | rfl | h
      · simp [h, h.not_gt, h.ne']
      · simp
      · simp [h, h.not_gt, h.ne']

theorem prefix_of_mem_range {t : List α} (hle : l ≤ m) (hlt : m < l ++ t) : l <+: m := by
  induction l generalizing m with
  | nil => simp
  | cons a l ih =>
    cases m with
    | nil => exact absurd (nil_of_le_nil hle) (by simp)
    | cons b m =>
      rw [List.cons_append, List.cons_lt_cons_iff] at hlt
      rw [← not_lt, List.cons_lt_cons_iff] at hle
      push Not at hle
      rcases hlt with hlt | ⟨rfl, hlt⟩
      · exact absurd hlt hle.1.not_gt
      · exact List.cons_prefix_cons.2 ⟨rfl, ih (hle.2 rfl) hlt⟩

theorem mem_range_of_prefix [OrderTop α] {t : List α} (hp : l <+: m) (htop : ⊤ ∉ m) :
    l ≤ m ∧ m < l ++ ⊤ :: t := by
  obtain ⟨s, rfl⟩ := hp
  refine ⟨?_, append_lt_append.2 ?_⟩
  · cases s with
    | nil => simp
    | cons b s => exact (lt_append (by simp)).le
  · cases s with
    | nil => exact List.Lex.nil
    | cons b s =>
      have hb : b ≠ ⊤ := by
        rintro rfl
        simp at htop
      exact List.cons_lt_cons_iff.2 (.inl hb.lt_top)

theorem lt_replicate_top [OrderTop α] : ∀ {n : ℕ} {s : List α},
    s < List.replicate n ⊤ ↔ ¬ List.replicate n ⊤ <+: s
  | 0, s => by simp
  | n + 1, [] => by simp [List.replicate_succ]
  | n + 1, b :: s => by
    rw [List.replicate_succ, List.cons_lt_cons_iff, List.cons_prefix_cons, lt_replicate_top,
      lt_top_iff_ne_top, eq_comm (a := ⊤)]
    tauto

/-- The range up to `l` with some greatest letters appended has the strings that start with `l`, but
not those that go on with all of them. -/
theorem mem_range_top [OrderTop α] {n : ℕ} : l ≤ m ∧ m < l ++ List.replicate n ⊤ ↔
    l <+: m ∧ ¬ l ++ List.replicate n ⊤ <+: m := by
  have hsuf : ∀ s, l ++ s < l ++ List.replicate n ⊤ ↔
      ¬ l ++ List.replicate n ⊤ <+: l ++ s := fun s => by
    rw [append_lt_append, lt_replicate_top, List.prefix_append_right_inj]
  constructor
  · rintro ⟨hle, hlt⟩
    obtain ⟨s, rfl⟩ := prefix_of_mem_range hle hlt
    exact ⟨List.prefix_append l s, (hsuf s).1 hlt⟩
  · rintro ⟨⟨s, rfl⟩, hn⟩
    refine ⟨?_, (hsuf s).2 hn⟩
    cases s with
    | nil => simp
    | cons b s => exact (lt_append (by simp)).le

end LexOrder
