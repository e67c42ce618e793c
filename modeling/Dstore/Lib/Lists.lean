import Dstore.Lib.Byte

/-!
# Lists, and maps over them that may fail
-/

namespace Lists

variable {α β : Type*}

/-- An entry of a list, with what replacing and erasing it leave. -/
theorem exists_split {l : List α} {i : ℕ} {a : α} (h : l[i]? = some a) :
    ∃ l₁ l₂, l = l₁ ++ a :: l₂ ∧ (∀ b, l.set i b = l₁ ++ b :: l₂) ∧ l.eraseIdx i = l₁ ++ l₂ := by
  obtain ⟨hi, rfl⟩ := List.getElem?_eq_some_iff.1 h
  refine ⟨l.take i, l.drop (i + 1), ?_, fun b => ?_, ?_⟩
  · rw [List.getElem_cons_drop, List.take_append_drop]
  · rw [List.set_eq_take_append_cons_drop, if_pos hi]
  · rw [List.eraseIdx_eq_take_drop_succ]

theorem intercalate_append {sep : List α} {ys : List (List α)} (hy : ys ≠ []) :
    ∀ {xs : List (List α)}, xs ≠ [] →
      sep.intercalate (xs ++ ys) = sep.intercalate xs ++ (sep ++ sep.intercalate ys)
  | [x], _ => by
    obtain ⟨y, ys, rfl⟩ := List.exists_cons_of_ne_nil hy
    simp [List.intercalate_cons_cons]
  | x :: x' :: xs, _ => by
    rw [List.cons_append, List.cons_append, List.intercalate_cons_cons, List.intercalate_cons_cons,
      ← List.cons_append, intercalate_append hy (List.cons_ne_nil _ _)]
    simp

/-- Where a map that may fail goes through, every entry has its image. -/
theorem mapM_some {f : α → Option β} :
    ∀ {l : List α} {r : List β}, l.mapM f = some r → ∀ a ∈ l, ∃ b ∈ r, f a = some b
  | [], _, _ => by simp
  | a :: l, r, h => by
    simp only [List.mapM_cons, Option.bind_eq_bind, Option.bind_eq_some_iff] at h
    obtain ⟨b, hb, bs, hbs, h⟩ := h
    cases h
    intro x hx
    rcases List.mem_cons.1 hx with rfl | hx
    · exact ⟨b, by simp, hb⟩
    · obtain ⟨y, hy, hf⟩ := mapM_some hbs x hx
      exact ⟨y, by simp [hy], hf⟩

end Lists

namespace Except

theorem ok_of_bind {ε α β : Type} {x : Except ε α} {f : α → Except ε β} {b : β}
    (h : x >>= f = .ok b) : ∃ a, x = .ok a ∧ f a = .ok b := by
  rcases x with e | a
  · cases h
  · exact ⟨a, rfl, h⟩

end Except
