import Dstore.Lib.Byte

/-!
# Sums of counters

Counters read one by one: if one of them goes up, so does their sum; and if two readings have the
same sum, what every counter was in between lies where both readings are, since none goes down.
-/

namespace Tally

variable {ι : Type*}

/-- One summand grows, the sum with it. -/
theorem sum_map_add {l : List ι} (hl : l.Nodup) {f g : ι → ℕ} {i : ι} (hi : i ∈ l) {n : ℕ}
    (hg : g i = f i + n) (hne : ∀ j ∈ l, j ≠ i → g j = f j) :
    (l.map g).sum = (l.map f).sum + n := by
  induction l with
  | nil => simp at hi
  | cons j l ih =>
    obtain ⟨hj, hl⟩ := List.nodup_cons.1 hl
    simp only [List.map_cons, List.sum_cons]
    rcases List.mem_cons.1 hi with rfl | hi
    · have : l.map g = l.map f := List.map_congr_left fun j' hj' =>
        hne j' (by simp [hj']) fun h => hj (h ▸ hj')
      rw [hg, this]
      omega
    · rw [ih hl hi fun j' hj' => hne j' (by simp [hj']), hne j (by simp) fun h => hj (h ▸ hi)]
      omega

theorem eq_of_sum_eq {l : List ι} {f g : ι → ℕ} (h : ∀ i ∈ l, f i ≤ g i)
    (hs : (l.map f).sum = (l.map g).sum) : ∀ i ∈ l, f i = g i := by
  induction l with
  | nil => simp
  | cons j l ih =>
    simp only [List.map_cons, List.sum_cons] at hs
    have hj := h j (by simp)
    have hl : (l.map f).sum ≤ (l.map g).sum :=
      List.sum_le_sum fun i hi => h i (List.mem_cons_of_mem j hi)
    intro i hi
    rcases List.mem_cons.1 hi with rfl | hi
    · omega
    · exact ih (fun i hi => h i (List.mem_cons_of_mem j hi)) (by omega) i hi

end Tally
