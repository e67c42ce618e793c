import Dstore.Lib.Machine

/-!
# The values of a register

A register takes a list of writes, each of which may refuse the value it finds. `Log.states` is
every value it holds on the way.
-/

namespace Log

variable {σ α ε : Type*} {apply : α → σ → Except ε σ} {P : σ → Prop} {R : σ → σ → Prop}

/-- The states that a log leads through; an entry that fails leaves the state as it is. -/
def states (apply : α → σ → Except ε σ) : σ → List α → List σ
  | s, [] => [s]
  | s, a :: as =>
    match apply a s with
    | .error _ => states apply s as
    | .ok s' => s :: states apply s' as

theorem states_eq_cons (apply : α → σ → Except ε σ) (s : σ) (as : List α) :
    ∃ rest, states apply s as = s :: rest := by
  induction as generalizing s with
  | nil => exact ⟨[], rfl⟩
  | cons a as ih =>
    unfold states
    split
    · exact ih s
    · exact ⟨_, rfl⟩

/-- What every entry keeps holds all along the log. -/
theorem forall_states (hP : ∀ a s s', P s → apply a s = .ok s' → P s') {s : σ} (hs : P s)
    (as : List α) : ∀ s' ∈ states apply s as, P s' := by
  induction as generalizing s with
  | nil =>
    intro s' hs'
    exact List.mem_singleton.1 hs' ▸ hs
  | cons a as ih =>
    unfold states
    split
    · exact ih hs
    · rename_i m hm
      intro s' hs'
      rcases List.mem_cons.1 hs' with rfl | hs'
      · exact hs
      · exact ih (hP a s m hs hm) s' hs'

theorem isChain_states (hP : ∀ a s s', P s → apply a s = .ok s' → P s')
    (hR : ∀ a s s', P s → apply a s = .ok s' → R s s') {s : σ} (hs : P s) (as : List α) :
    (states apply s as).IsChain R := by
  induction as generalizing s with
  | nil => exact .singleton s
  | cons a as ih =>
    unfold states
    split
    · exact ih hs
    · rename_i m hm
      have hchain := ih (hP a s m hs hm)
      obtain ⟨rest, hrest⟩ := states_eq_cons apply m as
      rw [hrest] at hchain ⊢
      exact .cons_cons (hR a s m hs hm) hchain

/-- Whatever a write makes of a state of some writes is a state of some writes. -/
theorem mem_states_step {a : α} {as : List α} {s s' t : σ} (hs : s' ∈ states apply s as)
    (ha : apply a s' = .ok t) : ∃ bs, t ∈ states apply s bs := by
  induction as generalizing s with
  | nil =>
    obtain rfl := List.mem_singleton.1 hs
    exact ⟨[a], by simp [states, ha]⟩
  | cons b as ih =>
    unfold states at hs
    split at hs
    · exact ih hs
    · rename_i m hm
      rcases List.mem_cons.1 hs with rfl | hs
      · exact ⟨[a], by simp [states, ha]⟩
      · obtain ⟨bs, hbs⟩ := ih hs
        exact ⟨b :: bs, by simp [states, hm, hbs]⟩

theorem self_mem_states (apply : α → σ → Except ε σ) (s : σ) (as : List α) :
    s ∈ states apply s as := by
  obtain ⟨rest, hrest⟩ := states_eq_cons apply s as
  exact hrest ▸ List.mem_cons_self

/-- One entry more appends its state. -/
theorem states_concat {a : α} {s s' : σ} (ha : apply a s = .ok s') :
    ∀ {as : List α} {s₀ : σ} {xs : List σ}, states apply s₀ as = xs ++ [s] →
      states apply s₀ (as ++ [a]) = xs ++ [s, s']
  | [], s₀, xs, h => by
    obtain ⟨rfl, hs⟩ : xs = [] ∧ s₀ = s := by
      cases xs with
      | nil => exact ⟨rfl, by simpa [states] using h⟩
      | cons x xs => simp [states] at h
    subst hs
    simp [states, ha]
  | b :: as, s₀, xs, h => by
    rw [List.cons_append]
    unfold states at h ⊢
    cases hm : apply b s₀ with
    | error e =>
      rw [hm] at h
      exact states_concat ha h
    | ok m =>
      rw [hm] at h
      cases xs with
      | nil =>
        obtain ⟨rest, hrest⟩ := states_eq_cons apply m as
        simp [hrest] at h
      | cons x xs =>
        obtain ⟨rfl, hrest⟩ := List.cons.inj h
        exact congrArg (s₀ :: ·) (states_concat ha hrest)

/-- The register holds `s`, and since `s₀` it has held `past`, newest first. -/
def Held (apply : α → σ → Except ε σ) (s₀ s : σ) (past : List σ) : Prop :=
  ∃ as older, states apply s₀ as = older ++ [s] ∧ past = s :: older.reverse

theorem held_start (apply : α → σ → Except ε σ) (s : σ) : Held apply s s [s] := ⟨[], [], rfl, rfl⟩

theorem Held.write {a : α} {s₀ s s' : σ} {past : List σ} (h : Held apply s₀ s past)
    (ha : apply a s = .ok s') : Held apply s₀ s' (s' :: past) := by
  obtain ⟨as, older, has, rfl⟩ := h
  exact ⟨as ++ [a], older ++ [s], by rw [states_concat ha has]; simp, by simp⟩

/-- What a step of a machine with the register in its state may do to it. -/
def Moves (apply : α → σ → Except ε σ) (s s' : σ) (past past' : List σ) : Prop :=
  s' = s ∧ past' = past ∨ ∃ a, apply a s = .ok s' ∧ past' = s' :: past

theorem Held.run {τ β : Type*} {step : τ → β → Option τ} {reg : τ → σ} {past : τ → List σ}
    (hstep : ∀ t b t', step t b = some t' → Moves apply (reg t) (reg t') (past t) (past t'))
    {t t' : τ} {bs : List β} {s₀ : σ} (h : Held apply s₀ (reg t) (past t))
    (hr : Machine.run step t bs = some t') : Held apply s₀ (reg t') (past t') := by
  refine Machine.invariant (P := fun t => Held apply s₀ (reg t) (past t)) ?_ bs h hr
  intro t b t' h hs
  rcases hstep t b t' hs with ⟨hr, hp⟩ | ⟨a, ha, hp⟩
  · rw [hr, hp]
    exact h
  · rw [hp]
    exact h.write ha

end Log
