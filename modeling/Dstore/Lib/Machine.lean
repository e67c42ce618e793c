import Dstore.Lib.Byte

/-!
# Runs of a machine

A machine takes a step on an action, where the action is enabled. What every step keeps, every run
keeps; what every step of a kind keeps, every run of such steps keeps.
-/

namespace Machine

variable {σ α : Type*} (step : σ → α → Option σ)

/-- The state a list of actions leads to, where each is enabled in turn. -/
def run : σ → List α → Option σ
  | s, [] => some s
  | s, a :: as =>
    match step s a with
    | none => none
    | some s' => run s' as

/-- Every step of the run is one `ok` allows, given the state before it. -/
def Along (ok : σ → α → Prop) : σ → List α → Prop
  | _, [] => True
  | s, a :: as => ok s a ∧ ∀ s', step s a = some s' → Along ok s' as

variable {step}

instance decidableAlong {ok : σ → α → Prop} [∀ s a, Decidable (ok s a)] :
    ∀ (s : σ) (as : List α), Decidable (Along step ok s as)
  | _, [] => .isTrue trivial
  | s, a :: as =>
    match h : step s a with
    | none => decidable_of_iff (ok s a) (by simp [Along, h])
    | some s' =>
      have : Decidable (Along step ok s' as) := decidableAlong s' as
      decidable_of_iff (ok s a ∧ Along step ok s' as) (by simp [Along, h])

@[simp] theorem run_nil (s : σ) : run step s [] = some s := rfl

theorem run_cons {s s' : σ} {a : α} {as : List α} :
    run step s (a :: as) = some s' ↔ ∃ m, step s a = some m ∧ run step m as = some s' := by
  rcases h : step s a with _ | m <;> simp [run, h]

/-- A run of two parts. -/
theorem run_append {s s' : σ} {as bs : List α} :
    run step s (as ++ bs) = some s' ↔ ∃ m, run step s as = some m ∧ run step m bs = some s' := by
  induction as generalizing s with
  | nil => simp
  | cons a as ih =>
    simp only [List.cons_append, run_cons, ih]
    constructor
    · rintro ⟨m, hm, m', hm', h⟩
      exact ⟨m', ⟨m, hm, hm'⟩, h⟩
    · rintro ⟨m', ⟨m, hm, hm'⟩, h⟩
      exact ⟨m, hm, m', hm', h⟩

theorem invariant_along {P : σ → Prop} {ok : σ → α → Prop}
    (hP : ∀ s a s', P s → ok s a → step s a = some s' → P s') :
    ∀ (as : List α) {s s' : σ}, P s → Along step ok s as → run step s as = some s' → P s'
  | [], s, s', hs, _, h => by
    simp only [run_nil, Option.some.injEq] at h
    exact h ▸ hs
  | a :: as, s, s', hs, hok, h => by
    obtain ⟨m, hm, h⟩ := run_cons.1 h
    exact invariant_along hP as (hP s a m hs hok.1 hm) (hok.2 m hm) h

theorem along_true : ∀ (as : List α) (s : σ), Along step (fun _ _ => True) s as
  | [], _ => trivial
  | _ :: as, _ => ⟨trivial, fun s' _ => along_true as s'⟩

theorem along_of_forall {ok : α → Prop} :
    ∀ {as : List α} (s : σ), (∀ a ∈ as, ok a) → Along step (fun _ a => ok a) s as
  | [], _, _ => trivial
  | a :: _, _, h => ⟨h a (by simp), fun s' _ => along_of_forall s' fun b hb => h b (by simp [hb])⟩

theorem invariant {P : σ → Prop} (hP : ∀ s a s', P s → step s a = some s' → P s')
    (as : List α) {s s' : σ} (hs : P s) (h : run step s as = some s') : P s' :=
  invariant_along (fun s a s' hs _ h => hP s a s' hs h) as hs (along_true as s) h

/-- Where a run first reaches `P`. -/
theorem exists_first {P : σ → Prop} :
    ∀ {as : List α} {s s' : σ}, run step s as = some s' → ¬ P s → P s' →
      ∃ pre a post t t', as = pre ++ a :: post ∧ run step s pre = some t ∧ step t a = some t' ∧
        run step t' post = some s' ∧ ¬ P t ∧ P t'
  | [], s, s', hr, hs, hs' => by
    rw [run_nil, Option.some.injEq] at hr
    exact absurd (hr ▸ hs') hs
  | a :: as, s, s', hr, hs, hs' => by
    obtain ⟨m, hm, hr⟩ := run_cons.1 hr
    by_cases hP : P m
    · exact ⟨[], a, as, s, m, rfl, run_nil s, hm, hr, hs, hP⟩
    · obtain ⟨pre, b, post, t, t', rfl, h1, h2, h3, h4, h5⟩ := exists_first hr hP hs'
      exact ⟨a :: pre, b, post, t, t', rfl, run_cons.2 ⟨m, hm, h1⟩, h2, h3, h4, h5⟩

/-- A condition along a run holds along its parts. -/
theorem Along.append {ok : σ → α → Prop} :
    ∀ {as bs : List α} {s m : σ}, Along step ok s (as ++ bs) → run step s as = some m →
      Along step ok s as ∧ Along step ok m bs
  | [], bs, s, m, h, hr => by
    simp only [run_nil, Option.some.injEq] at hr
    exact ⟨trivial, hr ▸ h⟩
  | a :: as, bs, s, m, h, hr => by
    obtain ⟨k, hk, hr⟩ := run_cons.1 hr
    obtain ⟨h1, h2⟩ := Along.append (h.2 k hk) hr
    refine ⟨⟨h.1, fun s' hs' => ?_⟩, h2⟩
    rw [hk, Option.some.injEq] at hs'
    exact hs' ▸ h1

/-- A condition along a run, by the states it is tried in. -/
theorem along_iff {ok : σ → α → Prop} : ∀ {as : List α} {s : σ}, Along step ok s as ↔
    ∀ pre a post t, as = pre ++ a :: post → run step s pre = some t → ok t a
  | [], s => by simp [Along]
  | b :: as, s => by
    constructor
    · rintro ⟨hb, hrest⟩ pre a post t heq hr
      rcases List.cons_eq_append_iff.1 heq with ⟨rfl, h⟩ | ⟨pre, rfl, rfl⟩
      · cases h
        cases hr
        exact hb
      · obtain ⟨m, hm, hr⟩ := run_cons.1 hr
        exact along_iff.1 (hrest m hm) pre a post t rfl hr
    · intro h
      refine ⟨h [] b as s rfl (run_nil s), fun m hm => along_iff.2 ?_⟩
      intro pre a post t heq hr
      exact h (b :: pre) a post t (by rw [heq, List.cons_append]) (run_cons.2 ⟨m, hm, hr⟩)

theorem Along.forall {ok : σ → α → Prop} {P : α → Prop} (hP : ∀ s a, ok s a → P a) :
    ∀ {as : List α} {s s' : σ}, Along step ok s as → run step s as = some s' → ∀ a ∈ as, P a
  | [], _, _, _, _ => by simp
  | a :: as, s, s', hok, hr => by
    obtain ⟨m, hm, hr⟩ := run_cons.1 hr
    intro b hb
    rcases List.mem_cons.1 hb with rfl | hb
    · exact hP s b hok.1
    · exact Along.forall hP (hok.2 m hm) hr b hb

end Machine
