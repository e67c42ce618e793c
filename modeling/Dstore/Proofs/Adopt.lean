import Dstore.Adopt

/-!
# A node's view goes back where adoptions cross

A call that passed the comparison overwrites whatever has been written since. The view in memory and
the persisted one never go back where calls do not cross (`Clear`), and every crossing can go on to
a write that goes back (`crossed_goes_back`).
-/

namespace Dstore.Adopt

open Machine

variable {s s₀ s' : State} {as bs : List Action} {a : Action} {t u : Thread} {v : View} {i : ℕ}
  {ok : Bool} {st : Stage}

/-- The age of a view that may be missing. -/
def ageOf : Option View → WithBot ((ℕ ×ₗ ℕ) ×ₗ ℕ)
  | none => ⊥
  | some v => v.age

theorem ageOf_lt_of_not_refuses {cur : Option View} (h : refuses cur v = false) :
    ageOf cur < v.age := by
  cases cur with
  | none => exact WithBot.bot_lt_coe _
  | some cur =>
    have hc : ¬ cur.covers v = true := by
      simp only [refuses, Bool.or_eq_false_iff] at h
      simp [h.1]
    exact WithBot.coe_lt_coe.2 (not_le.1 fun hle => hc (View.covers_iff.2 hle))

/-- The thread is past its check and has still to set the view in memory. -/
def Thread.toSet (t : Thread) : Bool := t.stage = .passed ∨ t.stage = .persisted

/-- The step of a call does not cross another: it does not pass while a newer view is persisted and
not yet set, and makes no write while an older call that passed has that write ahead. -/
structure Clear (s : State) (t : Thread) (ok : Bool) : Prop where
  pass : t.stage = .called → refuses s.mem t.view = false →
    ∀ u ∈ s.threads, u.stage = .persisted → u.view.age ≤ t.view.age
  persist : t.stage = .passed → ok = true →
    ∀ u ∈ s.threads, u.stage = .passed → t.view.age ≤ u.view.age
  set : t.stage = .persisted → ∀ u ∈ s.threads, u.toSet → t.view.age ≤ u.view.age

/-- No call crosses another. -/
def Orderly (s : State) : Action → Prop
  | .adopt _ => True
  | .advance i ok => ∀ t ∈ s.threads[i]?, Clear s t ok

instance : Decidable (Clear s t ok) :=
  decidable_of_iff
    ((t.stage = .called → refuses s.mem t.view = false →
        ∀ u ∈ s.threads, u.stage = .persisted → u.view.age ≤ t.view.age) ∧
      (t.stage = .passed → ok = true →
        ∀ u ∈ s.threads, u.stage = .passed → t.view.age ≤ u.view.age) ∧
      (t.stage = .persisted → ∀ u ∈ s.threads, u.toSet → t.view.age ≤ u.view.age))
    ⟨fun h => ⟨h.1, h.2.1, h.2.2⟩, fun h => ⟨h.pass, h.persist, h.set⟩⟩

instance decidableOrderly (s : State) : ∀ a, Decidable (Orderly s a)
  | .adopt _ => .isTrue trivial
  | .advance i ok => inferInstanceAs (Decidable (∀ t ∈ s.threads[i]?, Clear s t ok))

theorem mem_put (hu : u ∈ (s.put i t st).threads) : u ∈ s.threads ∨ u = { t with stage := st } :=
  List.mem_or_eq_of_mem_set hu

theorem mem_put_of_ne (ht : s.threads[i]? = some t) (hu : u ∈ s.threads) (hne : u ≠ t) :
    u ∈ (s.put i t st).threads := by
  obtain ⟨j, hj⟩ := List.mem_iff_getElem?.1 hu
  refine List.mem_iff_getElem?.2 ⟨j, ?_⟩
  have hij : i ≠ j := by
    rintro rfl
    exact hne (Option.some.inj (hj.symm.trans ht))
  rw [State.put, List.getElem?_set_ne hij, hj]

theorem mem_put_self (ht : s.threads[i]? = some t) :
    { t with stage := st } ∈ (s.put i t st).threads :=
  List.mem_set (List.getElem?_eq_some_iff.1 ht).1 _

/-- What each step does, with what it found. -/
inductive Stepped (s : State) : Action → State → Prop
  | adopt (v : View) : Stepped s (.adopt v) { s with threads := s.threads ++ [{ view := v }] }
  | refuse {i : ℕ} {t : Thread} {ok : Bool} (ht : s.threads[i]? = some t)
      (hst : t.stage = .called) : Stepped s (.advance i ok) (s.put i t .returned)
  | pass {i : ℕ} {t : Thread} {ok : Bool} (ht : s.threads[i]? = some t)
      (hst : t.stage = .called) (hr : refuses s.mem t.view = false) :
      Stepped s (.advance i ok) (s.put i t .passed)
  | fail {i : ℕ} {t : Thread} (ht : s.threads[i]? = some t) (hst : t.stage = .passed) :
      Stepped s (.advance i false) (s.put i t .returned)
  | persist {i : ℕ} {t : Thread} (ht : s.threads[i]? = some t) (hst : t.stage = .passed) :
      Stepped s (.advance i true) { s.put i t .persisted with disk := some t.view }
  | set {i : ℕ} {t : Thread} {ok : Bool} (ht : s.threads[i]? = some t)
      (hst : t.stage = .persisted) :
      Stepped s (.advance i ok) { s.put i t .set with mem := some t.view }
  | install {i : ℕ} {t : Thread} {ok : Bool} (ht : s.threads[i]? = some t) (hst : t.stage = .set) :
      Stepped s (.advance i ok) { s.put i t .returned with acc := s.acc.install t.view }

/-- A step is one of those listed. -/
theorem step_stepped (h : step s a = some s') : Stepped s a s' := by
  cases a with
  | adopt v =>
    cases h
    exact .adopt v
  | advance i ok =>
    simp only [step] at h
    split at h
    · cases h
    rename_i t ht
    unfold State.advance at h
    split at h
    · cases h
      split_ifs with hr
      · exact .refuse ht ‹_›
      · exact .pass ht ‹_› (by simpa using hr)
    · cases ok
      · cases h
        exact .fail ht ‹_›
      · cases h
        exact .persist ht ‹_›
    · cases h
      exact .set ht ‹_›
    · cases h
      exact .install ht ‹_›
    · cases h

/-- What a call that has passed may count on, and how the two copies stand. -/
structure Inv (s : State) : Prop where
  passed : ∀ u ∈ s.threads, u.stage = .passed → ageOf s.disk ≤ u.view.age
  ahead : ∀ u ∈ s.threads, u.toSet → ageOf s.mem ≤ u.view.age
  persisted : ∀ u ∈ s.threads, u.stage = .persisted → u.view.age ≤ ageOf s.disk
  disk : ageOf s.disk ≤ ageOf s.mem ∨
    ∃ u ∈ s.threads, u.stage = .persisted ∧ ageOf s.disk ≤ u.view.age

/-- A thread that moves on without a write. -/
theorem Inv.put (h : Inv s) (ht : s.threads[i]? = some t) (hne : t.stage ≠ .persisted)
    (hpass : st = .passed → ageOf s.disk ≤ t.view.age ∧ ageOf s.mem ≤ t.view.age)
    (hst : st ≠ .persisted) : Inv (s.put i t st) where
  passed u hu hus := by
    rcases mem_put hu with hu | rfl
    · exact h.passed u hu hus
    · exact (hpass hus).1
  ahead u hu hus := by
    rcases mem_put hu with hu | rfl
    · exact h.ahead u hu hus
    · exact (hpass (by simpa [Thread.toSet, hst] using hus)).2
  persisted u hu hus := by
    rcases mem_put hu with hu | rfl
    · exact h.persisted u hu hus
    · exact absurd hus hst
  disk := by
    rcases h.disk with hle | ⟨u, hu, hus, hle⟩
    · exact .inl hle
    · exact .inr ⟨u, mem_put_of_ne ht hu (by rintro rfl; exact hne hus), hus, hle⟩

/-- An orderly step keeps the invariant, and goes back neither in memory nor on disk. -/
theorem Inv.step (h : Inv s) (hs : Stepped s a s') (ho : Orderly s a) :
    Inv s' ∧ ageOf s.mem ≤ ageOf s'.mem ∧ ageOf s.disk ≤ ageOf s'.disk := by
  cases hs with
  | adopt v =>
    have hmem : ∀ u, u ∈ s.threads ++ [{ view := v }] → u.stage ≠ .called → u ∈ s.threads := by
      intro u hu hst
      rcases List.mem_append.1 hu with hu | hu
      · exact hu
      · rw [List.mem_singleton.1 hu] at hst
        exact absurd rfl hst
    refine ⟨⟨fun u hu hus => h.passed u (hmem u hu (by simp [hus])) hus, fun u hu hus => ?_,
      fun u hu hus => h.persisted u (hmem u hu (by simp [hus])) hus, ?_⟩, le_rfl, le_rfl⟩
    · refine h.ahead u (hmem u hu fun hc => ?_) hus
      simp [Thread.toSet, hc] at hus
    · exact h.disk.imp id fun ⟨u, hu, hus⟩ => ⟨u, List.mem_append_left _ hu, hus⟩
  | refuse ht hst => exact ⟨h.put ht (by simp [hst]) nofun nofun, le_rfl, le_rfl⟩
  | @pass i t ok ht hst hr =>
    have hlt := ageOf_lt_of_not_refuses hr
    have hclear := (ho t ht).pass hst
    refine ⟨h.put ht (by simp [hst]) (fun _ => ⟨?_, hlt.le⟩) nofun, le_rfl, le_rfl⟩
    rcases h.disk with hle | ⟨u, hu, hus, hle⟩
    · exact hle.trans hlt.le
    · exact hle.trans (WithBot.coe_le_coe.2 (hclear hr u hu hus))
  | fail ht hst => exact ⟨h.put ht (by simp [hst]) nofun nofun, le_rfl, le_rfl⟩
  | @persist i t ht hst =>
    have hclear := (ho t ht).persist hst rfl
    have htm : t ∈ s.threads := List.mem_of_getElem? ht
    refine ⟨⟨fun u hu hus => ?_, fun u hu hus => ?_, fun u hu hus => ?_, ?_⟩, le_rfl,
      h.passed t htm hst⟩
    · rcases mem_put hu with hu | rfl
      · exact WithBot.coe_le_coe.2 (hclear u hu hus)
      · cases hus
    · rcases mem_put hu with hu | rfl
      · exact h.ahead u hu hus
      · exact h.ahead t htm (by simp [Thread.toSet, hst])
    · rcases mem_put hu with hu | rfl
      · exact (h.persisted u hu hus).trans (h.passed t htm hst)
      · exact le_rfl
    · exact .inr ⟨_, mem_put_self ht, rfl, le_rfl⟩
  | @set i t ok ht hst =>
    have hclear := (ho t ht).set hst
    have htm : t ∈ s.threads := List.mem_of_getElem? ht
    have hset : t.toSet := by simp [Thread.toSet, hst]
    refine ⟨⟨fun u hu hus => ?_, fun u hu hus => ?_, fun u hu hus => ?_, ?_⟩,
      h.ahead t htm hset, le_rfl⟩
    · rcases mem_put hu with hu | rfl
      · exact h.passed u hu hus
      · cases hus
    · rcases mem_put hu with hu | rfl
      · exact WithBot.coe_le_coe.2 (hclear u hu hus)
      · simp [Thread.toSet] at hus
    · rcases mem_put hu with hu | rfl
      · exact h.persisted u hu hus
      · cases hus
    · rcases h.disk with hle | ⟨u, hu, hus, hle⟩
      · exact .inl (hle.trans (h.ahead t htm hset))
      · by_cases hut : u = t
        · exact .inl (hut ▸ hle)
        · exact .inr ⟨u, mem_put_of_ne ht hu hut, hus, hle⟩
  | @install i t ok ht hst =>
    have hput : Inv (s.put i t .returned) := h.put ht (by simp [hst]) nofun nofun
    exact ⟨⟨hput.passed, hput.ahead, hput.persisted, hput.disk⟩, le_rfl, le_rfl⟩

/-- A node that has started: no call yet, and in memory what the database has. -/
structure Initial (s : State) : Prop where
  loaded : s.mem = s.disk
  threads : s.threads = []

theorem Inv.init (h : Initial s) : Inv s :=
  ⟨by simp [h.threads], by simp [h.threads], by simp [h.threads], .inl (by rw [h.loaded])⟩

theorem inv_run (h₀ : Initial s₀) (ho : Along step Orderly s₀ as) (hr : run step s₀ as = some s) :
    Inv s :=
  invariant_along (fun _ _ _ h ho hs => (h.step (step_stepped hs) ho).1) as (.init h₀) ho hr

/-- From one state of an orderly run to any later one, neither the view in memory nor the persisted
one goes back. -/
theorem view_monotone (h₀ : Initial s₀) (hr : run step s₀ as = some s)
    (hr' : run step s bs = some s') (ho : Along step Orderly s₀ (as ++ bs)) :
    ageOf s.mem ≤ ageOf s'.mem ∧ ageOf s.disk ≤ ageOf s'.disk := by
  obtain ⟨ho₁, ho₂⟩ := ho.append hr
  refine (invariant_along
    (P := fun u => Inv u ∧ ageOf s.mem ≤ ageOf u.mem ∧ ageOf s.disk ≤ ageOf u.disk)
    (fun u a u' h ho hs => ?_) bs ⟨inv_run h₀ ho₁ hr, le_rfl, le_rfl⟩ ho₂ hr').2
  obtain ⟨hinv, hmem, hdisk⟩ := h.1.step (step_stepped hs) ho
  exact ⟨hinv, h.2.1.trans hmem, h.2.2.trans hdisk⟩

def version (n : ℕ) : View := { incarnation := 1, epoch := 1, version := n, voters := [] }

/-- A node that has started with version 1. -/
def started : State := { mem := some (version 1), disk := some (version 1), acc := { self := 1 } }

/-- The newer view is adopted while the older one is between check and write. -/
def overtaken : List Action :=
  [.adopt (version 2), .adopt (version 3), .advance 0 true, .advance 1 true, .advance 1 true,
    .advance 1 true]

/-- The older one makes its writes over those of the newer. -/
theorem view_goes_back :
    ((run step started overtaken).map fun s => (s.mem, s.disk)) =
        some (some (version 3), some (version 3)) ∧
      ((run step started (overtaken ++ [.advance 0 true, .advance 0 true])).map
        fun s => (s.mem, s.disk)) = some (some (version 2), some (version 2)) ∧
      (version 3).covers (version 2) = true ∧ (version 2).covers (version 3) = false := by
  decide

/-- The older view is in memory before the newer one is checked. -/
def inTurn : List Action :=
  [.adopt (version 2), .advance 0 true, .advance 0 true, .advance 0 true, .adopt (version 3),
    .advance 1 true, .advance 0 true, .advance 1 true, .advance 1 true]

theorem view_monotone_inTurn : ∃ s, run step started inTurn = some s ∧
    s.mem = some (version 3) ∧ s.disk = some (version 3) ∧
    ageOf started.mem ≤ ageOf s.mem ∧ ageOf started.disk ≤ ageOf s.disk := by
  have hrun := Option.some_get (show (run step started inTurn).isSome = true by decide)
  have hfirst : run step started [] = some started := rfl
  have h := view_monotone ⟨rfl, rfl⟩ hfirst hrun.symm
    (show Along step Orderly started ([] ++ inTurn) by decide)
  exact ⟨_, hrun.symm, by decide, by decide, h⟩

theorem getElem?_put_self (ht : s.threads[i]? = some t) :
    (s.put i t st).threads[i]? = some { t with stage := st } := by
  rw [State.put, List.getElem?_set_self (List.getElem?_eq_some_iff.1 ht).1]

theorem getElem?_put_of_ne {j : ℕ} (hij : i ≠ j) :
    (s.put i t st).threads[j]? = s.threads[j]? := by
  rw [State.put, List.getElem?_set_ne hij]

theorem crossing_cases (h : ¬ Clear s t ok) :
    (t.stage = .called ∧ refuses s.mem t.view = false ∧
      ∃ u ∈ s.threads, u.stage = .persisted ∧ t.view.age < u.view.age) ∨
    (t.stage = .passed ∧ ok = true ∧
      ∃ u ∈ s.threads, u.stage = .passed ∧ u.view.age < t.view.age) ∨
    t.stage = .persisted ∧ ∃ u ∈ s.threads, u.toSet ∧ u.view.age < t.view.age := by
  by_contra hno
  push Not at hno
  obtain ⟨h1, h2, h3⟩ := hno
  exact h ⟨h1, h2, h3⟩

theorem step_persist (ht : s.threads[i]? = some t) (hst : t.stage = .passed) :
    step s (.advance i true) = some { s.put i t .persisted with disk := some t.view } := by
  simp [step, ht, State.advance, hst]

theorem step_set (ht : s.threads[i]? = some t) (hst : t.stage = .persisted) :
    step s (.advance i true) = some { s.put i t .set with mem := some t.view } := by
  simp [step, ht, State.advance, hst]

theorem toSet_goes_on (ht : s.threads[i]? = some t) (hset : t.toSet) :
    ∃ bs s', run step s bs = some s' ∧ s'.mem = some t.view := by
  simp only [Thread.toSet, decide_eq_true_eq] at hset
  rcases hset with hst | hst
  · have hnext : ({ s.put i t .persisted with disk := some t.view } : State).threads[i]? =
        some { t with stage := .persisted } := getElem?_put_self ht
    exact ⟨[_, _], _, run_cons.2 ⟨_, step_persist ht hst, run_cons.2 ⟨_, step_set hnext rfl,
      run_nil _⟩⟩, rfl⟩
  · exact ⟨[_], _, run_cons.2 ⟨_, step_set ht hst, run_nil _⟩, rfl⟩

/-- After a crossing of an orderly run, one call can go on to take a view back. -/
theorem crossed_goes_back (h₀ : Initial s₀) (ho : Along step Orderly s₀ as)
    (hr : run step s₀ as = some s) (hs : step s a = some s') (hx : ¬ Orderly s a) :
    ∃ bs s'', run step s' bs = some s'' ∧
      (ageOf s''.mem < ageOf s'.mem ∨ ageOf s''.disk < ageOf s'.disk) := by
  have h := inv_run h₀ ho hr
  cases a with
  | adopt v => exact absurd trivial hx
  | advance i ok =>
    simp only [Orderly, Option.mem_def, not_forall] at hx
    obtain ⟨t, ht, hx⟩ := hx
    have hother : ∀ u ∈ s.threads, u.view.age < t.view.age →
        ∃ j, i ≠ j ∧ s.threads[j]? = some u := by
      intro u hu hlt
      obtain ⟨j, hj⟩ := List.mem_iff_getElem?.1 hu
      refine ⟨j, ?_, hj⟩
      rintro rfl
      rw [Option.some.inj (ht.symm.trans hj)] at hlt
      exact lt_irrefl _ hlt
    rcases crossing_cases hx with ⟨hst, href, u, hu, hus, hlt⟩ | ⟨hst, rfl, u, hu, hus, hlt⟩ |
      ⟨hst, u, hu, hus, hlt⟩
    · -- the call that passes is behind what is persisted
      simp only [step, ht, State.advance, hst, href, Bool.false_eq_true, if_false,
        Option.some.injEq] at hs
      subst hs
      refine ⟨[_], _, run_cons.2 ⟨_, step_persist (getElem?_put_self ht) rfl, run_nil _⟩, .inr ?_⟩
      exact (WithBot.coe_lt_coe.2 hlt).trans_le (h.persisted u hu hus)
    · -- the older call persists its view over this one
      obtain ⟨j, hij, hj⟩ := hother u hu hlt
      rw [step_persist ht hst, Option.some.injEq] at hs
      subst hs
      exact ⟨[_], _, run_cons.2 ⟨_, step_persist ((getElem?_put_of_ne hij).trans hj) hus,
        run_nil _⟩, .inr (WithBot.coe_lt_coe.2 hlt)⟩
    · -- the older call puts its view in memory over this one
      obtain ⟨j, hij, hj⟩ := hother u hu hlt
      simp only [step, ht, State.advance, hst, Option.some.injEq] at hs
      subst hs
      have hj' : ({ s.put i t .set with mem := some t.view } : State).threads[j]? = some u :=
        (getElem?_put_of_ne hij).trans hj
      obtain ⟨bs, s'', hbs, hmem⟩ := toSet_goes_on hj' hus
      refine ⟨bs, s'', hbs, .inl ?_⟩
      rw [hmem]
      exact WithBot.coe_lt_coe.2 hlt

theorem crossed_goes_back_overtaken :
    ∃ s' bs s'', run step started (overtaken.take 5) = some s' ∧ run step s' bs = some s'' ∧
      (ageOf s''.mem < ageOf s'.mem ∨ ageOf s''.disk < ageOf s'.disk) := by
  have hr : run step started (overtaken.take 4) = some _ := rfl
  obtain ⟨bs, s'', h⟩ := crossed_goes_back ⟨rfl, rfl⟩ (by decide) hr
    (show step _ (.advance 1 true) = some _ from rfl) (by decide)
  exact ⟨_, bs, s'', rfl, h⟩

end Dstore.Adopt
